import Mbf.Trigger.Effects
import Mbf.Trigger.System

/-! # Disarming

A disarm leaves the target quelled (`Quelled`): neither it nor, in shared mode, any target of
its group has a postponed arm, and automatic rearming is suppressed.  Every automatic arm comes
from one of these two sources, so a quelled target is armed by nothing but a request.

There is one way besides a request to lift this (`Joins`): a target that was not in the group,
and whose own arm is postponed, is put into shared mode.  The group then has a postponed arm,
and all of its targets are armed when the last of its locks goes. -/

namespace Mbf.Trigger

open Context Function

/-- No arm of the target is pending, and none is made automatically. -/
structure Quelled (g : Globals) (t : TargetId) : Prop where
  alone : ¬ Shares g.targets t →
    (g.targets t).dontRearm = true ∧ (g.targets t).state ≠ .locked
  group : Shares g.targets t → g.shared.dontRearm = true ∧
    ∀ u, Shares g.targets u → (g.targets u).state ≠ .locked

/-- From `c` to `c'` the target `t` is not armed in hardware, and is quelled in the end. -/
structure Still (t : TargetId) (c c' : Context) : Prop where
  quelled : Quelled c'.toGlobals t
  out : Emits (fun e => e.arms t = false) c c'

section quelled
variable {c c' : Context} {t u : TargetId}

theorem Quelled.still (h : Quelled c'.toGlobals t) (hout : Emits Event.Tame c c') :
    Still t c c' :=
  ⟨h, hout.mono fun _ he => he.arms t⟩

theorem Quelled.refl (h : Quelled c.toGlobals t) : Still t c c := h.still (.refl c)

theorem Still.trans {c'' : Context} (h : Still t c c') (h' : Still t c' c'') : Still t c c'' :=
  ⟨h'.quelled, h.out.trans h'.out⟩

theorem Still.emit (h : Still t c c') {e : Event} (he : e.arms t = false) :
    Still t c (emit e c') :=
  ⟨h.quelled, h.out.trans (.emit he)⟩

/-- A target outside the group does not depend on anything else. -/
theorem Quelled.outside (h : Quelled c.toGlobals t) (ht : ¬ Shares c.targets t)
    (heq : c'.targets t = c.targets t) : Quelled c'.toGlobals t := by
  have ht' : ¬ Shares c'.targets t := by rwa [Shares, heq]
  refine ⟨fun _ => ?_, fun hs => absurd hs ht'⟩
  rw [heq]
  exact h.alone ht

/-- A change of a record that keeps its suppression and postpones no arm. -/
theorem Quelled.update (h : Quelled c.toGlobals t) {x : Target}
    (htargets : c'.targets = update c.targets u x) (hshared : c'.shared = c.shared)
    (hmode : x.mode = (c.targets u).mode) (hdont : x.dontRearm = (c.targets u).dontRearm)
    (hlocked : x.state = .locked → (c.targets u).state = .locked) :
    Quelled c'.toGlobals t := by
  have hshares (v : TargetId) : Shares c'.targets v ↔ Shares c.targets v := by
    rw [htargets]
    by_cases hv : v = u
    · subst hv; simp [Shares, hmode]
    · simp [Shares, hv]
  have hstate (v : TargetId) (hl : (c'.targets v).state = .locked) :
      (c.targets v).state = .locked := by
    rw [htargets] at hl
    by_cases hv : v = u
    · subst hv
      exact hlocked (by simpa using hl)
    · simpa [hv] using hl
  refine ⟨fun hs => ?_, fun hs => ?_⟩
  · rw [hshares] at hs
    refine ⟨?_, fun hl => (h.alone hs).2 (hstate t hl)⟩
    rw [htargets]
    by_cases hv : t = u
    · subst hv; simpa [hdont] using (h.alone hs).1
    · simpa [hv] using (h.alone hs).1
  · rw [hshares] at hs
    rw [hshared]
    exact ⟨(h.group hs).1,
      fun v hv hl => (h.group hs).2 v ((hshares v).mp hv) (hstate v hl)⟩

/-- A change of another target that is not in the group. -/
theorem Quelled.update_other (h : Quelled c.toGlobals t) {x : Target}
    (htargets : c'.targets = Function.update c.targets u x) (hshared : c'.shared = c.shared)
    (hu : ¬ Shares c.targets u) (hmode : x.mode ≠ .shared) (hne : t ≠ u) :
    Quelled c'.toGlobals t := by
  by_cases ht : Shares c.targets t
  · have ht' : Shares c'.targets t := by rw [htargets]; simpa [Shares, hne] using ht
    refine ⟨fun hs => absurd ht' hs, fun _ => ?_⟩
    rw [hshared, htargets]
    refine ⟨(h.group ht).1, fun v hv => ?_⟩
    have hvu : v ≠ u := by rintro rfl; simp [Shares, hmode] at hv
    rw [update_of_ne hvu]
    exact (h.group ht).2 v (by simpa [Shares, hvu] using hv)
  · exact h.outside ht (by rw [htargets, update_of_ne hne])

/-! ### What the functions do to a quelled target -/

theorem emits_armSharedTargets (ht : ¬ Shares c.targets t) :
    Emits (fun e => e.arms t = false) c (armSharedTargets c) := by
  cases armSharedTargets_cases c with
  | refused _ _ _ out =>
      obtain ⟨m, out⟩ := out
      exact ⟨_, out, by simp [Event.arms]⟩
  | nothing _ _ _ out => exact .of_out out
  | postponed _ _ _ _ out =>
      refine ⟨_, out.trans (List.append_assoc ..), fun e he => ?_⟩
      rcases List.mem_append.mp he with he | he
      · obtain ⟨v, _, he⟩ := mem_loopOut.mp he
        exact (postponeOut_tame v _ e he).arms t
      · split_ifs at he
        · cases he
        · rw [List.mem_singleton.mp he]; rfl
  | armed _ _ _ _ _ out =>
      refine ⟨_, out.trans (List.append_assoc ..), fun e he => ?_⟩
      rcases List.mem_append.mp he with he | he
      · obtain ⟨v, _, he⟩ := mem_loopOut.mp he
        exact (armOut_tame v _ e he).arms t
      · rcases List.mem_pair.mp he with rfl | rfl
        · exact decide_eq_false ht
        · rfl

theorem still_armSharedTargets (h : Quelled c.toGlobals t) (ht : ¬ Shares c.targets t) :
    Still t c (armSharedTargets c) :=
  ⟨h.outside ht (armSharedTargets_outside ht), emits_armSharedTargets ht⟩

/-- In the group of a quelled target there is nothing to rearm for. -/
theorem Quelled.not_rearms (h : Quelled c.toGlobals t) (ht : Shares c.targets t) :
    ¬ Rearms c.toGlobals := by
  obtain ⟨hdont, hlocked⟩ := h.group ht
  rintro (⟨_, _, hrearm⟩ | ⟨hl, _⟩)
  · rw [hdont] at hrearm
    cases hrearm
  · obtain ⟨⟨u, hu, hl⟩, _⟩ := (computeGlobalState_locked_iff _).mp hl
    exact hlocked u hu hl

theorem still_refresh (h : Quelled c.toGlobals t) : Still t c (refresh c) := by
  refine Quelled.still ⟨?_, ?_⟩ (.setGlobalState trivial)
  · rw [refresh_targets]
    exact h.alone
  · rw [refresh_targets, refresh_shared]
    exact h.group

theorem still_updateGlobalState (h : Quelled c.toGlobals t) :
    Still t c (updateGlobalState c) := by
  have hrefresh := still_refresh h
  by_cases hr : Rearms c.toGlobals
  · rw [updateGlobalState_of_rearms hr]
    have ht : ¬ Shares c.targets t := fun ht => h.not_rearms ht hr
    exact hrefresh.trans (still_armSharedTargets hrefresh.quelled (by rwa [refresh_targets]))
  · rw [updateGlobalState_of_not_rearms hr]
    exact hrefresh

/-- Arming another target that is not in the group. -/
theorem emits_armTarget (hu : ¬ Shares c.targets u) (hne : t ≠ u) :
    Emits (fun e => e.arms t = false) c (armTarget u c) := by
  have harm : Emits (fun e => e.arms t = false) c (doArmTarget u c).2 :=
    .of_local doArmTarget_local fun e he => (armOut_tame u _ e he).arms t
  rw [armTarget_of_not_shares hu]
  split_ifs
  · exact harm.trans (.emit (decide_eq_false hne))
  · exact harm

/-- Arming another target, unless both are in the group. -/
theorem still_armTarget (h : Quelled c.toGlobals t) (hne : t ≠ u)
    (hgroup : ¬ (Shares c.targets t ∧ Shares c.targets u)) : Still t c (armTarget u c) := by
  by_cases hu : Shares c.targets u
  · rw [armTarget_of_shares hu]
    exact still_armSharedTargets h fun ht => hgroup ⟨ht, hu⟩
  · exact ⟨h.update_other (armTarget_targets hu) (armTarget_shared hu) hu
      (by rwa [Target.arm_mode]) hne, emits_armTarget hu hne⟩

theorem disarmTarget_tame (hu : ¬ Shares c.targets u) : Emits Event.Tame c (disarmTarget u c) := by
  rw [disarmTarget_of_not_shares hu]
  exact (Emits.emit (e := .writeTriggerDisarm (getTargetMask u)) trivial).trans
    (.of_local doDisarmTarget_local (disarmOut_tame u _))

theorem disarmLoop_tame (c : Context) : Emits Event.Tame c (disarmLoop c) :=
  Emits.trans (.emit (c := { c with shared := { c.shared with dontRearm := true } })
    (e := .writeTriggerDisarm (getSharedMask c.targets)) trivial)
    (.of_loop doDisarmTarget_local fun u _ => disarmOut_tame u _)

/-- A disarm of the group quells its targets. -/
theorem quelled_disarmLoop (ht : Shares c.targets t) : Quelled (disarmLoop c).toGlobals t := by
  refine ⟨fun hs => ?_, fun _ => ?_⟩
  · rw [disarmLoop_targets, disarmGroup_shares] at hs
    exact absurd ht hs
  · rw [disarmLoop_shared, disarmLoop_targets]
    refine ⟨rfl, fun u hu => ?_⟩
    rw [disarmGroup_shares] at hu
    rw [disarmGroup, if_pos hu]
    exact Target.disarm_not_locked u _

theorem still_disarmSharedTargets (ht : Shares c.targets t) :
    Still t c (disarmSharedTargets c) := by
  rw [disarmSharedTargets_eq]
  exact ((quelled_disarmLoop ht).still (disarmLoop_tame c)).trans
    (still_updateGlobalState (quelled_disarmLoop ht))

/-- A disarm quells its target. -/
theorem still_disarmTarget (t : TargetId) (c : Context) : Still t c (disarmTarget t c) := by
  by_cases ht : Shares c.targets t
  · rw [disarmTarget_of_shares ht]
    exact still_disarmSharedTargets ht
  · refine Quelled.still ⟨fun _ => ?_, fun hs => absurd ?_ ht⟩ (disarmTarget_tame ht)
    · rw [disarmTarget_targets ht, update_self]
      exact ⟨Target.disarm_dontRearm t _, Target.disarm_not_locked t _⟩
    · rw [disarmTarget_targets ht] at hs
      simpa [Shares] using hs

theorem Quelled.disarmSharedTargets (h : Quelled c.toGlobals t) :
    Still t c (disarmSharedTargets c) := by
  by_cases ht : Shares c.targets t
  · exact still_disarmSharedTargets ht
  · have hloop : Quelled (disarmLoop c).toGlobals t := by
      refine h.outside ht ?_
      rw [disarmLoop_targets, disarmGroup, if_neg ht]
    rw [disarmSharedTargets_eq]
    exact (hloop.still (disarmLoop_tame c)).trans (still_updateGlobalState hloop)

theorem Quelled.disarmTarget (h : Quelled c.toGlobals t) (u : TargetId) :
    Still t c (disarmTarget u c) := by
  by_cases htu : t = u
  · subst htu
    exact still_disarmTarget t c
  · by_cases hu : Shares c.targets u
    · rw [disarmTarget_of_shares hu]
      exact h.disarmSharedTargets
    · exact (h.update_other (disarmTarget_targets hu) (disarmTarget_shared hu) hu
        (by rwa [Target.disarm_mode]) htu).still (disarmTarget_tame hu)

theorem Quelled.setTargetState (h : Quelled c.toGlobals t) (u : TargetId) {s : TargetState}
    (hs : s ≠ .locked) : Still t c (setTargetState u s c) :=
  (h.update (x := { c.targets u with state := s }) (setTargetState_targets ..)
    (setTargetState_shared ..) rfl rfl (absurd · hs)).still (.setTargetState trivial)

theorem Quelled.triggerTargetTrigger (h : Quelled c.toGlobals t) (u : TargetId) :
    Still t c (triggerTargetTrigger u c) := by
  have hbusy := h.setTargetState u (s := .busy) (by decide)
  unfold Trigger.triggerTargetTrigger
  split_ifs
  · dsimp only
    split_ifs
    · exact hbusy.trans (still_updateGlobalState hbusy.quelled)
    · exact hbusy
  · exact h.refl.emit rfl

theorem Quelled.triggerTargetComplete (h : Quelled c.toGlobals t) (u : TargetId) :
    Still t c (triggerTargetComplete u c) := by
  have hidle := h.setTargetState u (s := .idle) (by decide)
  have harm (hmode : ((Trigger.setTargetState u .idle c).targets u).mode ≠ .shared)
      (hdont : ((Trigger.setTargetState u .idle c).targets u).dontRearm = false) :
      Still t c (armTarget u (Trigger.setTargetState u .idle c)) := by
    refine hidle.trans (still_armTarget hidle.quelled ?_ fun hs => hmode hs.2)
    -- The quelled target itself does not rearm.
    rintro rfl
    rw [(hidle.quelled.alone hmode).1] at hdont
    cases hdont
  unfold Trigger.triggerTargetComplete
  split_ifs
  · refine Still.emit (e := .broadcast) ?_ rfl
    split_ifs with hmode hrearm hfree
    · exact hidle.trans (still_updateGlobalState hidle.quelled)
    · exact harm hmode hrearm.2
    · exact (harm hmode hfree.2).emit rfl
    · exact hidle
  · exact h.refl.emit rfl

theorem Quelled.decrementTriggerLockCount (h : Quelled c.toGlobals t) (u : TargetId) :
    Still t c (decrementTriggerLockCount u c) := by
  have hdrop : Still t c (dropLock u c) :=
    (h.update (dropLock_targets u c) rfl rfl rfl id).still (.of_out rfl)
  rw [decrementTriggerLockCount_eq]
  split_ifs with _ hu hl
  · exact hdrop.trans (still_updateGlobalState hdrop.quelled)
  · refine hdrop.trans (still_armTarget hdrop.quelled ?_ fun hs => ?_)
    · rintro rfl
      exact (h.alone hu).2 hl
    · exact hu ((shares_dropLock u).mp hs.2)
  · exact hdrop
  · exact hdrop

theorem Quelled.triggerTargetSetMode (h : Quelled c.toGlobals t) (u : TargetId)
    (mode : TargetMode) (hne : t ≠ u)
    (hjoin : ¬ (mode = .shared ∧ Shares c.targets t ∧ (c.targets u).state = .locked)) :
    Still t c (triggerTargetSetMode u mode c) := by
  have hmodify : Quelled (c.modify u fun x => { x with mode := mode }).toGlobals t := by
    by_cases ht : Shares c.targets t
    · refine ⟨fun hs => absurd (by simpa [Shares, hne] using ht) hs, fun _ => ?_⟩
      rw [modify_shared, modify_targets]
      refine ⟨(h.group ht).1, fun v hv hl => ?_⟩
      by_cases hv' : v = u
      · subst hv'
        exact hjoin ⟨by simpa [Shares] using hv, ht, by simpa using hl⟩
      · exact (h.group ht).2 v (by simpa [Shares, hv'] using hv) (by simpa [hv'] using hl)
    · exact h.outside ht (by rw [modify_targets, update_of_ne hne])
  exact ((hmodify.still (.modify u _)).trans (still_updateGlobalState hmodify)).emit rfl

end quelled

/-! ### Runs -/

section runs
variable {Client : Type}

/-- The input disarms `t`. -/
def Disarms (t : TargetId) (s : State Client) : Op Client → Prop
  | .disarm u => u = t
  | .sharedDisarm => Shares s.targets t
  | _ => False

/-- The input asks for an arm of `t`, of its group, or for an immediate capture, or changes the
mode of `t`. -/
def Requests (t : TargetId) (s : State Client) : Op Client → Prop
  | .arm u => u = t ∨ Shares s.targets t ∧ Shares s.targets u
  | .sharedArm => Shares s.targets t
  | .immediateCapture => True
  | .setMode u _ => u = t
  | _ => False

/-- The input puts a target with a postponed arm into the group of `t`. -/
def Joins (t : TargetId) (s : State Client) : Op Client → Prop
  | .setMode u mode =>
      mode = .shared ∧ Shares s.targets t ∧ (s.targets u).state = .locked
  | _ => False

theorem still_of_disarms {s : State Client} {op : Op Client} {t : TargetId}
    (h : Disarms t s op) : Still t s.enter (op.effect s.enter) := by
  cases op with
  | disarm u =>
      obtain rfl : u = t := h
      exact still_disarmTarget u _
  | sharedDisarm => exact still_disarmSharedTargets (c := s.enter) h
  | _ => exact h.elim

/-- A quelled target stays quelled, and is not armed, unless this is requested or a postponed
arm joins its group. -/
theorem still_effect {s : State Client} {op : Op Client} {t : TargetId}
    (h : Quelled s.toGlobals t) (hrequest : ¬ Requests t s op) (hjoin : ¬ Joins t s op) :
    Still t s.enter (op.effect s.enter) := by
  have h : Quelled s.enter.toGlobals t := h
  cases op with
  | arm u =>
      obtain ⟨hne, hgroup⟩ := not_or.mp hrequest
      exact still_armTarget h (Ne.symm hne) hgroup
  | disarm u => exact h.disarmTarget u
  | setMode u mode => exact h.triggerTargetSetMode u mode (Ne.symm hrequest) hjoin
  | sharedArm => exact still_armSharedTargets h hrequest
  | sharedDisarm => exact h.disarmSharedTargets
  | sharedSetMode mode => exact Quelled.still ⟨h.alone, h.group⟩ (.of_out rfl)
  | trigger u => exact h.triggerTargetTrigger u
  | complete u => exact h.triggerTargetComplete u
  | immediateCapture => exact absurd trivial hrequest
  | lock k u timeout =>
      rw [Op.effect, lockTriggerReady_context]
      split_ifs
      · exact (h.update (takeLock_targets u _) rfl rfl rfl id).still (.of_out rfl)
      · exact h.refl
  | wake k u timedOut lastTick poll =>
      rw [Op.effect, waitTriggerReady_context]
      split_ifs
      · exact h.decrementTriggerLockCount u
      · exact h.refl
  | unlock k u => exact h.decrementTriggerLockCount u

variable [DecidableEq Client]

theorem still_step {s s' : State Client} {a : Op Client × List Event} {t : TargetId}
    (h : Still t s.enter (a.1.effect s.enter)) (hstep : (runs Client).Step s a s') :
    Quelled s'.toGlobals t ∧ ∀ e ∈ a.2, e.arms t = false := by
  obtain ⟨hglobals, hout⟩ := step_effect hstep
  obtain ⟨es, hes, harms⟩ := h.out
  rw [hglobals, hout, hes]
  exact ⟨h.quelled, fun e he => harms e (by simpa [State.enter] using he)⟩

/-- A disarm is sticky: from a disarm of `t` on, nothing arms `t` in hardware until an arm of it,
of its group or an immediate capture is requested, its own mode is changed, or a target whose
own arm is postponed is put into its group. -/
theorem disarm_sticky {s₀ s₁ s₂ : State Client} {op : Op Client} {out : List Event}
    {t : TargetId} {l : List (State Client × Op Client × List Event)}
    (hdisarm : Disarms t s₀ op) (hstep : (runs Client).Step s₀ (op, out) s₁)
    (hp : Runs.Path (runs Client) s₁ l s₂)
    (hl : ∀ x ∈ l, ¬ Requests t x.1 x.2.1 ∧ ¬ Joins t x.1 x.2.1) :
    (∀ e ∈ out, e.arms t = false) ∧ ∀ x ∈ l, ∀ e ∈ x.2.2, e.arms t = false := by
  obtain ⟨hquelled, hout⟩ := still_step (still_of_disarms hdisarm) hstep
  refine ⟨hout, ?_⟩
  refine hp.until (J := fun s => Quelled s.toGlobals t)
    (R := fun s a => Requests t s a.1 ∨ Joins t s a.1)
    (G := fun _ a => ∀ e ∈ a.2, e.arms t = false)
    (fun s a s' hJ hrel hs => ?_) hquelled fun x hx => not_or.mpr (hl x hx)
  obtain ⟨hrequest, hjoin⟩ := not_or.mp hrel
  exact still_step (still_effect hJ hrequest hjoin) hs

/-- A reader makes the arm of `seq1` wait; the group of `seq0` is disarmed; `seq1` is put into
shared mode; and when the reader leaves, `seq0` is armed although nobody asked for it. -/
theorem disarm_not_sticky :
    ∃ (s₀ s₁ s₂ : State ℕ) (out : List Event) (l : List (State ℕ × Op ℕ × List Event)),
      Runs.Reachable (runs ℕ) s₀ ∧ Disarms .seq0 s₀ (.disarm .seq0) ∧
      (runs ℕ).Step s₀ (.disarm .seq0, out) s₁ ∧ Runs.Path (runs ℕ) s₁ l s₂ ∧
      (∀ x ∈ l, ¬ Requests .seq0 x.1 x.2.1) ∧ ∃ x ∈ l, ∃ e ∈ x.2.2, e.arms .seq0 = true := by
  let s₀ := (machine ℕ).after
    (.boot (fun t => if t = .seq0 then .shared else .oneShot) false)
    [.lock 1 .seq1 0, .arm .seq1]
  obtain ⟨out, hstep⟩ := (machine ℕ).exists_step (s := s₀) (i := .disarm .seq0) rfl
  refine ⟨s₀, _, _, out, _, (machine ℕ).reachable_after (machine_boot _ false) _, rfl, hstep,
    (machine ℕ).path_trace _ [.setMode .seq1 .shared, .unlock 1 .seq1], fun x hx => ?_, ?_⟩
  · have hop := (machine ℕ).mem_trace hx
    simp only [List.mem_cons, List.not_mem_nil, or_false] at hop
    rcases hop with hop | hop <;> rw [hop] <;> simp [Requests]
  · decide +kernel

/-- A memory in free run is disarmed while it is busy, and its late completion comes after. -/
theorem disarm_sticky_late :
    let s₀ := (machine ℕ).after (.boot (fun _ => .freeRun) false) [.arm .dram, .trigger .dram]
    ∀ x ∈ (machine ℕ).trace ((machine ℕ).after s₀ [.disarm .dram])
      [.complete .dram, .lock 1 .dram 0, .unlock 1 .dram], ∀ e ∈ x.2.2, e.arms .dram = false := by
  intro s₀
  obtain ⟨out, hstep⟩ := (machine ℕ).exists_step (s := s₀) (i := .disarm .dram) rfl
  have hdisarm : Disarms .dram s₀ (.disarm .dram) := rfl
  refine (disarm_sticky hdisarm hstep ((machine ℕ).path_trace _ _) fun x hx => ?_).2
  have hop := (machine ℕ).mem_trace hx
  simp only [List.mem_cons, List.not_mem_nil, or_false] at hop
  rcases hop with hop | hop | hop <;> rw [hop] <;> simp [Requests, Joins]

end runs

end Mbf.Trigger
