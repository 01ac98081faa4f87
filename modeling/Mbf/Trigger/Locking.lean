import Mbf.Trigger.Effects
import Mbf.Trigger.System

/-! # Read locks

A target that is ready and has lockers is guarded: no function of the module makes it unready,
and none arms or fires it in hardware (`Respects`).  The relation is transitive, so it is
proved for the functions one at a time and composed.

With the lock count equal to the number of lockers (`Locks`) this gives the safety of the read
locks: whoever holds one finds the target idle or with its arm postponed, until the lock is
released. -/

namespace Mbf.Trigger

open Context Function

/-! ### Guarded targets -/

/-- The target is ready to deliver data, and somebody holds it so. -/
def Guarded (targets : Targets) (t : TargetId) : Prop :=
  0 < (targets t).lockCount ∧ (targets t).Ready

/-- The call leaves the hardware of the guarded targets alone. -/
def Spares (targets : Targets) (e : Event) : Prop :=
  ∀ t, Guarded targets t → e.arms t = false ∧ e.fires t = false

/-- From `c` to `c'` no lock is taken or released, guarded targets stay ready and their
hardware is left alone. -/
structure Respects (c c' : Context) : Prop where
  lockCount : ∀ t, (c'.targets t).lockCount = (c.targets t).lockCount
  ready : ∀ t, Guarded c.targets t → (c'.targets t).Ready
  out : Emits (Spares c.targets) c c'

namespace Respects
variable {c c' c'' : Context}

theorem refl (c : Context) : Respects c c where
  lockCount _ := rfl
  ready _ h := h.2
  out := .refl c

theorem guarded (h : Respects c c') {t : TargetId} (ht : Guarded c.targets t) :
    Guarded c'.targets t :=
  ⟨by rw [h.lockCount]; exact ht.1, h.ready t ht⟩

theorem trans (h : Respects c c') (h' : Respects c' c'') : Respects c c'' where
  lockCount t := (h'.lockCount t).trans (h.lockCount t)
  ready t ht := h'.ready t (h.guarded ht)
  out := h.out.trans (h'.out.mono fun _ he t ht => he t (h.guarded ht))

/-- Contexts with the same targets, the second after some harmless calls. -/
theorem of_targets (ht : c'.targets = c.targets) (hout : Emits (Spares c.targets) c c') :
    Respects c c' where
  lockCount t := by rw [ht]
  ready t h := by rw [ht]; exact h.2
  out := hout

theorem emit {e : Event} (h : Spares c.targets e) : Respects c (emit e c) :=
  .of_targets rfl (.emit h)

theorem setTargetState {t : TargetId} {s : TargetState} (h : Guarded c.targets t →
    s = .idle ∨ s = .locked) : Respects c (setTargetState t s c) where
  lockCount u := by
    by_cases hu : u = t
    · subst hu; simp
    · simp [hu]
  ready u hg := by
    by_cases hu : u = t
    · subst hu; simpa [Target.Ready] using h hg
    · simpa [hu] using hg.2
  out := .setTargetState fun _ _ => ⟨rfl, rfl⟩

theorem modify {t : TargetId} {f : Target → Target} (hl : ∀ x, (f x).lockCount = x.lockCount)
    (hs : ∀ x, (f x).state = x.state) : Respects c (c.modify t f) where
  lockCount u := by
    by_cases hu : u = t
    · subst hu; simp [hl]
    · simp [hu]
  ready u hg := by
    by_cases hu : u = t
    · subst hu; simpa [Target.Ready, hs] using hg.2
    · simpa [hu] using hg.2
  out := .modify t f

end Respects

/-! ### The functions respect guarded targets -/

section functions
variable {f : TargetId → Context → Context} {g : TargetId → Target → Target}
  {o : TargetId → Target → List Event}

/-- What makes a function of one target respectful. -/
structure Gentle (g : TargetId → Target → Target) (o : TargetId → Target → List Event) :
    Prop where
  lockCount : ∀ t x, (g t x).lockCount = x.lockCount
  ready : ∀ t x, 0 < x.lockCount → x.Ready → (g t x).Ready
  out : ∀ t x, ∀ e ∈ o t x, ∀ u, e.arms u = false ∧ (e.fires u = true → u = t ∧ ¬ x.Ready)

theorem Gentle.spares (h : Gentle g o) {targets : Targets} {t : TargetId} {e : Event}
    (he : e ∈ o t (targets t)) : Spares targets e := by
  intro u hu
  obtain ⟨harms, hfires⟩ := h.out t _ e he u
  refine ⟨harms, ?_⟩
  cases hf : e.fires u with
  | false => rfl
  | true =>
      obtain ⟨rfl, hnot⟩ := hfires hf
      exact absurd hu.2 hnot

theorem Gentle.respects (h : Gentle g o) (hf : TargetLocal f g o) (t : TargetId) (c : Context) :
    Respects c (f t c) where
  lockCount u := by
    rw [show (f t c).targets = _ from hf.cell t c]
    by_cases hu : u = t
    · subst hu; simp [contextView, h.lockCount]
    · simp [contextView, hu]
  ready u hg := by
    rw [show (f t c).targets = _ from hf.cell t c]
    by_cases hu : u = t
    · subst hu; simpa [contextView] using h.ready u _ hg.1 hg.2
    · simpa [contextView, hu] using hg.2
  out := .of_local hf fun _ he => h.spares he

theorem Gentle.respects_loop (h : Gentle g o) (hf : TargetLocal f g o) (c : Context) :
    Respects c (forSharedTargets f c) where
  lockCount t := by
    rw [loop_targets hf]
    split_ifs
    · exact h.lockCount t _
    · rfl
  ready t hg := by
    rw [loop_targets hf]
    split_ifs
    · exact h.ready t _ hg.1 hg.2
    · exact hg.2
  out := .of_loop hf fun _ _ _ he => h.spares he

theorem arm_gentle : Gentle (fun _ => Target.arm) armOut where
  lockCount _ := Target.arm_lockCount
  ready t x hl hr := by
    simp only [Target.arm, if_pos hr, if_neg hl.ne']
    exact .inr rfl
  out t x e he u := by
    simp only [armOut] at he
    split_ifs at he
    · rcases List.mem_pair.mp he with rfl | rfl
      · cases t <;> exact ⟨rfl, by simp [Event.fires, prepareEvent]⟩
      · exact ⟨rfl, by simp [Event.fires]⟩
    · cases he
    · rw [List.mem_singleton.mp he]
      exact ⟨rfl, by simp [Event.fires]⟩
    · cases he

theorem disarm_gentle : Gentle Target.disarm disarmOut where
  lockCount t x := Target.disarm_lockCount t x
  ready t x _ hr := by
    rcases hr with hr | hr
    · exact .inl (by simp [Target.disarm, hr])
    · exact .inl (by simp [Target.disarm, hr])
  out t x e he u := by
    simp only [disarmOut] at he
    split_ifs at he with ha hs
    · cases t <;> simp_all [stopEvents, stopState, Event.arms, Event.fires]
    · cases t <;> simp_all [stopEvents, stopState, Event.arms, Event.fires, singleMask,
        Target.Ready]
    · rw [List.mem_singleton.mp he]
      exact ⟨rfl, by simp [Event.fires]⟩
    · cases he

theorem postpone_gentle : Gentle (fun _ => Target.postpone) postponeOut where
  lockCount _ := Target.postpone_lockCount
  ready t x hl _ := by
    simp only [Target.postpone, if_pos hl]
    exact .inr rfl
  out t x e he u := by
    simp only [postponeOut] at he
    split_ifs at he
    · rw [List.mem_singleton.mp he]
      exact ⟨rfl, by simp [Event.fires]⟩
    · cases he

end functions

/-! ### The module respects guarded targets -/

theorem respects_setGlobalState (state : SharedState) (c : Context) :
    Respects c (setGlobalState state c) :=
  .of_targets (setGlobalState_targets ..) (.setGlobalState fun _ _ => ⟨rfl, rfl⟩)

theorem respects_armSharedTargets (c : Context) : Respects c (armSharedTargets c) := by
  cases armSharedTargets_cases c with
  | refused _ targets _ out =>
      obtain ⟨m, out⟩ := out
      exact .of_targets targets ⟨_, out, by simp [Spares, Event.arms, Event.fires]⟩
  | nothing _ targets _ out =>
      exact .of_targets targets (.of_out out)
  | postponed _ _ targets _ out =>
      refine ⟨fun t => ?_, fun t hg => ?_, _, (out.trans (List.append_assoc ..)), fun e he => ?_⟩
      · rw [targets]
        split_ifs <;> simp
      · rw [targets]
        split_ifs
        · exact postpone_gentle.ready t _ hg.1 hg.2
        · exact hg.2
      · rcases List.mem_append.mp he with he | he
        · obtain ⟨t, _, he⟩ := mem_loopOut.mp he
          exact postpone_gentle.spares he
        · split_ifs at he
          · cases he
          · rw [List.mem_singleton.mp he]
            exact fun _ _ => ⟨rfl, rfl⟩
  | armed _ unlocked _ targets _ out =>
      refine ⟨fun t => ?_, fun t hg => ?_, _, (out.trans (List.append_assoc ..)), fun e he => ?_⟩
      · rw [targets]
        split_ifs <;> simp
      · rw [targets]
        split_ifs
        · exact arm_gentle.ready t _ hg.1 hg.2
        · exact hg.2
      · rcases List.mem_append.mp he with he | he
        · obtain ⟨t, _, he⟩ := mem_loopOut.mp he
          exact arm_gentle.spares he
        · rcases List.mem_pair.mp he with rfl | rfl
          · -- A guarded target has lockers, and the group has none.
            intro t hg
            refine ⟨decide_eq_false fun ht => ?_, rfl⟩
            exact hg.1.ne' (unlocked t ht)
          · exact fun _ _ => ⟨rfl, rfl⟩

theorem respects_updateGlobalState (c : Context) : Respects c (updateGlobalState c) := by
  by_cases h : Rearms c.toGlobals
  · rw [updateGlobalState_of_rearms h]
    exact (respects_setGlobalState _ c).trans (respects_armSharedTargets _)
  · rw [updateGlobalState_of_not_rearms h]
    exact respects_setGlobalState _ c

theorem respects_disarmSharedTargets (c : Context) : Respects c (disarmSharedTargets c) := by
  have h₁ : Respects c (doDisarmSharedHardware { c with shared :=
      { c.shared with dontRearm := true } }) :=
    .of_targets rfl (.emit (c := { c with shared := { c.shared with dontRearm := true } })
      fun _ _ => ⟨rfl, rfl⟩)
  exact (h₁.trans (disarm_gentle.respects_loop doDisarmTarget_local _)).trans
    (respects_updateGlobalState _)

theorem respects_armTarget (t : TargetId) (c : Context) : Respects c (armTarget t c) := by
  unfold armTarget
  have harm := arm_gentle.respects doArmTarget_local t c
  split_ifs with _ harmed
  · exact respects_armSharedTargets c
  · refine harm.trans (.emit fun u hu => ⟨decide_eq_false ?_, rfl⟩)
    rintro rfl
    -- The target was armed, so it had no lockers.
    rw [doArmTarget_fst, decide_eq_true_eq] at harmed
    have := harm.lockCount u
    have := hu.1
    omega
  · exact harm

theorem respects_disarmTarget (t : TargetId) (c : Context) : Respects c (disarmTarget t c) := by
  unfold disarmTarget
  split_ifs
  · exact respects_disarmSharedTargets c
  · exact (Respects.emit fun _ _ => ⟨rfl, rfl⟩).trans
      (disarm_gentle.respects doDisarmTarget_local t _)

theorem respects_triggerTargetTrigger (t : TargetId) (c : Context) :
    Respects c (triggerTargetTrigger t c) := by
  unfold triggerTargetTrigger
  split_ifs with harmed
  · have h : Respects c (setTargetState t .busy c) := .setTargetState fun hg => by
      rcases hg.2 with h | h <;> rw [h] at harmed <;> cases harmed
    dsimp only
    split_ifs
    · exact h.trans (respects_updateGlobalState _)
    · exact h
  · exact .emit fun _ _ => ⟨rfl, rfl⟩

theorem respects_triggerTargetComplete (t : TargetId) (c : Context) :
    Respects c (triggerTargetComplete t c) := by
  unfold triggerTargetComplete
  split_ifs
  · have h : Respects c (setTargetState t .idle c) := .setTargetState fun _ => .inl rfl
    dsimp only
    refine Respects.trans ?_ (.emit fun _ _ => ⟨rfl, rfl⟩)
    split_ifs
    · exact h.trans (respects_updateGlobalState _)
    · exact h.trans (respects_armTarget t _)
    · exact (h.trans (respects_armTarget t _)).trans (.emit fun _ _ => ⟨rfl, rfl⟩)
    · exact h
  · exact .emit fun _ _ => ⟨rfl, rfl⟩

theorem respects_triggerTargetSetMode (t : TargetId) (mode : TargetMode) (c : Context) :
    Respects c (triggerTargetSetMode t mode c) := by
  have h : Respects c (c.modify t fun x => { x with mode := mode }) :=
    .modify (fun _ => rfl) fun _ => rfl
  exact (h.trans (respects_updateGlobalState _)).trans (.emit fun _ _ => ⟨rfl, rfl⟩)

theorem respects_immediateMemoryCapture (c : Context) :
    Respects c (immediateMemoryCapture c).2 := by
  unfold immediateMemoryCapture
  split_ifs with h
  · have hnot : ¬ Guarded c.targets .dram := fun hg => by have := hg.1; omega
    have h₁ : Respects c (emit (.writeTriggerFire (singleMask .dram))
        (emit (.writeDramCaptureCommand true false) c)) := by
      refine (Respects.emit fun _ _ => ⟨rfl, rfl⟩).trans (.emit fun u hu => ⟨rfl, ?_⟩)
      refine decide_eq_false ?_
      rintro rfl
      exact hnot hu
    have h₂ := h₁.trans (.setTargetState (t := .dram) (s := .armed) fun hg => absurd hg hnot)
    have h₃ := h₂.trans (.modify (t := .dram) (f := fun x => { x with dontRearm := true })
      (fun _ => rfl) fun _ => rfl)
    dsimp only
    split_ifs
    · exact h₃.trans (respects_updateGlobalState _)
    · exact h₃
  · exact .emit fun _ _ => ⟨rfl, rfl⟩

theorem respects_decrementTriggerLockCount (t : TargetId) (c : Context) :
    Respects (dropLock t c) (decrementTriggerLockCount t c) := by
  rw [decrementTriggerLockCount_eq]
  split_ifs
  · exact respects_updateGlobalState _
  · exact respects_armTarget t _
  · exact .refl _
  · exact .refl _

/-! ### Lockers -/

section lockers
variable {Client : Type} [DecidableEq Client]

/-- The lock count is the number of lockers, and whoever was granted a lock finds its target
ready. -/
structure Locks (targets : Targets) (granted waiting : TargetId → List Client) : Prop where
  count : ∀ t, (targets t).lockCount = (granted t).length + (waiting t).length
  ready : ∀ t, granted t ≠ [] → (targets t).Ready

variable {c c' : Context} {granted waiting : TargetId → List Client}

omit [DecidableEq Client] in
theorem Locks.guarded (h : Locks c.targets granted waiting) {t : TargetId}
    (ht : granted t ≠ []) : Guarded c.targets t := by
  refine ⟨?_, h.ready t ht⟩
  have := h.count t
  have := List.length_pos_of_ne_nil ht
  omega

omit [DecidableEq Client] in
theorem Locks.respects (h : Locks c.targets granted waiting) (hr : Respects c c') :
    Locks c'.targets granted waiting where
  count t := (hr.lockCount t).trans (h.count t)
  ready t ht := hr.ready t (h.guarded ht)

omit [DecidableEq Client] in
/-- A change of the record and of the lockers of one target. -/
theorem Locks.modify (h : Locks c.targets granted waiting) {t : TargetId} {f : Target → Target}
    {g w : List Client} (hcount : (f (c.targets t)).lockCount = g.length + w.length)
    (hready : g ≠ [] → (f (c.targets t)).Ready) :
    Locks (c.modify t f).targets (update granted t g) (update waiting t w) where
  count u := by
    by_cases hu : u = t
    · subst hu; simpa using hcount
    · simpa [hu] using h.count u
  ready u := by
    by_cases hu : u = t
    · subst hu; simpa using hready
    · simpa [hu] using h.ready u

/-- Every input first settles the lockers and then respects the guarded targets. -/
theorem step_locks {s s' : State Client} {op : Op Client} {out : List Event}
    (hs : Locks s.targets s.granted s.waiting) (h : step s op = some (s', out)) :
    ∃ c, c.out = [] ∧ Locks c.targets s'.granted s'.waiting ∧
      Respects c (op.effect s.enter) := by
  have hcall : ∀ {c' : Context}, some (s.leave c') = some (s', out) → Respects s.enter c' →
      ∃ c, c.out = [] ∧ Locks c.targets s'.granted s'.waiting ∧ Respects c c' := by
    intro c' hc hr
    simp only [State.leave, Option.some.injEq, Prod.mk.injEq] at hc
    obtain ⟨rfl, rfl⟩ := hc
    exact ⟨s.enter, rfl, hs, hr⟩
  cases op with
  | arm t => exact hcall h (respects_armTarget t _)
  | disarm t => exact hcall h (respects_disarmTarget t _)
  | setMode t mode => exact hcall h (respects_triggerTargetSetMode t mode _)
  | sharedArm => exact hcall h (respects_armSharedTargets _)
  | sharedDisarm => exact hcall h (respects_disarmSharedTargets _)
  | sharedSetMode mode =>
      exact hcall h (.of_targets rfl (.of_out rfl))
  | trigger t => exact hcall h (respects_triggerTargetTrigger t _)
  | complete t => exact hcall h (respects_triggerTargetComplete t _)
  | immediateCapture => exact hcall h (respects_immediateMemoryCapture _)
  | lock k t timeout =>
      simp only [step, State.leave, Option.some.injEq, Prod.mk.injEq] at h
      obtain ⟨rfl, rfl⟩ := h
      have hcount := hs.count t
      simp only [Op.effect, lockTriggerReady, Target.checkTriggerReady_iff]
      split_ifs with hready
      · refine ⟨_, rfl, ?_, .refl _⟩
        have := hs.modify (c := s.enter) (f := fun x => { x with lockCount := x.lockCount + 1 })
          (g := k :: s.granted t) (w := s.waiting t) (by simp [State.enter]; omega)
          fun _ => hready
        simpa [State.settle] using this
      · exact ⟨s.enter, rfl, hs, .refl _⟩
      · refine ⟨_, rfl, ?_, .refl _⟩
        have := hs.modify (c := s.enter) (f := fun x => { x with lockCount := x.lockCount + 1 })
          (g := s.granted t) (w := k :: s.waiting t) (by simp [State.enter]; omega)
          fun hg => hs.ready t hg
        simpa [State.settle] using this
  | wake k t timedOut lastTick poll =>
      simp only [step] at h
      split_ifs at h with hk
      simp only [State.leave, Option.some.injEq, Prod.mk.injEq] at h
      obtain ⟨rfl, rfl⟩ := h
      have hcount := hs.count t
      have hlen := List.length_erase_of_mem hk
      have hpos := List.length_pos_of_mem hk
      have hwaits := hs.modify (c := s.enter) (f := id) (g := s.granted t)
        (w := k :: (s.waiting t).erase k) (by simp [State.enter]; omega) fun hg => hs.ready t hg
      have hleaves := hs.modify (c := s.enter)
        (f := fun x => { x with lockCount := x.lockCount - 1 })
        (g := s.granted t) (w := (s.waiting t).erase k) (by simp [State.enter]; omega)
        fun hg => hs.ready t hg
      simp only [Op.effect, waitTriggerReady, Target.checkTriggerReady_iff]
      split_ifs with hready
      · refine ⟨s.enter, rfl, ?_, .refl _⟩
        have := hs.modify (c := s.enter) (f := id) (g := k :: s.granted t)
          (w := (s.waiting t).erase k) (by simp [State.enter]; omega) fun _ => hready
        simpa [State.settle, State.stopWaiting, State.enter] using this
      · refine ⟨s.enter, rfl, ?_, .refl _⟩
        simpa [State.settle, State.stopWaiting, State.enter] using hwaits
      · refine ⟨_, rfl, ?_, respects_decrementTriggerLockCount t _⟩
        simpa [State.settle, State.stopWaiting] using hleaves
      · cases poll with
        | some error =>
            refine ⟨_, rfl, ?_, respects_decrementTriggerLockCount t _⟩
            simpa [State.settle, State.stopWaiting] using hleaves
        | none =>
            refine ⟨s.enter, rfl, ?_, .refl _⟩
            simpa [State.settle, State.stopWaiting, State.enter] using hwaits
  | unlock k t =>
      simp only [step] at h
      split_ifs at h with hk
      simp only [State.leave, Option.some.injEq, Prod.mk.injEq] at h
      obtain ⟨rfl, rfl⟩ := h
      have hcount := hs.count t
      have hlen := List.length_erase_of_mem hk
      have hpos := List.length_pos_of_mem hk
      refine ⟨_, rfl, ?_, respects_decrementTriggerLockCount t _⟩
      have := hs.modify (c := s.enter) (f := fun x => { x with lockCount := x.lockCount - 1 })
        (g := (s.granted t).erase k) (w := s.waiting t) (by simp [State.enter]; omega)
        fun _ => hs.ready t (List.ne_nil_of_mem hk)
      simpa [State.release] using this

theorem locks_step {s s' : State Client} {a : Op Client × List Event}
    (hs : Locks s.targets s.granted s.waiting) (h : (runs Client).Step s a s') :
    Locks s'.targets s'.granted s'.waiting := by
  obtain ⟨c, _, hc, hr⟩ := step_locks hs h
  rw [show s'.targets = _ from congrArg Globals.targets (step_effect h).1]
  exact hc.respects hr

theorem locks_reachable {s : State Client} (h : Runs.Reachable (runs Client) s) :
    Locks s.targets s.granted s.waiting := by
  refine h.invariant (fun s hs => ?_) fun s a s' hs hstep => locks_step hs hstep
  obtain ⟨hinit, hgranted, hwaiting⟩ := hs
  exact ⟨fun t => by simp [hinit.unlocked, hgranted, hwaiting],
    fun t ht => absurd (hgranted t) ht⟩

/-- A lock is kept until its holder releases it. -/
theorem granted_step {s s' : State Client} {op : Op Client} {out : List Event}
    (h : step s op = some (s', out)) {k : Client} {t : TargetId} (hk : k ∈ s.granted t)
    (hop : op ≠ .unlock k t) : k ∈ s'.granted t := by
  have hgrant : ∀ {g : TargetId → List Client} {k' : Client} {t' : TargetId},
      k ∈ g t → k ∈ update g t' (k' :: g t') t := by
    intro g k' t' hg
    by_cases ht : t = t'
    · subst ht; simp [hg]
    · simpa [ht] using hg
  cases op with
  | lock k' t' timeout =>
      simp only [step, State.leave, Option.some.injEq, Prod.mk.injEq] at h
      obtain ⟨rfl, rfl⟩ := h
      cases (lockTriggerReady t' timeout s.enter).1 with
      | granted => exact hgrant hk
      | blocked => exact hk
      | failed _ => exact hk
  | wake k' t' timedOut lastTick poll =>
      simp only [step] at h
      split_ifs at h
      simp only [State.leave, Option.some.injEq, Prod.mk.injEq] at h
      obtain ⟨rfl, rfl⟩ := h
      cases (waitTriggerReady t' timedOut lastTick poll s.enter).1 with
      | granted => exact hgrant hk
      | blocked => exact hk
      | failed _ => exact hk
  | unlock k' t' =>
      simp only [step] at h
      split_ifs at h
      simp only [State.leave, Option.some.injEq, Prod.mk.injEq] at h
      obtain ⟨rfl, rfl⟩ := h
      simp only [State.release]
      by_cases ht : t = t'
      · subst ht
        have hne : k ≠ k' := by rintro rfl; exact hop rfl
        simpa using (List.mem_erase_of_ne hne).mpr hk
      · simpa [ht] using hk
  | _ =>
      simp only [step, State.leave, Option.some.injEq, Prod.mk.injEq] at h
      obtain ⟨rfl, rfl⟩ := h
      exact hk

/-- The safety of the read locks.  In every reachable state a target on which a lock is held is
idle or has its arm postponed, and the lock count of a target is the number of its lockers,
granted and waiting.  No input during which a client holds a lock on a target, from before it or
from its grant on, arms or fires that target in hardware. -/
theorem read_lock_safety {s : State Client} (h : Runs.Reachable (runs Client) s) :
    (∀ t, s.granted t ≠ [] → (s.targets t).state = .idle ∨ (s.targets t).state = .locked) ∧
    (∀ t, (s.targets t).lockCount = (s.granted t).length + (s.waiting t).length) ∧
    ∀ op out s', (runs Client).Step s (op, out) s' →
      ∀ k t, k ∈ s.granted t ∧ op ≠ .unlock k t ∨ k ∈ s'.granted t →
        ∀ e ∈ out, e.arms t = false ∧ e.fires t = false := by
  have hs := locks_reachable h
  refine ⟨hs.ready, hs.count, fun op out s' (hstep : step s op = some (s', out)) k t hk e he => ?_⟩
  have hk' : k ∈ s'.granted t := by
    rcases hk with ⟨hk, hop⟩ | hk
    · exact granted_step hstep hk hop
    · exact hk
  obtain ⟨c, hout, hc, hr⟩ := step_locks hs hstep
  obtain ⟨es, hes, hspares⟩ := hr.out
  rw [(step_effect hstep).2, hes, hout, List.nil_append] at he
  exact hspares e he t (hc.guarded (List.ne_nil_of_mem hk'))

/-- A reader holds `seq0` and another waits for `dram`, while `dram` is armed and the arm of
`seq0` is postponed. -/
theorem read_lock_safety_readers :
    let s := (machine ℕ).after (.boot (fun _ => .oneShot) false)
      [.lock 1 .seq0 0, .arm .seq0, .arm .dram, .lock 2 .dram 100]
    s.granted .seq0 = [1] ∧ (s.targets .seq0).state = .locked ∧
      (s.targets .dram).lockCount = 1 ∧
      ((s.targets .seq0).state = .idle ∨ (s.targets .seq0).state = .locked) :=
  ⟨rfl, rfl, rfl, (read_lock_safety
    ((machine ℕ).reachable_after (machine_boot (fun _ => .oneShot) false) _)).1 .seq0
      (List.cons_ne_nil 1 [])⟩

end lockers

end Mbf.Trigger
