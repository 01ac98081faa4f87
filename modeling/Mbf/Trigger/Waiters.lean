import Mbf.Trigger.Locking
import Mbf.Trigger.Strobes

/-! # Waking the waiters

A client in `lock_trigger_ready` waits on the condition `trigger_event`, which only
`trigger_target_complete` signals.  A target becomes ready on its completion, and also where
`do_disarm_target` stops it while it is armed, which signals nothing: a client that waits for that
target then sleeps on until its next poll or its timeout.

`Watched` records beside the state which targets a broadcast was issued for since they last
became ready.  Every waiter of a ready target has been signalled, all along a run, exactly if no
disarm of the run cancels an armed target that a client waits for (`no_missed_wakeup_iff`). -/

namespace Mbf.Trigger

open Function Runs

section functions
variable {c : Context} {t : TargetId}

/-- Keeping a target up does not make it ready. -/
theorem Upkeep.was_ready {s s' : TargetState} {w : List Strobe} (h : Upkeep t s w s')
    (hs' : s'.Ready) : s.Ready := by
  cases h with
  | stay => exact hs'
  | ready hs => exact hs
  | arm hs => exact hs

theorem KeepsUp.was_ready {c' : Context} (h : KeepsUp t c c') (hr : (c'.targets t).Ready) :
    (c.targets t).Ready := by
  obtain ⟨es, -, hup⟩ := h
  exact hup.was_ready hr

/-! ### Broadcasts -/

/-- The call is not a broadcast. -/
def Event.Quiet (e : Event) : Prop := e ≠ .broadcast

theorem disarmOut_quiet (t : TargetId) (x : Target) : ∀ e ∈ disarmOut t x, e.Quiet := by
  intro e he
  unfold disarmOut at he
  split_ifs at he with harmed hstop hlocked
  · rcases List.mem_append.mp he with he | he
    · cases t <;> simp [stopEvents] at he
      subst he
      exact fun h => by cases h
    · obtain rfl := List.mem_singleton.mp he
      exact fun h => by cases h
  · rw [List.append_nil] at he
    cases t <;> simp [stopEvents] at he
    subst he
    exact fun h => by cases h
  · obtain rfl := List.mem_singleton.mp he
    exact fun h => by cases h
  · cases he

/-- A disarm of the group of `t` signals nothing. -/
theorem disarmSharedTargets_quiet (ht : Shares c.targets t) :
    Emits Event.Quiet c (disarmSharedTargets c) := by
  have hnot := (quelled_disarmLoop ht).not_rearms
    (by rw [disarmLoop_targets, disarmGroup_shares]; exact ht)
  rw [disarmSharedTargets_eq, updateGlobalState_of_not_rearms hnot]
  refine Emits.trans ⟨_, disarmLoop_out c, fun e he => ?_⟩ (.setGlobalState nofun)
  rcases List.mem_cons.mp he with rfl | he
  · nofun
  · obtain ⟨u, -, hu⟩ := mem_loopOut.mp he
    exact disarmOut_quiet u _ e hu

theorem disarmTarget_quiet (t : TargetId) (c : Context) :
    Emits Event.Quiet c (disarmTarget t c) := by
  by_cases ht : Shares c.targets t
  · rw [disarmTarget_of_shares ht]
    exact disarmSharedTargets_quiet ht
  · rw [disarmTarget_of_not_shares ht]
    exact Emits.trans (.emit (c := c) (e := .writeTriggerDisarm (getTargetMask t)) nofun)
      (.of_local doDisarmTarget_local (disarmOut_quiet t _))

/-! ### What makes a target ready -/

/-- A disarm makes an armed target ready, except the memory, which is left to complete. -/
theorem Target.disarm_ready_iff {x : Target} :
    (x.disarm t).Ready ↔ x.Ready ∨ x.state = .armed ∧ t ≠ .dram := by
  unfold Target.disarm Target.Ready
  cases hs : x.state with
  | idle => simp
  | locked => simp
  | busy => simp
  | armed => cases t <;> simp [stopState]

/-- The call cancels the arm of `t`. -/
def Cancelled (targets : Targets) (t u : TargetId) : Prop :=
  (u = t ∨ Shares targets u ∧ Shares targets t) ∧ (targets t).state = .armed ∧ t ≠ .dram

theorem disarmSharedTargets_ready (ht : Shares c.targets t) :
    ((disarmSharedTargets c).targets t).Ready ↔
      (c.targets t).Ready ∨ (c.targets t).state = .armed ∧ t ≠ .dram := by
  have hnot := (quelled_disarmLoop ht).not_rearms
    (by rw [disarmLoop_targets, disarmGroup_shares]; exact ht)
  rw [disarmSharedTargets_eq, updateGlobalState_of_not_rearms hnot, refresh_targets,
    disarmLoop_targets, disarmGroup, if_pos ht]
  exact Target.disarm_ready_iff

theorem disarmTarget_ready {u : TargetId} (hr : ((disarmTarget u c).targets t).Ready) :
    (c.targets t).Ready ∨ Cancelled c.targets t u := by
  by_cases hu : Shares c.targets u
  · rw [disarmTarget_of_shares hu] at hr
    by_cases ht : Shares c.targets t
    · rcases (disarmSharedTargets_ready ht).mp hr with hr | harmed
      · exact .inl hr
      · exact .inr ⟨.inr ⟨hu, ht⟩, harmed⟩
    · exact .inl ((keepsUp_disarmSharedTargets ht).was_ready hr)
  · rw [disarmTarget_targets hu] at hr
    by_cases htu : t = u
    · subst htu
      rw [update_self] at hr
      rcases Target.disarm_ready_iff.mp hr with hr | harmed
      · exact .inl hr
      · exact .inr ⟨.inl rfl, harmed⟩
    · rw [update_of_ne htu] at hr
      exact .inl hr

theorem disarmTarget_cancelled {u : TargetId} (h : Cancelled c.targets t u) :
    ((disarmTarget u c).targets t).Ready := by
  obtain ⟨hut, harmed⟩ := h
  by_cases hu : Shares c.targets u
  · have ht : Shares c.targets t := by
      rcases hut with rfl | hut
      · exact hu
      · exact hut.2
    rw [disarmTarget_of_shares hu]
    exact (disarmSharedTargets_ready ht).mpr (.inr harmed)
  · obtain rfl : u = t := hut.resolve_right fun hs => hu hs.1
    rw [disarmTarget_targets hu, update_self]
    exact Target.disarm_ready_iff.mpr (.inr harmed)

/-- A completion signals the waiters. -/
theorem triggerTargetComplete_broadcast (h : (c.targets t).state = .busy) :
    .broadcast ∈ (triggerTargetComplete t c).out := by
  unfold triggerTargetComplete
  rw [if_pos h]
  exact List.mem_append_right _ (List.mem_singleton_self _)

theorem triggerTargetTrigger_ready {u : TargetId}
    (hr : ((triggerTargetTrigger u c).targets t).Ready) : (c.targets t).Ready := by
  by_cases htu : t = u
  · subst htu
    by_cases harmed : (c.targets t).state = .armed
    · obtain ⟨es, -, -, hbusy⟩ := makes_triggerTargetTrigger harmed
      rw [Target.Ready, hbusy] at hr
      rcases hr with hr | hr <;> cases hr
    · unfold triggerTargetTrigger at hr
      rw [if_neg harmed] at hr
      exact hr
  · exact (keepsUp_triggerTargetTrigger htu c).was_ready hr

theorem immediateMemoryCapture_ready
    (hr : ((immediateMemoryCapture c).2.targets t).Ready) : (c.targets t).Ready := by
  by_cases hready : (c.targets .dram).lockCount = 0 ∧ (c.targets .dram).state = .idle
  · have hstart : ((startCapture c).targets t).Ready := by
      rw [immediateMemoryCapture_of_ready hready.1 hready.2] at hr
      split_ifs at hr
      · exact (keepsUp_updateGlobalState t _).was_ready hr
      · exact hr
    by_cases ht : t = .dram
    · subst ht
      exact .inl hready.2
    · rw [startCapture_targets, update_of_ne ht] at hstart
      exact hstart
  · rw [immediateMemoryCapture_of_not_ready hready] at hr
    exact hr

theorem triggerTargetComplete_ready {u : TargetId}
    (hr : ((triggerTargetComplete u c).targets t).Ready) :
    (c.targets t).Ready ∨ .broadcast ∈ (triggerTargetComplete u c).out := by
  by_cases hbusy : (c.targets u).state = .busy
  · exact .inr (triggerTargetComplete_broadcast hbusy)
  · unfold triggerTargetComplete at hr
    rw [if_neg hbusy] at hr
    exact .inl hr

end functions

/-! ### The waiters -/

section waiters
variable {Client : Type}

/-- The input cancels the arm of `t`. -/
def Cancels (t : TargetId) (s : State Client) : Op Client → Prop
  | .disarm u => Cancelled s.targets t u
  | .sharedDisarm => Shares s.targets t ∧ (s.targets t).state = .armed ∧ t ≠ .dram
  | _ => False

/-- A target becomes ready by a completion, which signals the waiters, or where its arm is
cancelled. -/
theorem effect_ready {s : State Client} (hs : UpToDate s.toGlobals) {op : Op Client} {t : TargetId}
    (hr : ((op.effect s.enter).targets t).Ready) :
    (s.targets t).Ready ∨ .broadcast ∈ (op.effect s.enter).out ∨ Cancels t s op := by
  have hs : UpToDate s.enter.toGlobals := hs
  cases op with
  | disarm u => exact (disarmTarget_ready hr).imp id .inr
  | sharedDisarm =>
      rw [Op.effect] at hr ⊢
      by_cases ht : Shares s.targets t
      · rcases (disarmSharedTargets_ready (c := s.enter) ht).mp hr with hr | hcancel
        · exact .inl hr
        · exact .inr (.inr ⟨ht, hcancel⟩)
      · exact .inl ((keepsUp_disarmSharedTargets (c := s.enter) ht).was_ready hr)
  | trigger u => exact .inl (triggerTargetTrigger_ready hr)
  | complete u => exact (triggerTargetComplete_ready hr).imp id .inl
  | immediateCapture => exact .inl (immediateMemoryCapture_ready hr)
  | arm u => exact .inl ((keepsUp_armTarget hs t u).was_ready hr)
  | setMode u mode => exact .inl ((keepsUp_triggerTargetSetMode t u mode _).was_ready hr)
  | sharedArm => exact .inl ((keepsUp_armSharedTargets hs t).was_ready hr)
  | sharedSetMode mode => exact .inl hr
  | lock k u timeout =>
      rcases @call_change Client _ hs (.lock k u timeout) rfl t with hkeep | ⟨hcommand, -⟩
      · exact .inl (hkeep.was_ready hr)
      · cases hcommand
  | wake k u timedOut lastTick poll =>
      rcases @call_change Client _ hs (.wake k u timedOut lastTick poll) rfl t with
        hkeep | ⟨hcommand, -⟩
      · exact .inl (hkeep.was_ready hr)
      · cases hcommand
  | unlock k u => exact .inl ((keepsUp_decrementTriggerLockCount hs t u).was_ready hr)

/-- A cancelled arm leaves its target ready, and signals nothing. -/
theorem effect_cancels {s : State Client} {op : Op Client} {t : TargetId} (h : Cancels t s op) :
    ((op.effect s.enter).targets t).Ready ∧ .broadcast ∉ (op.effect s.enter).out := by
  have hsilent : ∀ {c' : Context}, Emits Event.Quiet s.enter c' → .broadcast ∉ c'.out := by
    rintro c' ⟨es, hes, hquiet⟩ hmem
    rw [hes] at hmem
    exact hquiet _ hmem rfl
  cases op with
  | disarm u => exact ⟨disarmTarget_cancelled h, hsilent (disarmTarget_quiet u _)⟩
  | sharedDisarm =>
      rw [Op.effect]
      exact ⟨(disarmSharedTargets_ready (c := s.enter) h.1).mpr (.inr h.2),
        hsilent (disarmSharedTargets_quiet (c := s.enter) h.1)⟩
  | _ => exact h.elim

variable [DecidableEq Client] {s s' : State Client} {op : Op Client} {out : List Event}

/-- A client that goes on waiting, or begins to, does so for a target that is not ready, or had
been waiting before. -/
theorem waiting_new (h : step s op = some (s', out)) {k : Client} {t : TargetId}
    (hk : k ∈ s'.waiting t) : k ∈ s.waiting t ∨ ¬ (s'.targets t).Ready := by
  cases op with
  | lock k' u timeout =>
      simp only [step, State.leave, Option.some.injEq, Prod.mk.injEq] at h
      obtain ⟨rfl, rfl⟩ := h
      unfold lockTriggerReady at hk ⊢
      simp only [Target.checkTriggerReady_iff] at hk ⊢
      split_ifs at hk ⊢ with hready hzero
      · exact .inl hk
      · exact .inl hk
      · by_cases htu : t = u
        · subst htu
          refine .inr fun hr => hready ?_
          simpa [Context.modify, Target.Ready] using hr
        · simp only [State.settle, update_of_ne htu] at hk
          exact .inl hk
  | wake k' u timedOut lastTick poll =>
      simp only [step] at h
      split_ifs at h with hmem
      simp only [State.leave, Option.some.injEq, Prod.mk.injEq] at h
      obtain ⟨rfl, rfl⟩ := h
      refine .inl ?_
      have hleft : k ∈ (s.stopWaiting k' u).waiting t → k ∈ s.waiting t := by
        intro hk
        simp only [State.stopWaiting] at hk
        by_cases htu : t = u
        · subst htu
          rw [update_self] at hk
          exact List.mem_of_mem_erase hk
        · rwa [update_of_ne htu] at hk
      cases hpass : (waitTriggerReady u timedOut lastTick poll s.enter).1 with
      | granted =>
          rw [hpass] at hk
          exact hleft hk
      | failed error =>
          rw [hpass] at hk
          exact hleft hk
      | blocked =>
          rw [hpass] at hk
          simp only [State.settle] at hk
          by_cases htu : t = u
          · subst htu
            rw [update_self] at hk
            rcases List.mem_cons.mp hk with rfl | hk
            · exact hmem
            · exact hleft hk
          · rw [update_of_ne htu] at hk
            exact hleft hk
  | unlock k' u =>
      simp only [step] at h
      split_ifs at h
      simp only [State.leave, Option.some.injEq, Prod.mk.injEq] at h
      obtain ⟨rfl, rfl⟩ := h
      exact .inl hk
  | _ =>
      simp only [step, State.leave, Option.some.injEq, Prod.mk.injEq] at h
      obtain ⟨rfl, rfl⟩ := h
      exact .inl hk

/-- A waiting client waits until it is woken. -/
theorem waiting_kept (h : step s op = some (s', out)) {k : Client} {t : TargetId}
    (hk : k ∈ s.waiting t) (hop : ∀ b b' poll, op ≠ .wake k t b b' poll) : k ∈ s'.waiting t := by
  cases op with
  | lock k' u timeout =>
      simp only [step, State.leave, Option.some.injEq, Prod.mk.injEq] at h
      obtain ⟨rfl, rfl⟩ := h
      cases (lockTriggerReady u timeout s.enter).1 with
      | granted => exact hk
      | failed _ => exact hk
      | blocked =>
          simp only [State.settle]
          by_cases htu : t = u
          · subst htu
            rw [update_self]
            exact List.mem_cons_of_mem _ hk
          · rwa [update_of_ne htu]
  | wake k' u timedOut lastTick poll =>
      simp only [step] at h
      split_ifs at h with hmem
      simp only [State.leave, Option.some.injEq, Prod.mk.injEq] at h
      obtain ⟨rfl, rfl⟩ := h
      have hstays : k ∈ (s.stopWaiting k' u).waiting t := by
        simp only [State.stopWaiting]
        by_cases htu : t = u
        · subst htu
          have hne : k ≠ k' := by
            rintro rfl
            exact hop timedOut lastTick poll rfl
          rw [update_self]
          exact (List.mem_erase_of_ne hne).mpr hk
        · rwa [update_of_ne htu]
      cases (waitTriggerReady u timedOut lastTick poll s.enter).1 with
      | granted => exact hstays
      | failed _ => exact hstays
      | blocked =>
          simp only [State.settle]
          by_cases htu : t = u
          · subst htu
            rw [update_self]
            exact List.mem_cons_of_mem _ hstays
          · rwa [update_of_ne htu]
  | unlock k' u =>
      simp only [step] at h
      split_ifs at h
      simp only [State.leave, Option.some.injEq, Prod.mk.injEq] at h
      obtain ⟨rfl, rfl⟩ := h
      exact hk
  | _ =>
      simp only [step, State.leave, Option.some.injEq, Prod.mk.injEq] at h
      obtain ⟨rfl, rfl⟩ := h
      exact hk

/-- A client that is woken when its target is ready has its lock. -/
theorem wake_granted {k : Client} {t : TargetId} {timedOut lastTick : Bool}
    {poll : Option String} (h : step s (.wake k t timedOut lastTick poll) = some (s', out))
    (hready : (s.targets t).Ready) : k ∈ s'.granted t := by
  simp only [step] at h
  split_ifs at h
  simp only [State.leave, Option.some.injEq, Prod.mk.injEq] at h
  obtain ⟨rfl, rfl⟩ := h
  have hpass : (waitTriggerReady t timedOut lastTick poll s.enter).1 = .granted := by
    unfold waitTriggerReady
    rw [if_pos ((Target.checkTriggerReady_iff (s.enter.targets t)).mpr hready)]
  rw [hpass]
  simp only [State.settle, update_self]
  exact List.mem_cons_self

/-- A target that a client waits for stays ready until that client is woken. -/
theorem ready_kept (hs : Locks s.targets s.granted s.waiting) (h : step s op = some (s', out))
    {k : Client} {t : TargetId} (hk : k ∈ s.waiting t) (hready : (s.targets t).Ready)
    (hop : ∀ b b' poll, op ≠ .wake k t b b' poll) : (s'.targets t).Ready := by
  have hcount := hs.count t
  have hwaiting := List.length_pos_of_mem hk
  have hguarded : Guarded s.enter.targets t := ⟨by show 0 < (s.targets t).lockCount; omega, hready⟩
  rw [show s'.targets = _ from congrArg Globals.targets (step_effect h).1]
  -- one lock on `u` less leaves `t` guarded, by the waiting client if not otherwise
  have hdrop : ∀ u, (u = t → 2 ≤ (s.targets t).lockCount) →
      Guarded (dropLock u s.enter).targets t := by
    intro u hmany
    by_cases htu : t = u
    · subst htu
      have := hmany rfl
      rw [dropLock_targets, Guarded, update_self]
      exact ⟨by show 0 < (s.targets t).lockCount - 1; omega, hready⟩
    · rw [dropLock_targets, Guarded, update_of_ne htu]
      exact hguarded
  cases op with
  | arm u => exact (respects_armTarget u _).ready t hguarded
  | disarm u => exact (respects_disarmTarget u _).ready t hguarded
  | setMode u mode => exact (respects_triggerTargetSetMode u mode _).ready t hguarded
  | sharedArm => exact (respects_armSharedTargets _).ready t hguarded
  | sharedDisarm =>
      rw [Op.effect]
      exact (respects_disarmSharedTargets _).ready t hguarded
  | sharedSetMode mode => exact hready
  | trigger u => exact (respects_triggerTargetTrigger u _).ready t hguarded
  | complete u => exact (respects_triggerTargetComplete u _).ready t hguarded
  | immediateCapture => exact (respects_immediateMemoryCapture _).ready t hguarded
  | lock k' u timeout =>
      rw [Op.effect, lockTriggerReady_context]
      split_ifs
      · rw [takeLock_targets]
        by_cases htu : t = u
        · subst htu
          rw [update_self]
          exact hready
        · rw [update_of_ne htu]
          exact hready
      · exact hready
  | wake k' u timedOut lastTick poll =>
      rw [Op.effect, waitTriggerReady_context]
      split_ifs with hgives
      · refine (respects_decrementTriggerLockCount u _).ready t (hdrop u fun hut => ?_)
        exact absurd hready (hut ▸ hgives.1)
      · exact hready
  | unlock k' u =>
      refine (respects_decrementTriggerLockCount u _).ready t (hdrop u fun hut => ?_)
      simp only [step] at h
      split_ifs at h with hholds
      have := List.length_pos_of_mem (hut ▸ hholds)
      omega

end waiters

/-! ### Signals -/

section signals
variable {Client : Type} [DecidableEq Client]

/-- The module and its clients, with the targets for which a broadcast was issued since they last
became ready: by the operation that made the target ready, or by a later one. -/
structure Watched (Client : Type) where
  state : State Client
  heard : TargetId → Bool

/-- What is heard after an operation that made the calls `out`. -/
def Watched.listen (w : Watched Client) (out : List Event) (t : TargetId) : Bool :=
  decide (.broadcast ∈ out) || (checkTriggerReady (w.state.targets t) && w.heard t)

/-- The module and its clients, watched. -/
def watched (Client : Type) [DecidableEq Client] :
    Runs.Machine (Watched Client) (Op Client) (List Event) where
  init w := (machine Client).init w.state
  step w op := (step w.state op).map fun (s', out) => (⟨s', w.listen out⟩, out)

theorem watched_step {w w' : Watched Client} {op : Op Client} {out : List Event}
    (h : (watched Client).system.Step w (op, out) w') :
    step w.state op = some (w'.state, out) ∧ w'.heard = w.listen out := by
  obtain ⟨⟨s', o⟩, hs, heq⟩ := Option.map_eq_some_iff.mp h
  obtain ⟨rfl, rfl⟩ := Prod.mk.inj heq
  exact ⟨hs, rfl⟩

/-- Whoever waits for a target that is ready has been signalled. -/
def NoMissedWakeup (w : Watched Client) : Prop :=
  ∀ k t, k ∈ w.state.waiting t → (w.state.targets t).Ready → w.heard t = true

/-- A disarm cancels the arm of a target that a client waits for. -/
def CancelsAwaited (s : State Client) (op : Op Client) : Prop :=
  ∃ t, s.waiting t ≠ [] ∧ Cancels t s op

variable {w w' : Watched Client} {op : Op Client} {out : List Event}

theorem waiting_cancels {s s' : State Client} (h : step s op = some (s', out)) {t : TargetId}
    (hcancels : Cancels t s op) : s'.waiting = s.waiting := by
  cases op with
  | disarm u | sharedDisarm =>
      simp only [step, State.leave, Option.some.injEq, Prod.mk.injEq] at h
      obtain ⟨rfl, rfl⟩ := h
      rfl
  | _ => exact hcancels.elim

/-- An operation leaves no waiter of a ready target without a signal exactly if it does not cancel
the arm of a target that a client waits for. -/
theorem noMissedWakeup_step (hup : UpToDate w.state.toGlobals) (h : NoMissedWakeup w)
    (hstep : (watched Client).system.Step w (op, out) w') :
    NoMissedWakeup w' ↔ ¬ CancelsAwaited w.state op := by
  obtain ⟨hs, hheard⟩ := watched_step hstep
  have htargets : w'.state.targets = _ := congrArg Globals.targets (step_effect hs).1
  have hout := (step_effect hs).2
  constructor
  · rintro hall ⟨t, hwaiting, hcancels⟩
    obtain ⟨k, hk⟩ := List.exists_mem_of_ne_nil _ hwaiting
    obtain ⟨hready, hsilent⟩ := effect_cancels hcancels
    have hsignal := hall k t (by rw [waiting_cancels hs hcancels]; exact hk)
      (by rw [htargets]; exact hready)
    have harmed : (w.state.targets t).state = .armed := by
      cases op with
      | disarm u => exact hcancels.2.1
      | sharedDisarm => exact hcancels.2.1
      | _ => exact hcancels.elim
    have hbusy : checkTriggerReady (w.state.targets t) = false := by
      simp [checkTriggerReady, harmed]
    rw [hheard, Watched.listen, hbusy, Bool.false_and, Bool.or_false, decide_eq_true_eq,
      hout] at hsignal
    exact hsilent hsignal
  · intro hnot k t hk hready
    have hk' : k ∈ w.state.waiting t := by
      rcases waiting_new hs hk with hk' | hunready
      · exact hk'
      · exact absurd hready hunready
    rw [htargets] at hready
    rw [hheard, Watched.listen, Bool.or_eq_true, decide_eq_true_eq, Bool.and_eq_true, hout]
    rcases effect_ready hup hready with hbefore | hsignal | hcancels
    · exact .inr ⟨(Target.checkTriggerReady_iff _).mpr hbefore, h k t hk' hbefore⟩
    · exact .inl hsignal
    · exact absurd ⟨t, List.ne_nil_of_mem hk', hcancels⟩ hnot

/-- **No missed wake-up.**  All along a run, whoever waits for a target that is ready has been
signalled since it became ready, exactly if no operation of the run disarms an armed target, other
than the memory, that a client waits for.  In any case a target that is ready stays so for a
client that waits for it, until that client is woken, for whatever reason, and is granted its
lock. -/
theorem no_missed_wakeup_iff {w₀ w : Watched Client}
    {l : List (Watched Client × Op Client × List Event)} (hinit : (watched Client).init w₀)
    (hp : Path (watched Client).system w₀ l w) :
    (Always NoMissedWakeup l w ↔ ∀ x ∈ l, ¬ CancelsAwaited x.1.state x.2.1) ∧
    ∀ k t, k ∈ w.state.waiting t → (w.state.targets t).Ready → ∀ op out w',
      (watched Client).system.Step w (op, out) w' →
      (∃ b b' poll, op = .wake k t b b' poll) ∧ k ∈ w'.state.granted t ∨
        k ∈ w'.state.waiting t ∧ (w'.state.targets t).Ready := by
  have hkeeps : ∀ v a v', (UpToDate v.state.toGlobals ∧
      Locks v.state.targets v.state.granted v.state.waiting) →
      (watched Client).system.Step v a v' → UpToDate v'.state.toGlobals ∧
        Locks v'.state.targets v'.state.granted v'.state.waiting := by
    rintro v a v' ⟨hup, hlocks⟩ hstep
    obtain ⟨hs, -⟩ := watched_step hstep
    have hs : (runs Client).Step v.state a v'.state := hs
    exact ⟨upToDate_step hup hs, locks_step hlocks hs⟩
  have hstart : UpToDate w₀.state.toGlobals ∧
      Locks w₀.state.targets w₀.state.granted w₀.state.waiting :=
    ⟨upToDate_reachable (.init hinit), locks_reachable (.init hinit)⟩
  constructor
  · refine hp.always_iff hkeeps (fun v a v' hI hP hstep => noMissedWakeup_step hI.1 hP hstep)
      hstart ?_
    intro k t hk
    rw [hinit.2.2 t] at hk
    cases hk
  · intro k t hk hready op out w' hstep
    obtain ⟨hs, -⟩ := watched_step hstep
    by_cases hwake : ∃ b b' poll, op = .wake k t b b' poll
    · obtain ⟨b, b', poll, rfl⟩ := hwake
      exact .inl ⟨⟨b, b', poll, rfl⟩, wake_granted hs hready⟩
    · have hop : ∀ b b' poll, op ≠ .wake k t b b' poll :=
        fun b b' poll heq => hwake ⟨b, b', poll, heq⟩
      exact .inr ⟨waiting_kept hs hk hop,
        ready_kept (hp.invariant hkeeps hstart).2 hs hk hready hop⟩

/-- A client waits for an armed target, which is then disarmed. -/
theorem missed_wakeup_reachable :
    ∃ w, Reachable (watched ℕ).system w ∧ ¬ NoMissedWakeup w := by
  refine ⟨_, (watched ℕ).reachable_after
    (s := ⟨.boot (fun _ => .oneShot) false, fun _ => false⟩)
    (machine_boot (fun _ => .oneShot) false) [.arm .seq0, .lock 1 .seq0 1000, .disarm .seq0], ?_⟩
  intro hall
  exact absurd (hall 1 .seq0 (by decide) (.inl rfl)) (by decide)

/-- A client waits for an armed target, which is then triggered and completes. -/
theorem no_missed_wakeup_complete :
    let w := (watched ℕ).after ⟨.boot (fun _ => .oneShot) false, fun _ => false⟩
      [.arm .seq0, .lock 1 .seq0 1000, .trigger .seq0, .complete .seq0]
    w.state.waiting .seq0 = [1] ∧ w.heard .seq0 = true ∧ NoMissedWakeup w := by
  intro w
  have hinit : (watched ℕ).init ⟨.boot (fun _ => .oneShot) false, fun _ => false⟩ :=
    machine_boot (fun _ => .oneShot) false
  have hiff := (no_missed_wakeup_iff hinit ((watched ℕ).path_trace _
    [.arm .seq0, .lock 1 .seq0 1000, .trigger .seq0, .complete .seq0])).1
  refine ⟨rfl, rfl, (hiff.mpr fun x hx => ?_).2⟩
  have hinput := (watched ℕ).mem_trace hx
  rintro ⟨t, -, hcancels⟩
  simp only [List.mem_cons, List.not_mem_nil, or_false] at hinput
  rcases hinput with h | h | h | h <;> rw [h] at hcancels <;> exact hcancels

end signals

end Mbf.Trigger
