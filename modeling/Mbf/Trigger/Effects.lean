import Mathlib.Tactic.Common
import Mbf.Lib.Cells
import Mbf.Trigger.Target

/-! # What the functions of the trigger module do

One description for each function: the targets it leaves behind as a function of the targets it
found, the shared state, and the calls it adds to `out`.  The loops over the shared targets are
described once (`loop_targets`, `loop_out`): a body that touches only the record of its own
target acts on all shared targets at once. -/

namespace Mbf.Trigger

open Context Function

/-! ### The basic updates -/

section basic
variable (t : TargetId) (e : Event) (f : Target → Target) (c : Context)

@[simp] theorem emit_targets : (emit e c).targets = c.targets := rfl
@[simp] theorem emit_shared : (emit e c).shared = c.shared := rfl
@[simp] theorem emit_out : (emit e c).out = c.out ++ [e] := rfl
@[simp] theorem modify_targets :
    (c.modify t f).targets = update c.targets t (f (c.targets t)) := rfl
@[simp] theorem modify_shared : (c.modify t f).shared = c.shared := rfl
@[simp] theorem modify_out : (c.modify t f).out = c.out := rfl

@[simp] theorem setTargetState_targets (state : TargetState) :
    (setTargetState t state c).targets =
      update c.targets t { c.targets t with state := state } := by
  unfold setTargetState
  split_ifs with h
  · rfl
  · simp only [ne_eq, not_not] at h
    simp [h]

@[simp] theorem setTargetState_shared (state : TargetState) :
    (setTargetState t state c).shared = c.shared := by
  unfold setTargetState
  split_ifs <;> rfl

@[simp] theorem setTargetState_out (state : TargetState) :
    (setTargetState t state c).out =
      c.out ++ if state ≠ (c.targets t).state then [.targetState t state] else [] := by
  unfold setTargetState
  split_ifs <;> simp

@[simp] theorem setGlobalState_targets (state : SharedState) :
    (setGlobalState state c).targets = c.targets := by
  unfold setGlobalState
  split_ifs <;> rfl

@[simp] theorem setGlobalState_shared (state : SharedState) :
    (setGlobalState state c).shared = { c.shared with state := state } := by
  unfold setGlobalState
  split_ifs with h
  · rfl
  · simp only [ne_eq, not_not] at h
    simp [h]

@[simp] theorem setGlobalState_out (state : SharedState) :
    (setGlobalState state c).out =
      c.out ++ if state ≠ c.shared.state then [.sharedState state] else [] := by
  unfold setGlobalState
  split_ifs <;> simp

@[simp] theorem prepareTarget_targets : (prepareTarget t c).targets = c.targets := by
  cases t <;> rfl

@[simp] theorem prepareTarget_shared : (prepareTarget t c).shared = c.shared := by
  cases t <;> rfl

@[simp] theorem stopTarget_targets : (stopTarget t c).2.targets = c.targets := by
  cases t <;> rfl

@[simp] theorem stopTarget_shared : (stopTarget t c).2.shared = c.shared := by
  cases t <;> rfl

end basic

/-- The call made by the `prepare_target` method of `t`. -/
def prepareEvent : TargetId → Event
  | .dram => .writeDramCaptureCommand true false
  | t => .prepareSeq t

@[simp] theorem prepareTarget_out (t : TargetId) (c : Context) :
    (prepareTarget t c).out = c.out ++ [prepareEvent t] := by
  cases t <;> rfl

/-- The state a stopped target goes to. -/
def stopState : TargetId → TargetState
  | .dram => .armed
  | _ => .idle

/-- The calls made by the `stop_target` method of `t`. -/
def stopEvents : TargetId → List Event
  | .dram => [.writeTriggerFire (singleMask .dram)]
  | _ => []

@[simp] theorem stopTarget_state (t : TargetId) (c : Context) :
    (stopTarget t c).1 = stopState t := by
  cases t <;> rfl

@[simp] theorem stopTarget_out (t : TargetId) (c : Context) :
    (stopTarget t c).2.out = c.out ++ stopEvents t := by
  cases t <;> simp [stopTarget, stopEvents]

/-! ### Acting on one target -/

namespace Target

/-- Ready to deliver data, and ready to be armed. -/
def Ready (x : Target) : Prop := x.state = .idle ∨ x.state = .locked

instance (x : Target) : Decidable x.Ready := inferInstanceAs (Decidable (_ ∨ _))

/-- The record after `doArmTarget`. -/
def arm (x : Target) : Target :=
  if x.Ready then
    if x.lockCount = 0 then { x with dontRearm := false, state := .armed }
    else { x with state := .locked }
  else x

/-- The record after `doDisarmTarget`. -/
def disarm (t : TargetId) (x : Target) : Target :=
  if x.state = .armed then { x with dontRearm := true, state := stopState t }
  else if x.state = .locked then { x with dontRearm := true, state := .idle }
  else { x with dontRearm := true }

/-- The record after `postponeTarget`. -/
def postpone (x : Target) : Target := if 0 < x.lockCount then { x with state := .locked } else x

variable (t : TargetId) (x : Target)

@[simp] theorem arm_mode : x.arm.mode = x.mode := by unfold arm; split_ifs <;> rfl
@[simp] theorem arm_lockCount : x.arm.lockCount = x.lockCount := by unfold arm; split_ifs <;> rfl
@[simp] theorem disarm_mode : (x.disarm t).mode = x.mode := by unfold disarm; split_ifs <;> rfl
@[simp] theorem disarm_lockCount : (x.disarm t).lockCount = x.lockCount := by
  unfold disarm; split_ifs <;> rfl
@[simp] theorem disarm_dontRearm : (x.disarm t).dontRearm = true := by
  unfold disarm; split_ifs <;> rfl
@[simp] theorem postpone_mode : x.postpone.mode = x.mode := by unfold postpone; split_ifs <;> rfl
@[simp] theorem postpone_lockCount : x.postpone.lockCount = x.lockCount := by
  unfold postpone; split_ifs <;> rfl

theorem checkTriggerReady_iff : checkTriggerReady x = true ↔ x.Ready := by
  simp [checkTriggerReady, Ready]

end Target

/-- The calls of `doArmTarget`. -/
def armOut (t : TargetId) (x : Target) : List Event :=
  if x.Ready then
    if x.lockCount = 0 then [prepareEvent t, .targetState t .armed]
    else if x.state = .locked then [] else [.targetState t .locked]
  else []

/-- The calls of `doDisarmTarget`. -/
def disarmOut (t : TargetId) (x : Target) : List Event :=
  if x.state = .armed then
    stopEvents t ++ if stopState t ≠ .armed then [.targetState t (stopState t)] else []
  else if x.state = .locked then [.targetState t .idle] else []

/-- The calls of `postponeTarget`. -/
def postponeOut (t : TargetId) (x : Target) : List Event :=
  if 0 < x.lockCount ∧ x.state ≠ .locked then [.targetState t .locked] else []

/-- The module's state as a table of records, a log and the rest. -/
def contextView : Cells.View Context TargetId Target Event Shared :=
  ⟨fun c => c.targets, fun c => c.out, fun c => c.shared⟩

/-- `f t` changes only the record of `t`, by `g t`, and makes the calls `o t`. -/
abbrev TargetLocal (f : TargetId → Context → Context) (g : TargetId → Target → Target)
    (o : TargetId → Target → List Event) : Prop := Cells.Local contextView f g o

theorem doArmTarget_fst (t : TargetId) (c : Context) :
    (doArmTarget t c).1 = decide ((c.targets t).Ready ∧ (c.targets t).lockCount = 0) := by
  unfold doArmTarget Target.Ready
  split_ifs with h₁ h₂ <;> simp [*]

theorem doArmTarget_local :
    TargetLocal (fun t c => (doArmTarget t c).2) (fun _ => Target.arm) armOut where
  cell t c := by
    simp only [contextView, doArmTarget, Target.arm, Target.Ready]
    split_ifs <;> simp [*]
  log t c := by
    simp only [contextView, doArmTarget, armOut, Target.Ready]
    split_ifs with h₁ h₂
    · rcases h₁ with h₁ | h₁ <;> simp [h₁, h₂]
    · rcases h₁ with h₁ | h₁ <;> simp [h₁, h₂]
    · simp [h₁]
  rest t c := by
    simp only [contextView, doArmTarget]
    split_ifs <;> simp

theorem doDisarmTarget_local : TargetLocal doDisarmTarget Target.disarm disarmOut where
  cell t c := by
    simp only [contextView, doDisarmTarget, Target.disarm]
    split_ifs <;> simp_all
  log t c := by
    simp only [contextView, doDisarmTarget, disarmOut]
    split_ifs <;> simp_all
  rest t c := by
    simp only [contextView, doDisarmTarget]
    split_ifs <;> simp

theorem postponeTarget_local :
    TargetLocal postponeTarget (fun _ => Target.postpone) postponeOut where
  cell t c := by
    simp only [contextView, postponeTarget, Target.postpone]
    split_ifs <;> simp [*]
  log t c := by
    simp only [contextView, postponeTarget, postponeOut]
    split_ifs <;> simp_all [eq_comm]
  rest t c := by
    simp only [contextView, postponeTarget]
    split_ifs <;> simp

/-! ### The loop over the shared targets -/

theorem mem_allTargets (t : TargetId) : t ∈ allTargets := by cases t <;> decide

theorem allTargets_nodup : allTargets.Nodup := by decide

section loop
variable {f : TargetId → Context → Context} {g : TargetId → Target → Target}
  {o : TargetId → Target → List Event}

theorem loop_targets (h : TargetLocal f g o) (c : Context) (t : TargetId) :
    (forSharedTargets f c).targets t =
      if (c.targets t).mode = .shared then g t (c.targets t) else c.targets t := by
  have := (h.guard fun x => x.mode = .shared).foldl_cell allTargets allTargets_nodup c t
  rw [if_pos (mem_allTargets t)] at this
  exact this

/-- The calls of a loop over the shared targets. -/
def loopOut (o : TargetId → Target → List Event) (targets : TargetId → Target) : List Event :=
  allTargets.flatMap fun t => if (targets t).mode = .shared then o t (targets t) else []

theorem loop_out (h : TargetLocal f g o) (c : Context) :
    (forSharedTargets f c).out = c.out ++ loopOut o c.targets :=
  (h.guard fun x => x.mode = .shared).foldl_log allTargets allTargets_nodup c

theorem loop_shared (h : TargetLocal f g o) (c : Context) :
    (forSharedTargets f c).shared = c.shared :=
  (h.guard fun x => x.mode = .shared).foldl_rest allTargets c

theorem mem_loopOut {targets : TargetId → Target} {e : Event} :
    e ∈ loopOut o targets ↔ ∃ t, (targets t).mode = .shared ∧ e ∈ o t (targets t) := by
  simp only [loopOut, List.mem_flatMap]
  constructor
  · rintro ⟨t, _, he⟩
    split_ifs at he with hm
    · exact ⟨t, hm, he⟩
    · cases he
  · rintro ⟨t, hm, he⟩
    exact ⟨t, mem_allTargets t, by rwa [if_pos hm]⟩

end loop

/-! ### The calls made on the way -/

/-- All the calls made from `c` to `c'` satisfy `p`. -/
def Emits (p : Event → Prop) (c c' : Context) : Prop :=
  ∃ es, c'.out = c.out ++ es ∧ ∀ e ∈ es, p e

namespace Emits
variable {p q : Event → Prop} {c c' c'' : Context}

theorem refl (c : Context) : Emits p c c := ⟨[], by simp⟩

theorem trans (h : Emits p c c') (h' : Emits p c' c'') : Emits p c c'' := by
  obtain ⟨es, hes, hp⟩ := h
  obtain ⟨es', hes', hp'⟩ := h'
  refine ⟨es ++ es', by rw [hes', hes, List.append_assoc], fun e he => ?_⟩
  rcases List.mem_append.mp he with he | he
  · exact hp e he
  · exact hp' e he

theorem mono (h : Emits p c c') (hpq : ∀ e, p e → q e) : Emits q c c' := by
  obtain ⟨es, hes, hp⟩ := h
  exact ⟨es, hes, fun e he => hpq e (hp e he)⟩

theorem emit {e : Event} (h : p e) : Emits p c (emit e c) := ⟨[e], rfl, by simpa using h⟩

theorem of_out (h : c'.out = c.out) : Emits p c c' := ⟨[], by simp [h]⟩

theorem modify (t : TargetId) (f : Target → Target) : Emits p c (c.modify t f) := of_out rfl

theorem setTargetState {t : TargetId} {s : TargetState} (h : p (.targetState t s)) :
    Emits p c (setTargetState t s c) := by
  refine ⟨_, setTargetState_out .., fun e he => ?_⟩
  split_ifs at he
  · rw [List.mem_singleton.mp he]; exact h
  · cases he

theorem setGlobalState {s : SharedState} (h : p (.sharedState s)) :
    Emits p c (setGlobalState s c) := by
  refine ⟨_, setGlobalState_out .., fun e he => ?_⟩
  split_ifs at he
  · rw [List.mem_singleton.mp he]; exact h
  · cases he

variable {f : TargetId → Context → Context} {g : TargetId → Target → Target}
  {o : TargetId → Target → List Event}

theorem of_local (h : TargetLocal f g o) {t : TargetId} (ho : ∀ e ∈ o t (c.targets t), p e) :
    Emits p c (f t c) :=
  ⟨_, h.log t c, ho⟩

theorem of_loop (h : TargetLocal f g o)
    (ho : ∀ t, (c.targets t).mode = .shared → ∀ e ∈ o t (c.targets t), p e) :
    Emits p c (forSharedTargets f c) := by
  refine ⟨_, loop_out h c, fun e he => ?_⟩
  obtain ⟨t, ht, he⟩ := mem_loopOut.mp he
  exact ho t ht e he

end Emits

/-- The call arms nothing. -/
def Event.Tame : Event → Prop
  | .writeTriggerArm _ => False
  | .writeTriggerArmShared _ _ _ => False
  | _ => True

theorem Event.Tame.arms {e : Event} (h : e.Tame) (t : TargetId) : e.arms t = false := by
  cases e <;> first | exact h.elim | rfl

theorem armOut_tame (t : TargetId) (x : Target) : ∀ e ∈ armOut t x, e.Tame := by
  intro e he
  simp only [armOut] at he
  split_ifs at he
  · rcases List.mem_pair.mp he with rfl | rfl
    · cases t <;> trivial
    · trivial
  · cases he
  · rw [List.mem_singleton.mp he]; trivial
  · cases he

theorem disarmOut_tame (t : TargetId) (x : Target) : ∀ e ∈ disarmOut t x, e.Tame := by
  intro e he
  simp only [disarmOut] at he
  split_ifs at he
  · cases t <;> simp_all [stopEvents, stopState, Event.Tame]
  · cases t <;> simp_all [stopEvents, stopState, Event.Tame]
  · rw [List.mem_singleton.mp he]; trivial
  · cases he

theorem postponeOut_tame (t : TargetId) (x : Target) : ∀ e ∈ postponeOut t x, e.Tame := by
  intro e he
  simp only [postponeOut] at he
  split_ifs at he
  · rw [List.mem_singleton.mp he]; trivial
  · cases he

/-! ### The state of the group -/

/-- The target takes part in shared arming. -/
def Shares (targets : Targets) (t : TargetId) : Prop := (targets t).mode = .shared

instance (targets : Targets) (t : TargetId) : Decidable (Shares targets t) :=
  inferInstanceAs (Decidable (_ = _))

section group
variable (g : Targets)

theorem anyShared_iff (p : Target → Bool) :
    anyShared p g = true ↔ ∃ t, Shares g t ∧ p (g t) = true := by
  simp only [anyShared, List.any_eq_true, Bool.and_eq_true, decide_eq_true_eq]
  constructor
  · rintro ⟨t, _, h⟩
    exact ⟨t, h⟩
  · rintro ⟨t, h⟩
    exact ⟨t, mem_allTargets t, h⟩

theorem anyLockedTargets_iff :
    anyLockedTargets g = true ↔ ∃ t, Shares g t ∧ 0 < (g t).lockCount := by
  simp [anyLockedTargets, anyShared_iff]

theorem anyLockedTargets_false_iff :
    anyLockedTargets g = false ↔ ∀ t, Shares g t → (g t).lockCount = 0 := by
  rw [← Bool.not_eq_true, anyLockedTargets_iff]
  simp

theorem anySharedTargets_iff :
    anySharedTargets g = true ↔ ∃ t, Shares g t := by
  simp [anySharedTargets, anyShared_iff]

/-- No target in shared mode is in state `s`. -/
theorem anyShared_state_false_iff (s : TargetState) :
    anyShared (fun x => x.state = s) g = false ↔
      ∀ t, Shares g t → (g t).state ≠ s := by
  rw [← Bool.not_eq_true, anyShared_iff]
  simp

theorem anyShared_state_iff (s : TargetState) :
    anyShared (fun x => x.state = s) g = true ↔
      ∃ t, Shares g t ∧ (g t).state = s := by
  simp [anyShared_iff]

theorem globalStateRule_idle_iff : ∀ l a b i,
    globalStateRule l a b i = .idle ↔ l = false ∧ a = false ∧ b = false := by decide

theorem globalStateRule_locked_iff : ∀ l a b i,
    globalStateRule l a b i = .locked ↔ l = true ∧ a = false ∧ b = false := by decide

theorem globalStateRule_armed_iff : ∀ l a b i,
    globalStateRule l a b i = .armed ↔ a = true ∧ l = false ∧ b = false ∧ i = false := by decide

theorem globalStateRule_invalid_iff : ∀ l a b i,
    globalStateRule l a b i = .invalid ↔ l = true ∧ (a = true ∨ b = true) := by decide

theorem computeGlobalState_idle_iff :
    computeGlobalState g = .idle ↔ ∀ t, Shares g t → (g t).state = .idle := by
  simp only [computeGlobalState, globalStateRule_idle_iff, anyShared_state_false_iff]
  constructor
  · rintro ⟨hl, ha, hb⟩ t ht
    cases hs : (g t).state with
    | idle => rfl
    | armed => exact absurd hs (ha t ht)
    | busy => exact absurd hs (hb t ht)
    | locked => exact absurd hs (hl t ht)
  · intro h
    refine ⟨?_, ?_, ?_⟩ <;> intro t ht <;> rw [h t ht] <;> decide

theorem computeGlobalState_locked_iff :
    computeGlobalState g = .locked ↔
      (∃ t, Shares g t ∧ (g t).state = .locked) ∧
        ∀ t, Shares g t → (g t).Ready := by
  simp only [computeGlobalState, globalStateRule_locked_iff,
    anyShared_state_false_iff, anyShared_state_iff]
  constructor
  · rintro ⟨hl, ha, hb⟩
    refine ⟨hl, fun t ht => ?_⟩
    cases hs : (g t).state with
    | idle => exact .inl hs
    | armed => exact absurd hs (ha t ht)
    | busy => exact absurd hs (hb t ht)
    | locked => exact .inr hs
  · rintro ⟨hl, h⟩
    refine ⟨hl, ?_, ?_⟩ <;> intro t ht hs <;> rcases h t ht with h | h <;> rw [h] at hs <;> cases hs

/-- The group may be armed exactly when all its targets are ready. -/
theorem computeGlobalState_ready_iff :
    computeGlobalState g = .idle ∨ computeGlobalState g = .locked ↔
      ∀ t, Shares g t → (g t).Ready := by
  rw [computeGlobalState_idle_iff, computeGlobalState_locked_iff]
  constructor
  · rintro (h | ⟨_, h⟩)
    · exact fun t ht => .inl (h t ht)
    · exact h
  · intro h
    by_cases hl : ∃ t, Shares g t ∧ (g t).state = .locked
    · exact .inr ⟨hl, h⟩
    · refine .inl fun t ht => ?_
      rcases h t ht with h | h
      · exact h
      · exact absurd ⟨t, ht, h⟩ hl

theorem computeGlobalState_armed_iff :
    computeGlobalState g = .armed ↔
      (∃ t, Shares g t) ∧ ∀ t, Shares g t → (g t).state = .armed := by
  simp only [computeGlobalState, globalStateRule_armed_iff,
    anyShared_state_false_iff, anyShared_state_iff]
  constructor
  · rintro ⟨⟨t, ht, _⟩, hl, hb, hi⟩
    refine ⟨⟨t, ht⟩, fun t ht => ?_⟩
    cases hs : (g t).state with
    | idle => exact absurd hs (hi t ht)
    | armed => rfl
    | busy => exact absurd hs (hb t ht)
    | locked => exact absurd hs (hl t ht)
  · rintro ⟨⟨t, ht⟩, h⟩
    refine ⟨⟨t, ht, h t ht⟩, ?_, ?_, ?_⟩ <;> intro t ht <;> rw [h t ht] <;> decide

/-- The combination documented as one that should not occur: a target is locked while another
is armed or busy. -/
theorem computeGlobalState_invalid_iff :
    computeGlobalState g = .invalid ↔
      (∃ t, Shares g t ∧ (g t).state = .locked) ∧
        ∃ t, Shares g t ∧ ¬ (g t).Ready := by
  simp only [computeGlobalState, globalStateRule_invalid_iff, anyShared_state_iff]
  constructor
  · rintro ⟨hl, ⟨t, ht, hs⟩ | ⟨t, ht, hs⟩⟩ <;> exact ⟨hl, t, ht, by simp [Target.Ready, hs]⟩
  · rintro ⟨hl, t, ht, hs⟩
    refine ⟨hl, ?_⟩
    cases h : (g t).state with
    | idle => exact absurd (.inl h) hs
    | armed => exact .inl ⟨t, ht, h⟩
    | busy => exact .inr ⟨t, ht, h⟩
    | locked => exact absurd (.inr h) hs

end group

/-! ### Arming the group -/

/-- The ways `armSharedTargets` can end. -/
inductive ArmShared (c c' : Context) : Prop
  | refused (busy : ¬ (c.shared.state = .idle ∨ c.shared.state = .locked))
      (targets : c'.targets = c.targets)
      (shared : c'.shared = { c.shared with dontRearm := false })
      (out : ∃ m, c'.out = c.out ++ [.logMessage m])
  | postponed (ready : c.shared.state = .idle ∨ c.shared.state = .locked)
      (lock : ∃ t, Shares c.targets t ∧ 0 < (c.targets t).lockCount)
      (targets : ∀ t, c'.targets t =
        if Shares c.targets t then (c.targets t).postpone else c.targets t)
      (shared : c'.shared = ⟨c.shared.retriggerMode, false, .locked⟩)
      (out : c'.out = c.out ++ loopOut postponeOut c.targets ++
        if c.shared.state = .locked then [] else [.sharedState .locked])
  | armed (ready : c.shared.state = .idle ∨ c.shared.state = .locked)
      (unlocked : ∀ t, Shares c.targets t → (c.targets t).lockCount = 0)
      (some : ∃ t, Shares c.targets t)
      (targets : ∀ t, c'.targets t = if Shares c.targets t then (c.targets t).arm else c.targets t)
      (shared : c'.shared = ⟨c.shared.retriggerMode, false, .armed⟩)
      (out : c'.out = c.out ++ loopOut armOut c.targets ++
        [.writeTriggerArmShared (getSharedMask c.targets) c.targets c'.targets,
          .sharedState .armed])
  | nothing (none : ∀ t, ¬ Shares c.targets t) (targets : c'.targets = c.targets)
      (shared : c'.shared = { c.shared with dontRearm := false }) (out : c'.out = c.out)

theorem armSharedTargets_cases (c : Context) : ArmShared c (armSharedTargets c) := by
  by_cases hready : c.shared.state = .idle ∨ c.shared.state = .locked
  · have hnot : ¬ (c.shared.state ≠ .idle ∧ c.shared.state ≠ .locked) := by tauto
    by_cases hlock : anyLockedTargets c.targets = true
    · have e : armSharedTargets c = setGlobalState .locked (forSharedTargets postponeTarget
          { c with shared := { c.shared with dontRearm := false } }) := by
        simp only [armSharedTargets]
        rw [if_neg hnot, if_pos hlock]
      refine .postponed hready ((anyLockedTargets_iff _).mp hlock) ?_ ?_ ?_
      · intro t
        rw [e, setGlobalState_targets, loop_targets postponeTarget_local]
        rfl
      · rw [e, setGlobalState_shared, loop_shared postponeTarget_local]
      · rw [e, setGlobalState_out, loop_shared postponeTarget_local,
          loop_out postponeTarget_local]
        simp [eq_comm]
    · by_cases hsome : anySharedTargets c.targets = true
      · have e : armSharedTargets c = setGlobalState .armed (doArmSharedHardware c.targets
            (forSharedTargets (fun t c => (doArmTarget t c).2)
              { c with shared := { c.shared with dontRearm := false } })) := by
          simp only [armSharedTargets]
          rw [if_neg hnot, if_neg hlock, if_pos hsome]
        have ht : ∀ t, (armSharedTargets c).targets t =
            if Shares c.targets t then (c.targets t).arm else c.targets t := by
          intro t
          rw [e, setGlobalState_targets]
          exact loop_targets doArmTarget_local _ t
        have hmask : getSharedMask (armSharedTargets c).targets =
            getSharedMask c.targets := by
          funext t
          simp only [getSharedMask, ht]
          split_ifs <;> simp
        rw [Bool.not_eq_true] at hlock
        refine .armed hready ((anyLockedTargets_false_iff _).mp hlock)
          ((anySharedTargets_iff _).mp hsome) ht ?_ ?_
        · rw [e, setGlobalState_shared]
          simp only [doArmSharedHardware, emit_shared, loop_shared doArmTarget_local]
        · rw [← hmask, e]
          simp only [setGlobalState_out, setGlobalState_targets, doArmSharedHardware, emit_out,
            emit_targets, emit_shared, loop_out doArmTarget_local, loop_shared doArmTarget_local]
          rcases hready with h | h <;> simp [h]
      · have e : armSharedTargets c = { c with shared := { c.shared with dontRearm := false } } := by
          simp only [armSharedTargets]
          rw [if_neg hnot, if_neg hlock, if_neg hsome]
        rw [anySharedTargets_iff, not_exists] at hsome
        exact .nothing hsome (by rw [e]) (by rw [e]) (by rw [e])
  · have hnot : c.shared.state ≠ .idle ∧ c.shared.state ≠ .locked := by tauto
    have e : armSharedTargets c = emit (.logMessage s!"Unable to arm in state {c.shared.state.toNat}")
        { c with shared := { c.shared with dontRearm := false } } := by
      simp only [armSharedTargets]
      rw [if_pos hnot]
    exact .refused hready (by rw [e]; rfl) (by rw [e]; rfl) ⟨_, by rw [e]; rfl⟩

theorem shares_armSharedTargets (c : Context) (t : TargetId) :
    Shares (armSharedTargets c).targets t ↔ Shares c.targets t := by
  cases armSharedTargets_cases c with
  | refused _ targets _ _ => rw [targets]
  | nothing _ targets _ _ => rw [targets]
  | postponed _ _ targets _ _ =>
      unfold Shares
      rw [targets]
      split_ifs
      · rw [Target.postpone_mode]
      · rfl
  | armed _ _ _ targets _ _ =>
      unfold Shares
      rw [targets]
      split_ifs
      · rw [Target.arm_mode]
      · rfl

/-- Arming the group does not touch the other targets. -/
theorem armSharedTargets_outside {c : Context} {t : TargetId} (ht : ¬ Shares c.targets t) :
    (armSharedTargets c).targets t = c.targets t := by
  cases armSharedTargets_cases c with
  | refused _ targets _ _ => rw [targets]
  | nothing _ targets _ _ => rw [targets]
  | postponed _ _ targets _ _ => rw [targets, if_neg ht]
  | armed _ _ _ targets _ _ => rw [targets, if_neg ht]

/-! ### Updating the state of the group -/

/-- The first half of `updateGlobalState`: store the computed state. -/
def refresh (c : Context) : Context := setGlobalState (computeGlobalState c.targets) c

section refresh
variable (c : Context)

@[simp] theorem refresh_targets : (refresh c).targets = c.targets := setGlobalState_targets ..
@[simp] theorem refresh_shared :
    (refresh c).shared = { c.shared with state := computeGlobalState c.targets } :=
  setGlobalState_shared ..
@[simp] theorem refresh_out : (refresh c).out = c.out ++
    if computeGlobalState c.targets ≠ c.shared.state then
      [.sharedState (computeGlobalState c.targets)] else [] :=
  setGlobalState_out ..

end refresh

/-- The group becomes idle and is to be retriggered, or an arm was postponed and no lock of the
group is left. -/
def Rearms (g : Globals) : Prop :=
  computeGlobalState g.targets = .idle ∧ g.shared.retriggerMode = true ∧
      g.shared.dontRearm = false ∨
    computeGlobalState g.targets = .locked ∧
      ∀ t, Shares g.targets t → (g.targets t).lockCount = 0

theorem doRearm_iff (c : Context) :
    doRearm (computeGlobalState c.targets) (refresh c).toGlobals = true ↔
      Rearms c.toGlobals := by
  simp [doRearm, Rearms, anyLockedTargets_false_iff, and_assoc]

theorem updateGlobalState_of_rearms {c : Context} (h : Rearms c.toGlobals) :
    updateGlobalState c = armSharedTargets (refresh c) := by
  change (if doRearm (computeGlobalState c.targets) (refresh c).toGlobals = true then
    armSharedTargets (refresh c) else refresh c) = _
  rw [if_pos ((doRearm_iff c).mpr h)]

theorem updateGlobalState_of_not_rearms {c : Context} (h : ¬ Rearms c.toGlobals) :
    updateGlobalState c = refresh c := by
  change (if doRearm (computeGlobalState c.targets) (refresh c).toGlobals = true then
    armSharedTargets (refresh c) else refresh c) = _
  rw [if_neg ((doRearm_iff c).not.mpr h)]

/-- A rearmed group was ready to be armed. -/
theorem Rearms.ready {g : Globals} (h : Rearms g) :
    computeGlobalState g.targets = .idle ∨ computeGlobalState g.targets = .locked := by
  rcases h with ⟨h, _⟩ | ⟨h, _⟩
  · exact .inl h
  · exact .inr h

theorem updateGlobalState_outside {c : Context} {t : TargetId} (ht : ¬ Shares c.targets t) :
    (updateGlobalState c).targets t = c.targets t := by
  by_cases hr : Rearms c.toGlobals
  · rw [updateGlobalState_of_rearms hr, armSharedTargets_outside (by rwa [refresh_targets]),
      refresh_targets]
  · rw [updateGlobalState_of_not_rearms hr, refresh_targets]

theorem shares_updateGlobalState (c : Context) (t : TargetId) :
    Shares (updateGlobalState c).targets t ↔ Shares c.targets t := by
  by_cases hr : Rearms c.toGlobals
  · rw [updateGlobalState_of_rearms hr, shares_armSharedTargets, refresh_targets]
  · rw [updateGlobalState_of_not_rearms hr, refresh_targets]

/-! ### Arming and disarming one target -/

section one
variable {t : TargetId} {c : Context}

theorem armTarget_of_shares (h : Shares c.targets t) : armTarget t c = armSharedTargets c :=
  if_pos h

theorem armTarget_of_not_shares (h : ¬ Shares c.targets t) :
    armTarget t c = if (doArmTarget t c).1 then doArmTargetHardware t (doArmTarget t c).2
      else (doArmTarget t c).2 :=
  if_neg h

theorem disarmTarget_of_shares (h : Shares c.targets t) :
    disarmTarget t c = disarmSharedTargets c :=
  if_pos h

theorem disarmTarget_of_not_shares (h : ¬ Shares c.targets t) :
    disarmTarget t c = doDisarmTarget t (doDisarmTargetHardware t c) :=
  if_neg h

theorem armTarget_targets (h : ¬ Shares c.targets t) :
    (armTarget t c).targets = update c.targets t (c.targets t).arm := by
  have hlocal : (doArmTarget t c).2.targets = _ := doArmTarget_local.cell t c
  rw [armTarget_of_not_shares h]
  split_ifs
  · exact hlocal
  · exact hlocal

theorem armTarget_shared (h : ¬ Shares c.targets t) : (armTarget t c).shared = c.shared := by
  have hlocal : (doArmTarget t c).2.shared = _ := doArmTarget_local.rest t c
  rw [armTarget_of_not_shares h]
  split_ifs
  · exact hlocal
  · exact hlocal

theorem disarmTarget_targets (h : ¬ Shares c.targets t) :
    (disarmTarget t c).targets = update c.targets t ((c.targets t).disarm t) := by
  rw [disarmTarget_of_not_shares h]
  exact doDisarmTarget_local.cell t _

theorem disarmTarget_shared (h : ¬ Shares c.targets t) :
    (disarmTarget t c).shared = c.shared := by
  rw [disarmTarget_of_not_shares h]
  exact doDisarmTarget_local.rest t _

end one

/-! ### Disarming the group -/

/-- The targets after the loop of `disarmSharedTargets`. -/
def disarmGroup (targets : Targets) : Targets := fun t =>
  if Shares targets t then (targets t).disarm t else targets t

/-- `disarmSharedTargets` before its update. -/
def disarmLoop (c : Context) : Context :=
  forSharedTargets doDisarmTarget
    (doDisarmSharedHardware { c with shared := { c.shared with dontRearm := true } })

theorem disarmSharedTargets_eq (c : Context) :
    disarmSharedTargets c = updateGlobalState (disarmLoop c) := rfl

@[simp] theorem disarmLoop_targets (c : Context) :
    (disarmLoop c).targets = disarmGroup c.targets := by
  funext t
  exact loop_targets doDisarmTarget_local _ t

@[simp] theorem disarmLoop_shared (c : Context) :
    (disarmLoop c).shared = { c.shared with dontRearm := true } :=
  loop_shared doDisarmTarget_local _

theorem disarmGroup_shares (targets : Targets) (t : TargetId) :
    Shares (disarmGroup targets) t ↔ Shares targets t := by
  unfold Shares disarmGroup
  split_ifs
  · rw [Target.disarm_mode]
  · rfl

/-- No arm is postponed in a group that was disarmed. -/
theorem Target.disarm_not_locked (t : TargetId) (x : Target) : (x.disarm t).state ≠ .locked := by
  unfold Target.disarm
  split_ifs with ha hl
  · cases t <;> simp [stopState]
  · simp
  · exact hl

/-! ### Immediate capture -/

/-- `immediateMemoryCapture` before its update, when the memory is ready. -/
def startCapture (c : Context) : Context :=
  (setTargetState .dram .armed (emit (.writeTriggerFire (singleMask .dram))
    (emit (.writeDramCaptureCommand true false) c))).modify .dram
      fun x => { x with dontRearm := true }

section capture
variable {c : Context}

@[simp] theorem startCapture_targets : (startCapture c).targets =
    update c.targets .dram { c.targets .dram with dontRearm := true, state := .armed } := by
  simp [startCapture]

@[simp] theorem startCapture_shared : (startCapture c).shared = c.shared := by
  simp [startCapture]

theorem startCapture_tame : Emits Event.Tame c (startCapture c) :=
  (((Emits.emit (e := .writeDramCaptureCommand true false) trivial).trans
    (.emit (e := .writeTriggerFire (singleMask .dram)) trivial)).trans
    (.setTargetState (t := .dram) (s := .armed) trivial)).trans (.modify .dram _)

theorem immediateMemoryCapture_of_ready (hcount : (c.targets .dram).lockCount = 0)
    (hidle : (c.targets .dram).state = .idle) :
    (immediateMemoryCapture c).2 =
      if Shares c.targets .dram then updateGlobalState (startCapture c) else startCapture c := by
  have hs : Shares (startCapture c).targets .dram ↔ Shares c.targets .dram := by simp [Shares]
  rw [immediateMemoryCapture, if_pos ⟨hcount, hidle⟩]
  change (if Shares (startCapture c).targets .dram then updateGlobalState (startCapture c)
    else startCapture c) = _
  simp only [hs]

theorem immediateMemoryCapture_of_not_ready
    (h : ¬ ((c.targets .dram).lockCount = 0 ∧ (c.targets .dram).state = .idle)) :
    (immediateMemoryCapture c).2 = emit (.logMessage "Ignoring memory capture while busy") c := by
  rw [immediateMemoryCapture, if_neg h]

end capture

/-! ### Locks -/

section locks
variable (t : TargetId) (c : Context)

/-- One more lock on `t`. -/
def takeLock : Context := c.modify t fun x => { x with lockCount := x.lockCount + 1 }

/-- One lock on `t` less, before what may follow from it. -/
def dropLock : Context := c.modify t fun x => { x with lockCount := x.lockCount - 1 }

@[simp] theorem takeLock_targets : (takeLock t c).targets =
    update c.targets t { c.targets t with lockCount := (c.targets t).lockCount + 1 } := rfl
@[simp] theorem takeLock_shared : (takeLock t c).shared = c.shared := rfl
@[simp] theorem takeLock_out : (takeLock t c).out = c.out := rfl
@[simp] theorem dropLock_targets : (dropLock t c).targets =
    update c.targets t { c.targets t with lockCount := (c.targets t).lockCount - 1 } := rfl
@[simp] theorem dropLock_shared : (dropLock t c).shared = c.shared := rfl
@[simp] theorem dropLock_out : (dropLock t c).out = c.out := rfl

theorem shares_dropLock {t : TargetId} {c : Context} (u : TargetId) :
    Shares (dropLock t c).targets u ↔ Shares c.targets u := by
  by_cases hu : u = t
  · subst hu; simp [Shares]
  · simp [Shares, hu]

/-- What `decrementTriggerLockCount` goes on to do. -/
theorem decrementTriggerLockCount_eq : decrementTriggerLockCount t c =
    if (c.targets t).lockCount ≤ 1 then
      if Shares c.targets t then updateGlobalState (dropLock t c)
      else if (c.targets t).state = .locked then armTarget t (dropLock t c)
      else dropLock t c
    else dropLock t c := by
  have hcount : ((dropLock t c).targets t).lockCount = 0 ↔ (c.targets t).lockCount ≤ 1 := by
    simp only [dropLock_targets, update_self]
    omega
  have hshares : ((dropLock t c).targets t).mode = .shared ↔ Shares c.targets t :=
    shares_dropLock t
  have hstate : ((dropLock t c).targets t).state = (c.targets t).state := by simp
  change (if ((dropLock t c).targets t).lockCount = 0 then
    processTargetUnlocked t (dropLock t c) else dropLock t c) = _
  simp only [processTargetUnlocked, hcount, hshares, hstate]

theorem lockTriggerReady_context (timeout : ℕ) : (lockTriggerReady t timeout c).2 =
    if (c.targets t).Ready ∨ timeout ≠ 0 then takeLock t c else c := by
  simp only [lockTriggerReady, Target.checkTriggerReady_iff]
  by_cases hr : (c.targets t).Ready
  · rw [if_pos hr, if_pos (.inl hr)]
    rfl
  · by_cases hz : timeout = 0
    · simp [hr, hz]
    · simp only [hr, hz, if_false, false_or, ne_eq, not_false_eq_true, if_true]
      rfl

/-- A pass of the wait loop that ends in an error. -/
def GivesUp (x : Target) (timedOut lastTick : Bool) (poll : Option String) : Prop :=
  ¬ x.Ready ∧ timedOut = true ∧ (lastTick = true ∨ poll ≠ none)

instance (x : Target) (timedOut lastTick : Bool) (poll : Option String) :
    Decidable (GivesUp x timedOut lastTick poll) :=
  inferInstanceAs (Decidable (_ ∧ _ ∧ _))

theorem waitTriggerReady_context (timedOut lastTick : Bool) (poll : Option String) :
    (waitTriggerReady t timedOut lastTick poll c).2 =
      if GivesUp (c.targets t) timedOut lastTick poll then decrementTriggerLockCount t c
      else c := by
  simp only [waitTriggerReady, Target.checkTriggerReady_iff, GivesUp]
  by_cases hr : (c.targets t).Ready
  · simp [hr]
  · cases timedOut with
    | false => simp [hr]
    | true =>
        cases lastTick with
        | true => simp [hr]
        | false => cases poll <;> simp [hr]

end locks

end Mbf.Trigger
