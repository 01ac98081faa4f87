import Mbf.Trigger.System
import Mbf.Trigger.Effects

/-! # Soft triggers in free run mode

A target in `MODE_FREE_RUN` is to be rearmed and triggered by itself: the soft trigger belongs right
behind the write that rearms the target (`FreeRunLaw`).  The source writes it at every completion,
whether or not the target could be rearmed then, and never where a postponed arm is made up for; so
a step keeps the law exactly if it is neither (`Prompt`).

All other calls are `Calm`: no soft trigger, and no arm of a target in free run mode. -/

namespace Mbf.Trigger

open Context Function

variable {Client : Type} [DecidableEq Client]

/-! ### The law -/

/-- The modes of the targets. -/
def modes (targets : Targets) : TargetId → TargetMode := fun t => (targets t).mode

omit [DecidableEq Client] in
/-- The input is not a user's request to arm. -/
def Op.isAutomatic : Op Client → Bool
  | .arm _ => false
  | .sharedArm => false
  | _ => true

omit [DecidableEq Client] in
/-- The input gives up a lock of `t`, held or waited for. -/
def Op.Releases (s : State Client) (t : TargetId) : Op Client → Prop
  | .unlock _ u => u = t
  | .wake _ u timedOut lastTick poll => u = t ∧ GivesUp (s.targets t) timedOut lastTick poll
  | _ => False

omit [DecidableEq Client] in
/-- A target in free run mode completes unlocked and may be rearmed, or its postponed arm is due with
the release of its last lock. -/
def Rearmed (s : State Client) (t : TargetId) (op : Op Client) : Prop :=
  (s.targets t).mode = .freeRun ∧
    (op = .complete t ∧ (s.targets t).state = .busy ∧ (s.targets t).dontRearm = false ∧
        (s.targets t).lockCount = 0 ∨
      op.Releases s t ∧ (s.targets t).state = .locked ∧ (s.targets t).lockCount ≤ 1)

omit [DecidableEq Client] in
/-- The arms of targets in free run mode, before and after, that no user has asked for are those of
`Rearmed`. -/
def RearmsFree (s : State Client) (op : Op Client) (out : List Event) : Prop :=
  op.isAutomatic = true → ∀ t, modes s.targets t = .freeRun →
    modes (op.effect s.enter).targets t = .freeRun →
      ((∃ e ∈ out, e.arms t = true) ↔ Rearmed s t op)

omit [DecidableEq Client] in
/-- A soft trigger is written right after each automatic arm of a target in free run mode, with the
target armed, and at no other time. -/
structure FreeRunLaw (s : State Client) (op : Op Client) (out : List Event) : Prop where
  triggers : ∀ before after, out = before ++ .writeTriggerSoftTrigger :: after →
    ∃ t earlier, Rearmed s t op ∧ before = earlier ++ [.writeTriggerArm (getTargetMask t)] ∧
      ((op.effect s.enter).targets t).state = .armed
  triggered : ∀ t, Rearmed s t op → .writeTriggerSoftTrigger ∈ out

omit [DecidableEq Client] in
/-- The condition: no target in free run mode that is to be rearmed completes while it is locked,
and none has a postponed arm when its last lock is released. -/
structure Prompt (s : State Client) (op : Op Client) : Prop where
  complete : ∀ t, op = .complete t → (s.targets t).mode = .freeRun → (s.targets t).state = .busy →
    (s.targets t).dontRearm = false → (s.targets t).lockCount = 0
  release : ∀ t, op.Releases s t → (s.targets t).mode = .freeRun →
    (s.targets t).state = .locked → 1 < (s.targets t).lockCount

/-! ### Calm calls -/

/-- Neither a soft trigger, nor an arm of a target in free run mode. -/
structure Event.Calm (modes : TargetId → TargetMode) (e : Event) : Prop where
  notSoft : e ≠ .writeTriggerSoftTrigger
  arms : ∀ t, modes t = .freeRun → e.arms t = false

section calm
variable {m : TargetId → TargetMode} {c : Context} {t : TargetId} {x : Target}

theorem calm_targetState (s : TargetState) : (Event.targetState t s).Calm m :=
  ⟨nofun, fun _ _ => rfl⟩

theorem calm_sharedState (s : SharedState) : (Event.sharedState s).Calm m :=
  ⟨nofun, fun _ _ => rfl⟩

theorem calm_logMessage (text : String) : (Event.logMessage text).Calm m :=
  ⟨nofun, fun _ _ => rfl⟩

theorem calm_prepareEvent : (prepareEvent t).Calm m := by
  cases t <;> exact ⟨nofun, fun _ _ => rfl⟩

theorem calm_stopEvents : ∀ e ∈ stopEvents t, e.Calm m := by
  cases t with
  | seq0 => simp [stopEvents]
  | seq1 => simp [stopEvents]
  | dram =>
      intro e he
      rw [List.mem_singleton.mp he]
      exact ⟨fun h => (by cases h), fun _ _ => rfl⟩

theorem calm_armOut : ∀ e ∈ armOut t x, e.Calm m := by
  intro e he
  unfold armOut at he
  split_ifs at he
  · rcases List.mem_pair.mp he with rfl | rfl
    · exact calm_prepareEvent
    · exact calm_targetState _
  · cases he
  · rw [List.mem_singleton.mp he]
    exact calm_targetState _
  · cases he

theorem calm_disarmOut : ∀ e ∈ disarmOut t x, e.Calm m := by
  intro e he
  unfold disarmOut at he
  split_ifs at he
  · rcases List.mem_append.mp he with he | he
    · exact calm_stopEvents e he
    · rw [List.mem_singleton.mp he]
      exact calm_targetState _
  · rw [List.append_nil] at he
    exact calm_stopEvents e he
  · rw [List.mem_singleton.mp he]
    exact calm_targetState _
  · cases he

theorem calm_postponeOut : ∀ e ∈ postponeOut t x, e.Calm m := by
  intro e he
  unfold postponeOut at he
  split_ifs at he
  · rw [List.mem_singleton.mp he]
    exact calm_targetState _
  · cases he

/-- A private arm of a target not in free run mode is calm. -/
theorem calm_writeTriggerArm (ht : m t ≠ .freeRun) :
    (Event.writeTriggerArm (getTargetMask t)).Calm m := by
  refine ⟨nofun, fun u hu => ?_⟩
  have hne : u ≠ t := by
    rintro rfl
    exact ht hu
  simp [Event.arms, getTargetMask, singleMask, hne]

/-! ### Calm functions -/

theorem calm_refresh : Emits (Event.Calm m) c (refresh c) := .setGlobalState (calm_sharedState _)

theorem calm_armSharedTargets : Emits (Event.Calm (modes c.targets)) c (armSharedTargets c) := by
  cases armSharedTargets_cases c with
  | refused _ _ _ out =>
      obtain ⟨text, out⟩ := out
      refine ⟨_, out, fun e he => ?_⟩
      rw [List.mem_singleton.mp he]
      exact calm_logMessage text
  | postponed _ _ _ _ out =>
      refine ⟨_, out.trans (List.append_assoc ..), fun e he => ?_⟩
      rcases List.mem_append.mp he with he | he
      · obtain ⟨t, -, he⟩ := mem_loopOut.mp he
        exact calm_postponeOut e he
      · split_ifs at he
        · cases he
        · rw [List.mem_singleton.mp he]
          exact calm_sharedState _
  | armed _ _ _ _ _ out =>
      refine ⟨_, out.trans (List.append_assoc ..), fun e he => ?_⟩
      rcases List.mem_append.mp he with he | he
      · obtain ⟨t, -, he⟩ := mem_loopOut.mp he
        exact calm_armOut e he
      · rcases List.mem_pair.mp he with rfl | rfl
        · refine ⟨nofun, fun t ht => ?_⟩
          have hmode : (c.targets t).mode = .freeRun := ht
          simp [Event.arms, getSharedMask, hmode]
        · exact calm_sharedState _
  | nothing _ _ _ out => exact .of_out out

theorem calm_updateGlobalState : Emits (Event.Calm (modes c.targets)) c (updateGlobalState c) := by
  by_cases hr : Rearms c.toGlobals
  · rw [updateGlobalState_of_rearms hr]
    have harm := calm_armSharedTargets (c := refresh c)
    rw [refresh_targets] at harm
    exact calm_refresh.trans harm
  · rw [updateGlobalState_of_not_rearms hr]
    exact calm_refresh

/-- The calls of a private arm. -/
theorem armTarget_out (h : ¬ Shares c.targets t) : (armTarget t c).out = c.out ++
    (armOut t (c.targets t) ++ if (c.targets t).Ready ∧ (c.targets t).lockCount = 0 then
      [.writeTriggerArm (getTargetMask t)] else []) := by
  have hlocal : (doArmTarget t c).2.out = c.out ++ armOut t (c.targets t) :=
    doArmTarget_local.log t c
  rw [armTarget_of_not_shares h, doArmTarget_fst]
  simp only [decide_eq_true_eq]
  split_ifs
  · simp [doArmTargetHardware, hlocal]
  · simp [hlocal]

theorem calm_armTarget (hm : modes c.targets = m) (ht : m t ≠ .freeRun) :
    Emits (Event.Calm m) c (armTarget t c) := by
  by_cases hshares : Shares c.targets t
  · rw [armTarget_of_shares hshares, ← hm]
    exact calm_armSharedTargets
  · refine ⟨_, armTarget_out hshares, fun e he => ?_⟩
    rcases List.mem_append.mp he with he | he
    · exact calm_armOut e he
    · split_ifs at he
      · rw [List.mem_singleton.mp he]
        exact calm_writeTriggerArm ht
      · cases he

theorem modes_disarmGroup (targets : Targets) : modes (disarmGroup targets) = modes targets := by
  funext t
  unfold modes disarmGroup
  split_ifs
  · exact Target.disarm_mode ..
  · rfl

theorem calm_disarmSharedTargets :
    Emits (Event.Calm (modes c.targets)) c (disarmSharedTargets c) := by
  have hloop : Emits (Event.Calm (modes c.targets)) c (disarmLoop c) := by
    have hstart : Emits (Event.Calm (modes c.targets)) c
        (doDisarmSharedHardware { c with shared := { c.shared with dontRearm := true } }) :=
      ⟨[.writeTriggerDisarm (getSharedMask c.targets)], rfl,
        List.forall_mem_singleton.mpr ⟨nofun, fun _ _ => rfl⟩⟩
    unfold disarmLoop
    exact hstart.trans (.of_loop doDisarmTarget_local fun _ _ => calm_disarmOut)
  have hupdate := calm_updateGlobalState (c := disarmLoop c)
  rw [disarmLoop_targets, modes_disarmGroup] at hupdate
  rw [disarmSharedTargets_eq]
  exact hloop.trans hupdate

theorem calm_disarmTarget : Emits (Event.Calm (modes c.targets)) c (disarmTarget t c) := by
  by_cases hshares : Shares c.targets t
  · rw [disarmTarget_of_shares hshares]
    exact calm_disarmSharedTargets
  · rw [disarmTarget_of_not_shares hshares]
    exact (Emits.emit (e := .writeTriggerDisarm (getTargetMask t)) ⟨nofun, fun _ _ => rfl⟩).trans
      (.of_local doDisarmTarget_local calm_disarmOut)

/-- An update that follows a change of anything but the modes. -/
theorem Emits.calm_update {c' : Context} (h : Emits (Event.Calm (modes c.targets)) c c')
    (hm : modes c'.targets = modes c.targets) :
    Emits (Event.Calm (modes c.targets)) c (updateGlobalState c') := by
  rw [← hm] at h ⊢
  exact h.trans calm_updateGlobalState

theorem modes_update (targets : Targets) (x : Target) (h : x.mode = (targets t).mode) :
    modes (update targets t x) = modes targets := by
  funext u
  by_cases hu : u = t
  · subst hu
    simpa [modes] using h
  · simp [modes, hu]

theorem calm_triggerTargetTrigger :
    Emits (Event.Calm (modes c.targets)) c (triggerTargetTrigger t c) := by
  have hbusy : Emits (Event.Calm (modes c.targets)) c (setTargetState t .busy c) :=
    .setTargetState (calm_targetState _)
  unfold triggerTargetTrigger
  dsimp only
  split_ifs
  · refine hbusy.calm_update ?_
    rw [setTargetState_targets]
    exact modes_update _ _ rfl
  · exact hbusy
  · exact .emit (calm_logMessage _)

theorem calm_immediateMemoryCapture :
    Emits (Event.Calm (modes c.targets)) c (immediateMemoryCapture c).2 := by
  have hstart : Emits (Event.Calm (modes c.targets)) c (startCapture c) :=
    (((Emits.emit (e := .writeDramCaptureCommand true false) ⟨nofun, fun _ _ => rfl⟩).trans
      (.emit (e := .writeTriggerFire (singleMask .dram)) ⟨nofun, fun _ _ => rfl⟩)).trans
      (.setTargetState (t := .dram) (s := .armed) (calm_targetState _))).trans (.modify .dram _)
  by_cases hready : (c.targets .dram).lockCount = 0 ∧ (c.targets .dram).state = .idle
  · rw [immediateMemoryCapture_of_ready hready.1 hready.2]
    split_ifs
    · refine hstart.calm_update ?_
      rw [startCapture_targets]
      exact modes_update _ _ rfl
    · exact hstart
  · rw [immediateMemoryCapture_of_not_ready hready]
    exact .emit (calm_logMessage _)

theorem modes_dropLock : modes (dropLock t c).targets = modes c.targets := by
  rw [dropLock_targets]
  exact modes_update _ _ rfl

/-- Giving up a lock is calm, unless it makes up for a postponed arm in free run mode. -/
theorem calm_decrementTriggerLockCount
    (h : (c.targets t).lockCount ≤ 1 → (c.targets t).state = .locked → modes c.targets t ≠ .freeRun) :
    Emits (Event.Calm (modes c.targets)) c (decrementTriggerLockCount t c) := by
  have hdrop : Emits (Event.Calm (modes c.targets)) c (dropLock t c) := .modify t _
  rw [decrementTriggerLockCount_eq]
  split_ifs with hlast hshares hlocked
  · exact hdrop.calm_update modes_dropLock
  · exact hdrop.trans (calm_armTarget modes_dropLock (h hlast hlocked))
  · exact hdrop
  · exact hdrop

/-- A completion is calm, unless its target is to be rearmed in free run mode. -/
theorem calm_triggerTargetComplete
    (h : (c.targets t).state = .busy → (c.targets t).dontRearm = false →
      modes c.targets t ≠ .freeRun) :
    Emits (Event.Calm (modes c.targets)) c (triggerTargetComplete t c) := by
  have hidle : Emits (Event.Calm (modes c.targets)) c (setTargetState t .idle c) :=
    .setTargetState (calm_targetState _)
  have hmodes : modes (setTargetState t .idle c).targets = modes c.targets := by
    rw [setTargetState_targets]
    exact modes_update _ _ rfl
  have hmode : ((setTargetState t .idle c).targets t).mode = (c.targets t).mode := congrFun hmodes t
  have hrearm : ((setTargetState t .idle c).targets t).dontRearm = (c.targets t).dontRearm := by
    simp
  unfold triggerTargetComplete
  dsimp only
  rw [hmode, hrearm]
  split_ifs with hbusy hshared hagain hfree
  · exact (hidle.calm_update hmodes).trans (.emit ⟨nofun, fun _ _ => rfl⟩)
  · refine (hidle.trans (calm_armTarget hmodes ?_)).trans (.emit ⟨nofun, fun _ _ => rfl⟩)
    intro hfree
    have hfree : (c.targets t).mode = .freeRun := hfree
    rw [hagain.1] at hfree
    cases hfree
  · exact absurd hfree.1 (h hbusy hfree.2)
  · exact hidle.trans (.emit ⟨nofun, fun _ _ => rfl⟩)
  · exact .emit (calm_logMessage _)

end calm

/-! ### One step -/

theorem Emits.mem {p : Event → Prop} {c c' : Context} (h : Emits p c c') (hout : c.out = []) :
    ∀ e ∈ c'.out, p e := by
  obtain ⟨es, hes, hp⟩ := h
  rw [hes, hout]
  exact hp

section step
variable {s : State Client} {op : Op Client} {out : List Event} {t : TargetId}

omit [DecidableEq Client] in
theorem freeRunLaw_of_quiet (hsoft : .writeTriggerSoftTrigger ∉ out) (hnot : ∀ t, ¬ Rearmed s t op) :
    FreeRunLaw s op out where
  triggers before after hout := by
    rw [hout] at hsoft
    simp at hsoft
  triggered t ht := absurd ht (hnot t)

omit [DecidableEq Client] in
theorem law_of_calm {m : TargetId → TargetMode} (hm : ∀ t, modes s.targets t = .freeRun →
      modes (op.effect s.enter).targets t = .freeRun → m t = .freeRun)
    (hcalm : ∀ e ∈ out, e.Calm m) (hnot : ∀ t, ¬ Rearmed s t op) :
    RearmsFree s op out ∧ FreeRunLaw s op out := by
  constructor
  · intro _ t hbefore hafter
    refine iff_of_false ?_ (hnot t)
    rintro ⟨e, he, harms⟩
    rw [(hcalm e he).arms t (hm t hbefore hafter)] at harms
    cases harms
  · refine freeRunLaw_of_quiet (fun hsoft => ?_) hnot
    exact (hcalm _ hsoft).notSoft rfl

omit [DecidableEq Client] in
theorem not_rearmed (hcomplete : ∀ t, op ≠ .complete t) (hrelease : ∀ t, ¬ op.Releases s t) :
    ¬ Rearmed s t op := by
  rintro ⟨-, ⟨rfl, -⟩ | ⟨h, -⟩⟩
  · exact hcomplete t rfl
  · exact hrelease t h

omit [DecidableEq Client] in
theorem prompt_of_other (hcomplete : ∀ t, op ≠ .complete t) (hrelease : ∀ t, ¬ op.Releases s t) :
    Prompt s op where
  complete t h := absurd h (hcomplete t)
  release t h := absurd h (hrelease t)

omit [DecidableEq Client] in
/-- A calm input that is neither a completion nor the release of a lock. -/
theorem law_of_other {m : TargetId → TargetMode} (hm : ∀ t, modes s.targets t = .freeRun →
      modes (op.effect s.enter).targets t = .freeRun → m t = .freeRun)
    (hcalm : ∀ e ∈ out, e.Calm m) (hcomplete : ∀ t, op ≠ .complete t)
    (hrelease : ∀ t, ¬ op.Releases s t) :
    RearmsFree s op out ∧ (FreeRunLaw s op out ↔ Prompt s op) := by
  obtain ⟨hrearms, hlaw⟩ := law_of_calm hm hcalm fun t => not_rearmed hcomplete hrelease
  exact ⟨hrearms, iff_of_true hlaw (prompt_of_other hcomplete hrelease)⟩

/-- The calls of a completion in free run mode. -/
theorem complete_out {c : Context} (hbusy : (c.targets t).state = .busy)
    (hfree : (c.targets t).mode = .freeRun) (hrearm : (c.targets t).dontRearm = false) :
    (triggerTargetComplete t c).out = (armTarget t (setTargetState t .idle c)).out ++
      [.writeTriggerSoftTrigger, .broadcast] ∧
    (triggerTargetComplete t c).targets = (armTarget t (setTargetState t .idle c)).targets := by
  have hmode : ((setTargetState t .idle c).targets t).mode = .freeRun := by simpa using hfree
  have hrearm' : ((setTargetState t .idle c).targets t).dontRearm = false := by simpa using hrearm
  unfold triggerTargetComplete
  dsimp only
  rw [if_pos hbusy, hmode, hrearm', if_neg (by simp), if_neg (by simp), if_pos (by simp)]
  simp

omit [DecidableEq Client] in
/-- The only arm of a private arm that succeeds. -/
theorem arms_iff {u : TargetId} {x : Target} {m : TargetId → TargetMode} {tail : List Event}
    (hu : m u = .freeRun) (htail : ∀ e ∈ tail, e.arms u = false) {head : List Event}
    (hhead : ∀ e ∈ head, e.Calm m) :
    (∃ e ∈ head ++ (armOut t x ++ [.writeTriggerArm (getTargetMask t)]) ++ tail, e.arms u = true) ↔
      u = t := by
  constructor
  · rintro ⟨e, he, harms⟩
    simp only [List.mem_append, List.mem_singleton] at he
    rcases he with (he | he | rfl) | he
    · rw [(hhead e he).arms u hu] at harms
      cases harms
    · rw [(calm_armOut (m := m) e he).arms u hu] at harms
      cases harms
    · simpa [Event.arms, getTargetMask, singleMask] using harms
    · rw [htail e he] at harms
      cases harms
  · rintro rfl
    exact ⟨.writeTriggerArm (getTargetMask u), by simp, by simp [Event.arms, getTargetMask,
      singleMask]⟩

omit [DecidableEq Client] in
/-- A completion of a target in free run mode that is to be rearmed. -/
theorem law_complete (hfree : (s.targets t).mode = .freeRun) (hbusy : (s.targets t).state = .busy)
    (hrearm : (s.targets t).dontRearm = false) :
    RearmsFree s (.complete t) (triggerTargetComplete t s.enter).out ∧
      (FreeRunLaw s (.complete t) (triggerTargetComplete t s.enter).out ↔
        (s.targets t).lockCount = 0) := by
  obtain ⟨hout, htargets⟩ := complete_out (c := s.enter) hbusy hfree hrearm
  have hidle : (setTargetState t .idle s.enter).targets t = { s.targets t with state := .idle } := by
    simp [State.enter]
  have hshares : ¬ Shares (setTargetState t .idle s.enter).targets t := by
    unfold Shares
    rw [hidle]
    simp [hfree]
  have hfirst : (setTargetState t .idle s.enter).out = [.targetState t .idle] := by
    simp [State.enter, hbusy]
  have hready : Target.Ready { s.targets t with state := .idle } := .inl rfl
  have hfirstCalm : ∀ e ∈ [Event.targetState t .idle], e.Calm (modes s.targets) := by
    intro e he
    rw [List.mem_singleton.mp he]
    exact calm_targetState _
  have harm := armTarget_out hshares
  rw [hfirst, hidle] at harm
  rw [hout, harm]
  by_cases hcount : (s.targets t).lockCount = 0
  · have hnow : Rearmed s t (.complete t) := ⟨hfree, .inl ⟨rfl, hbusy, hrearm, hcount⟩⟩
    rw [if_pos ⟨hready, hcount⟩]
    constructor
    · intro _ u hu _
      refine (arms_iff hu (fun e he => ?_) hfirstCalm).trans ?_
      · rcases List.mem_pair.mp he with rfl | rfl <;> rfl
      · constructor
        · rintro rfl
          exact hnow
        · rintro ⟨-, ⟨h, -⟩ | ⟨h, -⟩⟩
          · exact (Op.complete.inj h).symm
          · exact h.elim
    · refine iff_of_true ⟨fun before after hsplit => ?_, fun u _ => by simp⟩ hcount
      have hbefore : .writeTriggerSoftTrigger ∉
          [Event.targetState t .idle] ++ (armOut t { s.targets t with state := .idle } ++
            [.writeTriggerArm (getTargetMask t)]) := by
        intro hmem
        simp only [List.mem_append, List.mem_singleton, reduceCtorEq, false_or, or_false] at hmem
        exact (calm_armOut (m := modes s.targets) _ hmem).notSoft rfl
      have heq := (List.append_cons_inj_of_notMem hbefore (by simp)).mp hsplit
      refine ⟨t, [.targetState t .idle] ++ armOut t { s.targets t with state := .idle }, hnow, ?_, ?_⟩
      · rw [← heq.1, List.append_assoc]
      · change ((triggerTargetComplete t s.enter).targets t).state = .armed
        rw [htargets, armTarget_targets hshares, update_self, hidle]
        unfold Target.arm
        rw [if_pos hready, if_pos hcount]
  · have hnever : ∀ u, ¬ Rearmed s u (.complete t) := by
      rintro u ⟨-, ⟨h, -, -, hzero⟩ | ⟨h, -⟩⟩
      · cases Op.complete.inj h
        exact hcount hzero
      · exact h.elim
    rw [if_neg fun h => hcount h.2, List.append_nil]
    constructor
    · intro _ u hu _
      refine iff_of_false ?_ (hnever u)
      rintro ⟨e, he, harms⟩
      simp only [List.mem_append, List.mem_cons, List.not_mem_nil, or_false] at he
      rcases he with (he | he) | rfl | rfl
      · subst he
        cases harms
      · rw [(calm_armOut (m := modes s.targets) e he).arms u hu] at harms
        cases harms
      · cases harms
      · cases harms
    · refine iff_of_false (fun hlaw => ?_) hcount
      obtain ⟨u, -, hu, -⟩ := hlaw.triggers _ _ rfl
      exact hnever u hu

omit [DecidableEq Client] in
/-- The release of the last lock of a target in free run mode whose arm was postponed. -/
theorem law_postponed {k : Client} (hfree : (s.targets t).mode = .freeRun)
    (hlocked : (s.targets t).state = .locked) (hcount : (s.targets t).lockCount ≤ 1) :
    RearmsFree s (.unlock k t) (unlockTriggerReady t s.enter).out ∧
      ¬ FreeRunLaw s (.unlock k t) (unlockTriggerReady t s.enter).out := by
  have hshares : ¬ Shares s.enter.targets t := by
    intro h
    exact absurd (hfree.symm.trans h) (by decide)
  have hnow : Rearmed s t (.unlock k t) := ⟨hfree, .inr ⟨rfl, hlocked, hcount⟩⟩
  have heq : unlockTriggerReady t s.enter = armTarget t (dropLock t s.enter) := by
    unfold unlockTriggerReady
    rw [decrementTriggerLockCount_eq, if_pos (show (s.enter.targets t).lockCount ≤ 1 from hcount),
      if_neg hshares, if_pos (show (s.enter.targets t).state = .locked from hlocked)]
  have hdropped : (dropLock t s.enter).targets t =
      { s.targets t with lockCount := (s.targets t).lockCount - 1 } := by
    simp [State.enter]
  have hready : Target.Ready { s.targets t with lockCount := (s.targets t).lockCount - 1 } :=
    .inr hlocked
  have harm := armTarget_out (t := t) (c := dropLock t s.enter) (by rwa [shares_dropLock])
  rw [hdropped, if_pos ⟨hready, by simp only; omega⟩] at harm
  have hout : (unlockTriggerReady t s.enter).out =
      [] ++ (armOut t { s.targets t with lockCount := (s.targets t).lockCount - 1 } ++
        [.writeTriggerArm (getTargetMask t)]) ++ [] := by
    rw [heq, harm]
    simp [State.enter]
  rw [hout]
  constructor
  · intro _ u hu _
    refine (arms_iff hu (fun e he => by cases he) (fun e he => by cases he)).trans ?_
    constructor
    · rintro rfl
      exact hnow
    · rintro ⟨-, ⟨h, -⟩ | ⟨h, -⟩⟩
      · cases h
      · exact h.symm
  · intro hlaw
    have hsoft := hlaw.triggered t hnow
    simp only [List.nil_append, List.append_nil, List.mem_append, List.mem_singleton,
      reduceCtorEq, or_false] at hsoft
    exact (calm_armOut (m := modes s.targets) _ hsoft).notSoft rfl

omit [DecidableEq Client] in
/-- What a step does, and when it keeps the law. -/
theorem step_law (s : State Client) (op : Op Client) :
    RearmsFree s op (op.effect s.enter).out ∧
      (FreeRunLaw s op (op.effect s.enter).out ↔ Prompt s op) := by
  have hmem : ∀ {c : Context}, Emits (Event.Calm (modes s.targets)) s.enter c →
      ∀ e ∈ c.out, e.Calm (modes s.targets) := fun h => h.mem rfl
  have hsame : ∀ t, modes s.targets t = .freeRun →
      modes (op.effect s.enter).targets t = .freeRun → modes s.targets t = .freeRun :=
    fun _ h _ => h
  cases op with
  | arm t =>
      refine ⟨nofun, iff_of_true (freeRunLaw_of_quiet ?_ fun u => not_rearmed nofun fun _ => id)
        (prompt_of_other nofun fun _ => id)⟩
      intro hsoft
      change _ ∈ (armTarget t s.enter).out at hsoft
      by_cases hshares : Shares s.enter.targets t
      · rw [armTarget_of_shares hshares] at hsoft
        exact (hmem calm_armSharedTargets _ hsoft).notSoft rfl
      · rw [armTarget_out hshares, show s.enter.out = [] from rfl, List.nil_append] at hsoft
        rcases List.mem_append.mp hsoft with hsoft | hsoft
        · exact (calm_armOut (m := modes s.targets) _ hsoft).notSoft rfl
        · split_ifs at hsoft
          · simp at hsoft
          · cases hsoft
  | disarm t => exact law_of_other hsame (hmem calm_disarmTarget) nofun fun _ => id
  | setMode t mode =>
      refine law_of_other (m := modes (update s.targets t { s.targets t with mode := mode })) ?_ ?_
        nofun fun _ => id
      · intro u _ hafter
        by_contra hnot
        have hshares : ¬ Shares (triggerTargetSetMode t mode s.enter).targets u := by
          intro h
          exact absurd (hafter.symm.trans h) (by decide)
        have houtside : ¬ Shares (s.enter.modify t fun x => { x with mode := mode }).targets u :=
          fun h => hshares ((shares_updateGlobalState _ u).mpr h)
        have heq := updateGlobalState_outside houtside
        exact hnot ((congrArg Target.mode heq).symm.trans hafter)
      · have hupdate := calm_updateGlobalState (c := s.enter.modify t fun x => { x with mode := mode })
        exact (hupdate.trans (.emit (e := .sharedTargets _) ⟨nofun, fun _ _ => rfl⟩)).mem rfl
  | sharedArm => exact law_of_other hsame (hmem calm_armSharedTargets) nofun fun _ => id
  | sharedDisarm =>
      rw [Op.effect] at hsame ⊢
      exact law_of_other hsame (hmem calm_disarmSharedTargets) nofun fun _ => id
  | sharedSetMode mode => exact law_of_other hsame (hmem (.of_out rfl)) nofun fun _ => id
  | trigger t => exact law_of_other hsame (hmem calm_triggerTargetTrigger) nofun fun _ => id
  | complete t =>
      by_cases hhot : (s.targets t).mode = .freeRun ∧ (s.targets t).state = .busy ∧
          (s.targets t).dontRearm = false
      · obtain ⟨hfree, hbusy, hrearm⟩ := hhot
        obtain ⟨hrearms, hlaw⟩ := law_complete hfree hbusy hrearm
        refine ⟨hrearms, hlaw.trans ⟨fun hcount => ?_, fun h => h.complete t rfl hfree hbusy hrearm⟩⟩
        refine ⟨fun u hu _ _ _ => ?_, fun u hu => hu.elim⟩
        cases Op.complete.inj hu
        exact hcount
      · have hcalm := calm_triggerTargetComplete (c := s.enter) (t := t)
          fun hbusy hrearm hfree => hhot ⟨hfree, hbusy, hrearm⟩
        obtain ⟨hrearms, hlaw⟩ := law_of_calm hsame (hmem hcalm) fun u => by
          rintro ⟨hfree, ⟨h, hbusy, hrearm, -⟩ | ⟨h, -⟩⟩
          · cases Op.complete.inj h
            exact hhot ⟨hfree, hbusy, hrearm⟩
          · exact h
        refine ⟨hrearms, iff_of_true hlaw ⟨fun u hu hfree hbusy hrearm => ?_, fun u hu => hu.elim⟩⟩
        cases Op.complete.inj hu
        exact absurd ⟨hfree, hbusy, hrearm⟩ hhot
  | immediateCapture =>
      exact law_of_other hsame (hmem calm_immediateMemoryCapture) nofun fun _ => id
  | lock k t timeout =>
      refine law_of_other hsame (hmem (.of_out ?_)) nofun fun _ => id
      change (lockTriggerReady t timeout s.enter).2.out = _
      rw [lockTriggerReady_context]
      split_ifs <;> rfl
  | wake k t timedOut lastTick poll =>
      have hrelease : ∀ u, (Op.wake k t timedOut lastTick poll).Releases s u →
          (s.targets u).state ≠ .locked := by
        rintro u ⟨rfl, hgives⟩ hlocked
        exact hgives.1 (.inr hlocked)
      have hcalm : Emits (Event.Calm (modes s.targets)) s.enter
          (waitTriggerReady t timedOut lastTick poll s.enter).2 := by
        rw [waitTriggerReady_context]
        split_ifs with hgives
        · exact calm_decrementTriggerLockCount fun _ hlocked => absurd (.inr hlocked) hgives.1
        · exact .refl _
      obtain ⟨hrearms, hlaw⟩ := law_of_calm hsame (hmem hcalm) fun u => by
        rintro ⟨-, ⟨h, -⟩ | ⟨h, hlocked, -⟩⟩
        · cases h
        · exact hrelease u h hlocked
      exact ⟨hrearms, iff_of_true hlaw ⟨nofun, fun u hu _ hlocked => absurd hlocked (hrelease u hu)⟩⟩
  | unlock k t =>
      by_cases hhot : (s.targets t).mode = .freeRun ∧ (s.targets t).state = .locked ∧
          (s.targets t).lockCount ≤ 1
      · obtain ⟨hfree, hlocked, hcount⟩ := hhot
        obtain ⟨hrearms, hlaw⟩ := law_postponed (k := k) hfree hlocked hcount
        refine ⟨hrearms, iff_of_false hlaw fun h => ?_⟩
        have := h.release t rfl hfree hlocked
        omega
      · have hcalm := calm_decrementTriggerLockCount (c := s.enter) (t := t)
          fun hcount hlocked hfree => hhot ⟨hfree, hlocked, hcount⟩
        obtain ⟨hrearms, hlaw⟩ := law_of_calm hsame (hmem hcalm) fun u => by
          rintro ⟨hfree, ⟨h, -⟩ | ⟨h, hlocked, hcount⟩⟩
          · cases h
          · cases (show t = u from h)
            exact hhot ⟨hfree, hlocked, hcount⟩
        refine ⟨hrearms, iff_of_true hlaw ⟨nofun, fun u hu hfree hlocked => ?_⟩⟩
        cases (show t = u from hu)
        by_contra hnot
        exact hhot ⟨hfree, hlocked, by omega⟩

end step

/-! ### Runs -/

/-- In every run, the automatic arms in free run mode are those of `Rearmed`, and each comes with its
soft trigger, and no soft trigger comes without, exactly if every step is prompt. -/
theorem free_run_law_iff {s₀ s : State Client} {l : List (State Client × Op Client × List Event)}
    (hp : Runs.Path (runs Client) s₀ l s) :
    (∀ x ∈ l, RearmsFree x.1 x.2.1 x.2.2) ∧
      ((∀ x ∈ l, FreeRunLaw x.1 x.2.1 x.2.2) ↔ ∀ x ∈ l, Prompt x.1 x.2.1) := by
  have hstep : ∀ x ∈ l, RearmsFree x.1 x.2.1 x.2.2 ∧
      (FreeRunLaw x.1 x.2.1 x.2.2 ↔ Prompt x.1 x.2.1) := by
    induction hp with
    | nil s => simp
    | @cons s t u a l h _ ih =>
        intro x hx
        rcases List.mem_cons.mp hx with rfl | hx
        · rw [(step_effect h).2]
          exact step_law s a.1
        · exact ih x hx
  refine ⟨fun x hx => (hstep x hx).1, fun h x hx => ?_, fun h x hx => ?_⟩
  · exact (hstep x hx).2.mp (h x hx)
  · exact (hstep x hx).2.mpr (h x hx)

/-- The axis 0 sequencer in free run mode, the other targets armed by hand. -/
def freeRunBoot : State ℕ :=
  .boot (fun t => if t = .seq0 then .freeRun else .oneShot) false

/-- A free run target goes round once. -/
def freeRunOnce : List (Op ℕ) := [.arm .seq0, .trigger .seq0, .complete .seq0]

theorem freeRunOnce_unlocked : ∀ x ∈ (machine ℕ).trace freeRunBoot freeRunOnce, ∀ t,
    (x.1.targets t).lockCount = 0 := by
  have hall : (((machine ℕ).trace freeRunBoot freeRunOnce).all fun x =>
      allTargets.all fun t => decide ((x.1.targets t).lockCount = 0)) = true := by
    decide
  intro x hx t
  exact of_decide_eq_true (List.all_eq_true.mp (List.all_eq_true.mp hall x hx) t (mem_allTargets t))

/-- It is rearmed and triggered. -/
theorem free_run_law_once :
    (∀ x ∈ (machine ℕ).trace freeRunBoot freeRunOnce, FreeRunLaw x.1 x.2.1 x.2.2) ∧
      ∃ x ∈ (machine ℕ).trace freeRunBoot freeRunOnce, .writeTriggerSoftTrigger ∈ x.2.2 := by
  have hprompt : ∀ x ∈ (machine ℕ).trace freeRunBoot freeRunOnce, Prompt x.1 x.2.1 := by
    intro x hx
    refine ⟨fun t _ _ _ _ => freeRunOnce_unlocked x hx t, fun t hrelease => ?_⟩
    have hop := (machine ℕ).mem_trace hx
    simp only [freeRunOnce, List.mem_cons, List.not_mem_nil, or_false] at hop
    rcases hop with hop | hop | hop <;>
      · rw [hop] at hrelease
        exact hrelease.elim
  have hlaw := (free_run_law_iff ((machine ℕ).path_trace freeRunBoot freeRunOnce)).2.mpr hprompt
  refine ⟨hlaw, ?_⟩
  have hany : (((machine ℕ).trace freeRunBoot freeRunOnce).any fun x =>
      decide (.writeTriggerSoftTrigger ∈ x.2.2)) = true := by
    decide
  obtain ⟨x, hx, hsoft⟩ := List.any_eq_true.mp hany
  exact ⟨x, hx, of_decide_eq_true hsoft⟩

/-- A reader takes the lock while the target is busy, and gives it up after the completion. -/
def freeRunLocked : List (Op ℕ) :=
  [.arm .seq0, .trigger .seq0, .lock 1 .seq0 1000, .complete .seq0, .wake 1 .seq0 false false none,
    .unlock 1 .seq0]

/-- The soft trigger is written at the completion, when the target is not armed, and is missing where
the target is armed. -/
theorem free_run_law_locked : ¬ ∀ (s₀ s : State ℕ) l, (machine ℕ).init s₀ →
    Runs.Path (runs ℕ) s₀ l s → ∀ x ∈ l, FreeRunLaw x.1 x.2.1 x.2.2 := by
  intro h
  have hlength : 3 < ((machine ℕ).trace freeRunBoot freeRunLocked).length := by decide
  have hlaw := h _ _ _ (machine_boot _ _) ((machine ℕ).path_trace freeRunBoot freeRunLocked) _
    (List.get_mem _ ⟨3, hlength⟩)
  obtain ⟨t, -, ⟨-, hrearmed⟩, -⟩ := hlaw.triggers [.targetState .seq0 .idle,
    .targetState .seq0 .locked] [.broadcast] rfl
  rcases hrearmed with ⟨hop, -, -, hcount⟩ | ⟨hrelease, -⟩
  · cases Op.complete.inj hop
    exact absurd (show 1 = 0 from hcount) (by decide)
  · exact hrelease

end Mbf.Trigger
