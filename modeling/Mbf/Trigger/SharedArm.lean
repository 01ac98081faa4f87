import Mbf.Trigger.Effects
import Mbf.Trigger.System

/-! # Shared arming

The state cached for the group of targets in shared mode is the one computed from the targets
(`UpToDate`).  `updateGlobalState` establishes this from any targets, `armSharedTargets` keeps
it, and nothing else touches a shared target without calling one of the two.  Since arming the
group looks only at the cached state, this is what makes a shared arm all or nothing: it is
sent exactly to the targets of the group, after all of them were found ready and unlocked, and
leaves all of them armed (`WholeGroup`). -/

namespace Mbf.Trigger

open Context Function

/-! ### The cached state -/

/-- The cached state of the group is the computed one. -/
def UpToDate (g : Globals) : Prop := g.shared.state = computeGlobalState g.targets

theorem anyShared_congr {g g' : Targets} {p : Target → Bool}
    (h : ∀ t, (decide (Shares g' t) && p (g' t)) = (decide (Shares g t) && p (g t))) :
    anyShared p g' = anyShared p g := by
  unfold anyShared
  exact congrArg (List.any allTargets) (funext h)

/-- Only the modes, and the states of the shared targets, matter to the group. -/
theorem computeGlobalState_congr {g g' : Targets} (hmode : ∀ t, Shares g' t ↔ Shares g t)
    (hstate : ∀ t, Shares g t → (g' t).state = (g t).state) :
    computeGlobalState g' = computeGlobalState g := by
  have h (s : TargetState) :
      anyShared (fun x => x.state = s) g' = anyShared (fun x => x.state = s) g := by
    refine anyShared_congr fun t => ?_
    by_cases ht : Shares g t
    · simp [hmode, ht, hstate]
    · simp [hmode, ht]
  simp only [computeGlobalState, h]

/-- A target outside the group does not matter to it. -/
theorem computeGlobalState_update {g : Targets} {t : TargetId} {x : Target}
    (ht : ¬ Shares g t) (hx : x.mode ≠ .shared) :
    computeGlobalState (update g t x) = computeGlobalState g := by
  refine computeGlobalState_congr (fun u => ?_) fun u hu => ?_
  · by_cases h : u = t
    · subst h
      simpa [Shares, hx] using ht
    · simp [Shares, h]
  · have h : u ≠ t := by rintro rfl; exact ht hu
    simp [h]

/-! ### Whole-group arms -/

/-- What a write of `mask` to the arm register finds and leaves, when it arms the group. -/
structure WholeGroup (mask : Mask) (before after : Targets) : Prop where
  shares_before : ∀ t, mask t = true ↔ Shares before t
  shares_after : ∀ t, mask t = true ↔ Shares after t
  ready : ∀ t, mask t = true → (before t).state ≠ .armed ∧ (before t).state ≠ .busy
  unlocked : ∀ t, mask t = true → (before t).lockCount = 0 ∧ (after t).lockCount = 0
  armed : ∀ t, mask t = true → (after t).state = .armed

/-- The call is not an arm of the group. -/
def Event.Private : Event → Prop
  | .writeTriggerArmShared _ _ _ => False
  | _ => True

theorem Event.Tame.private {e : Event} (h : e.Tame) : e.Private := by
  cases e <;> first | exact h.elim | trivial

/-- From `c` to `c'` the group is not armed. -/
abbrev Unshared (c c' : Context) : Prop := Emits Event.Private c c'

/-- `c'` is reached from `c` with the cached state up to date, and with whole-group arms only. -/
structure Tidy (c c' : Context) : Prop where
  upToDate : UpToDate c'.toGlobals
  out : ∃ es, c'.out = c.out ++ es ∧ ∀ mask before after,
    Event.writeTriggerArmShared mask before after ∈ es →
      after = c'.targets ∧ WholeGroup mask before after

section tidy
variable {c c' c'' : Context}

theorem Emits.tidy (h : Unshared c c') (hc : UpToDate c'.toGlobals) : Tidy c c' := by
  obtain ⟨es, hes, hp⟩ := h
  exact ⟨hc, es, hes, fun mask before after he => (hp _ he).elim⟩

theorem Emits.trans_tidy (h : Unshared c c') (h' : Tidy c' c'') : Tidy c c'' := by
  obtain ⟨es, hes, hp⟩ := h
  obtain ⟨es', hes', hw⟩ := h'.out
  refine ⟨h'.upToDate, es ++ es', by rw [hes', hes, List.append_assoc],
    fun mask before after he => ?_⟩
  rcases List.mem_append.mp he with he | he
  · exact (hp _ he).elim
  · exact hw mask before after he

theorem Tidy.emit (h : Tidy c c') {e : Event} (he : e.Private) : Tidy c (emit e c') := by
  obtain ⟨es, hes, hw⟩ := h.out
  refine ⟨h.upToDate, es ++ [e], by simp [hes], fun mask before after hmem => ?_⟩
  rcases List.mem_append.mp hmem with hmem | hmem
  · exact hw mask before after hmem
  · rw [← List.mem_singleton.mp hmem] at he
    exact he.elim

end tidy

/-! ### The functions keep the group tidy -/

theorem Target.arm_armed {x : Target} (hr : x.Ready) (hl : x.lockCount = 0) :
    x.arm.state = .armed := by
  simp [Target.arm, hr, hl]

/-- The group after its targets are armed. -/
theorem wholeGroup_arm {targets after : Targets} (hready : ∀ t, Shares targets t →
    (targets t).Ready) (hunlocked : ∀ t, Shares targets t → (targets t).lockCount = 0)
    (hafter : ∀ t, after t = if Shares targets t then (targets t).arm else targets t) :
    WholeGroup (getSharedMask targets) targets after := by
  have hshares (t : TargetId) : Shares after t ↔ Shares targets t := by
    unfold Shares
    rw [hafter]
    split_ifs
    · rw [Target.arm_mode]
    · rfl
  have hmask (t : TargetId) : getSharedMask targets t = true ↔ Shares targets t := by
    simp [getSharedMask, Shares]
  refine ⟨hmask, fun t => (hmask t).trans (hshares t).symm, fun t ht => ?_, fun t ht => ?_,
    fun t ht => ?_⟩
  · rcases hready t ((hmask t).mp ht) with h | h <;> simp [h]
  · have ht := (hmask t).mp ht
    exact ⟨hunlocked t ht, by rw [hafter, if_pos ht, Target.arm_lockCount, hunlocked t ht]⟩
  · have ht := (hmask t).mp ht
    rw [hafter, if_pos ht]
    exact Target.arm_armed (hready t ht) (hunlocked t ht)

theorem tidy_armSharedTargets {c : Context} (hc : UpToDate c.toGlobals) :
    Tidy c (armSharedTargets c) := by
  cases armSharedTargets_cases c with
  | refused _ targets shared out =>
      obtain ⟨m, out⟩ := out
      refine Emits.tidy ⟨_, out, by simp [Event.Private]⟩ ?_
      simpa [UpToDate, targets, shared] using hc
  | nothing _ targets shared out =>
      refine Emits.tidy ⟨[], by simpa using out, by simp⟩ ?_
      simpa [UpToDate, targets, shared] using hc
  | postponed ready lock targets shared out =>
      have hready := (computeGlobalState_ready_iff _).mp (hc ▸ ready)
      refine Emits.tidy ⟨_, out.trans (List.append_assoc ..), fun e he => ?_⟩ ?_
      · rcases List.mem_append.mp he with he | he
        · obtain ⟨t, _, he⟩ := mem_loopOut.mp he
          exact (postponeOut_tame t _ e he).private
        · split_ifs at he
          · cases he
          · rw [List.mem_singleton.mp he]; trivial
      · have hshares (t : TargetId) :
            Shares (armSharedTargets c).targets t ↔ Shares c.targets t := by
          unfold Shares
          rw [targets]
          split_ifs
          · rw [Target.postpone_mode]
          · rfl
        obtain ⟨u, hu, hlock⟩ := lock
        simp only [UpToDate, shared]
        refine ((computeGlobalState_locked_iff _).mpr ⟨⟨u, (hshares u).mpr hu, ?_⟩, ?_⟩).symm
        · rw [targets, if_pos hu, Target.postpone, if_pos hlock]
        · intro t ht
          have ht := (hshares t).mp ht
          rw [targets, if_pos ht, Target.postpone]
          split_ifs
          · exact .inr rfl
          · exact hready t ht
  | armed ready unlocked some targets shared out =>
      have hready := (computeGlobalState_ready_iff _).mp (hc ▸ ready)
      have hwhole := wholeGroup_arm hready unlocked targets
      refine ⟨?_, _, out.trans (List.append_assoc ..), fun mask before after he => ?_⟩
      · obtain ⟨u, hu⟩ := some
        have hmask (t : TargetId) := (hwhole.shares_before t).symm.trans (hwhole.shares_after t)
        simp only [UpToDate, shared]
        refine ((computeGlobalState_armed_iff _).mpr ⟨⟨u, (hmask u).mp hu⟩, ?_⟩).symm
        intro t ht
        exact hwhole.armed t ((hwhole.shares_after t).mpr ht)
      · rcases List.mem_append.mp he with he | he
        · obtain ⟨t, _, he⟩ := mem_loopOut.mp he
          exact (armOut_tame t _ _ he).elim
        · rcases List.mem_pair.mp he with he | he
          · simp only [Event.writeTriggerArmShared.injEq] at he
            obtain ⟨rfl, rfl, rfl⟩ := he
            exact ⟨rfl, hwhole⟩
          · cases he

theorem unshared_refresh (c : Context) : Unshared c (refresh c) := .setGlobalState trivial

theorem upToDate_refresh (c : Context) : UpToDate (refresh c).toGlobals := by
  simp [UpToDate]

/-- Whatever the targets are, the cached state is up to date after an update. -/
theorem tidy_updateGlobalState (c : Context) : Tidy c (updateGlobalState c) := by
  by_cases h : Rearms c.toGlobals
  · rw [updateGlobalState_of_rearms h]
    exact (unshared_refresh c).trans_tidy (tidy_armSharedTargets (upToDate_refresh c))
  · rw [updateGlobalState_of_not_rearms h]
    exact (unshared_refresh c).tidy (upToDate_refresh c)

theorem tidy_disarmSharedTargets (c : Context) : Tidy c (disarmSharedTargets c) := by
  have h : Unshared c (doDisarmSharedHardware { c with shared :=
      { c.shared with dontRearm := true } }) :=
    ⟨[.writeTriggerDisarm (getSharedMask c.targets)], rfl, by simp [Event.Private]⟩
  exact (h.trans
    (.of_loop doDisarmTarget_local fun t _ e he => (disarmOut_tame t _ e he).private)).trans_tidy
    (tidy_updateGlobalState _)

/-- A function of one target outside the group. -/
theorem tidy_local {f : TargetId → Context → Context} {g : TargetId → Target → Target}
    {o : TargetId → Target → List Event} (h : TargetLocal f g o)
    (ho : ∀ t x, ∀ e ∈ o t x, e.Tame) (hg : ∀ t x, (g t x).mode = x.mode) {c : Context}
    (hc : UpToDate c.toGlobals) {t : TargetId} (ht : ¬ Shares c.targets t) : Tidy c (f t c) := by
  refine (Emits.of_local h fun e he => (ho t _ e he).private).tidy ?_
  have htargets : (f t c).targets = update c.targets t (g t (c.targets t)) := h.cell t c
  have hshared : (f t c).shared = c.shared := h.rest t c
  rw [UpToDate, htargets, hshared, computeGlobalState_update ht (by rwa [hg])]
  exact hc

theorem tidy_armTarget {c : Context} (hc : UpToDate c.toGlobals) (t : TargetId) :
    Tidy c (armTarget t c) := by
  unfold armTarget
  split_ifs with hmode
  · exact tidy_armSharedTargets hc
  · exact (tidy_local doArmTarget_local armOut_tame (by simp) hc hmode).emit trivial
  · exact tidy_local doArmTarget_local armOut_tame (by simp) hc hmode

theorem tidy_disarmTarget {c : Context} (hc : UpToDate c.toGlobals) (t : TargetId) :
    Tidy c (disarmTarget t c) := by
  unfold disarmTarget
  split_ifs with hmode
  · exact tidy_disarmSharedTargets c
  · exact Emits.trans_tidy (.emit (e := .writeTriggerDisarm (getTargetMask t)) trivial)
      (tidy_local (c := doDisarmTargetHardware t c) doDisarmTarget_local disarmOut_tame (by simp)
        hc hmode)

/-- A change of state of one target, followed by an update if it is in the group. -/
theorem tidy_setTargetState {c : Context} (hc : UpToDate c.toGlobals) (t : TargetId)
    (s : TargetState) (hmode : ¬ Shares c.targets t) : Tidy c (setTargetState t s c) := by
  refine Emits.tidy (.setTargetState trivial) ?_
  rw [UpToDate, setTargetState_targets, setTargetState_shared]
  exact hc.trans (computeGlobalState_update (x := { c.targets t with state := s }) hmode hmode).symm

theorem tidy_triggerTargetTrigger {c : Context} (hc : UpToDate c.toGlobals) (t : TargetId) :
    Tidy c (triggerTargetTrigger t c) := by
  unfold triggerTargetTrigger
  split_ifs
  · dsimp only
    split_ifs with hmode
    · exact Emits.trans_tidy (.setTargetState trivial) (tidy_updateGlobalState _)
    · exact tidy_setTargetState hc t .busy (by simpa [Shares] using hmode)
  · exact (Emits.refl c).tidy hc |>.emit trivial

theorem tidy_triggerTargetComplete {c : Context} (hc : UpToDate c.toGlobals) (t : TargetId) :
    Tidy c (triggerTargetComplete t c) := by
  unfold triggerTargetComplete
  split_ifs
  · refine Tidy.emit ?_ trivial
    have hidle : Unshared c (setTargetState t .idle c) := .setTargetState trivial
    split_ifs with hmode
    · exact hidle.trans_tidy (tidy_updateGlobalState _)
    · exact hidle.trans_tidy
        (tidy_armTarget (tidy_setTargetState hc t .idle (by simpa [Shares] using hmode)).upToDate t)
    · exact (hidle.trans_tidy (tidy_armTarget
        (tidy_setTargetState hc t .idle (by simpa [Shares] using hmode)).upToDate t)).emit trivial
    · exact tidy_setTargetState hc t .idle (by simpa [Shares] using hmode)
  · exact (Emits.refl c).tidy hc |>.emit trivial

/-- The lock counts do not matter to the state of the group. -/
theorem computeGlobalState_lockCount (targets : Targets) (t : TargetId) (n : ℕ) :
    computeGlobalState (update targets t { targets t with lockCount := n }) =
      computeGlobalState targets := by
  refine computeGlobalState_congr (fun u => ?_) fun u _ => ?_
  · by_cases h : u = t
    · subst h; simp [Shares]
    · simp [Shares, h]
  · by_cases h : u = t
    · subst h; simp
    · simp [h]

theorem upToDate_dropLock {c : Context} (hc : UpToDate c.toGlobals) (t : TargetId) :
    UpToDate (dropLock t c).toGlobals :=
  hc.trans (computeGlobalState_lockCount c.targets t _).symm

theorem upToDate_takeLock {c : Context} (hc : UpToDate c.toGlobals) (t : TargetId) :
    UpToDate (takeLock t c).toGlobals :=
  hc.trans (computeGlobalState_lockCount c.targets t _).symm

theorem tidy_decrementTriggerLockCount {c : Context} (hc : UpToDate c.toGlobals) (t : TargetId) :
    Tidy c (decrementTriggerLockCount t c) := by
  have hdrop : Unshared c (dropLock t c) := .of_out rfl
  rw [decrementTriggerLockCount_eq]
  split_ifs
  · exact hdrop.trans_tidy (tidy_updateGlobalState _)
  · exact hdrop.trans_tidy (tidy_armTarget (upToDate_dropLock hc t) t)
  · exact hdrop.tidy (upToDate_dropLock hc t)
  · exact hdrop.tidy (upToDate_dropLock hc t)

theorem tidy_triggerTargetSetMode (t : TargetId) (mode : TargetMode) (c : Context) :
    Tidy c (triggerTargetSetMode t mode c) :=
  ((Emits.modify t _).trans_tidy (tidy_updateGlobalState _)).emit trivial

theorem tidy_immediateMemoryCapture {c : Context} (hc : UpToDate c.toGlobals) :
    Tidy c (immediateMemoryCapture c).2 := by
  by_cases hready : (c.targets .dram).lockCount = 0 ∧ (c.targets .dram).state = .idle
  · have hout : Unshared c (startCapture c) := startCapture_tame.mono fun _ he => he.private
    rw [immediateMemoryCapture_of_ready hready.1 hready.2]
    split_ifs with hs
    · exact hout.trans_tidy (tidy_updateGlobalState _)
    · refine hout.tidy ?_
      rw [UpToDate, startCapture_targets, startCapture_shared,
        computeGlobalState_update hs (by exact hs)]
      exact hc
  · rw [immediateMemoryCapture_of_not_ready hready]
    exact ((Emits.refl c).tidy hc).emit trivial

/-! ### Runs -/

section runs
variable {Client : Type}

theorem tidy_effect {c : Context} (hc : UpToDate c.toGlobals) (op : Op Client) :
    Tidy c (op.effect c) := by
  cases op with
  | arm t => exact tidy_armTarget hc t
  | disarm t => exact tidy_disarmTarget hc t
  | setMode t mode => exact tidy_triggerTargetSetMode t mode c
  | sharedArm => exact tidy_armSharedTargets hc
  | sharedDisarm => exact tidy_disarmSharedTargets c
  | sharedSetMode mode => exact Emits.tidy ⟨[], by simp [Op.effect, sharedTriggerSetMode]⟩ hc
  | trigger t => exact tidy_triggerTargetTrigger hc t
  | complete t => exact tidy_triggerTargetComplete hc t
  | immediateCapture => exact tidy_immediateMemoryCapture hc
  | lock k t timeout =>
      rw [Op.effect, lockTriggerReady_context]
      split_ifs
      · exact Emits.tidy (.of_out rfl) (upToDate_takeLock hc t)
      · exact (Emits.refl c).tidy hc
  | wake k t timedOut lastTick poll =>
      rw [Op.effect, waitTriggerReady_context]
      split_ifs
      · exact tidy_decrementTriggerLockCount hc t
      · exact (Emits.refl c).tidy hc
  | unlock k t => exact tidy_decrementTriggerLockCount hc t

variable [DecidableEq Client]

theorem upToDate_step {s s' : State Client} {a : Op Client × List Event}
    (hs : UpToDate s.toGlobals) (h : (runs Client).Step s a s') : UpToDate s'.toGlobals := by
  rw [(step_effect h).1]
  exact (tidy_effect (c := s.enter) hs a.1).upToDate

theorem upToDate_reachable {s : State Client} (h : Runs.Reachable (runs Client) s) :
    UpToDate s.toGlobals := by
  refine h.invariant (fun s hs => ?_) fun s a s' hs hstep => upToDate_step hs hstep
  rw [UpToDate, hs.1.sharedIdle]
  exact ((computeGlobalState_idle_iff _).mpr fun t _ => hs.1.idle t).symm

/-- Shared arming is all or nothing.  In every reachable state the cached state of the group is
the computed one, before and after every input; and every shared arm an input sends goes exactly
to the targets in shared mode, none of which was armed, busy or locked when arming started, and
all of which are armed when the input is done. -/
theorem shared_arm_all_or_nothing {s : State Client} (h : Runs.Reachable (runs Client) s) :
    s.shared.state = computeGlobalState s.targets ∧
    ∀ op out s', (runs Client).Step s (op, out) s' →
      s'.shared.state = computeGlobalState s'.targets ∧
      ∀ mask before after, Event.writeTriggerArmShared mask before after ∈ out →
        after = s'.targets ∧ WholeGroup mask before after := by
  have hs := upToDate_reachable h
  refine ⟨hs, fun op out s' hstep => ⟨upToDate_step hs hstep, fun mask before after he => ?_⟩⟩
  obtain ⟨es, hes, hwhole⟩ := (tidy_effect (c := s.enter) hs op).out
  obtain ⟨hglobals, hout⟩ : s'.toGlobals = _ ∧ out = _ := step_effect hstep
  rw [hout, hes, show s.enter.out = [] from rfl, List.nil_append] at he
  rw [hglobals]
  exact hwhole mask before after he

/-- Two targets wait for a reader of one of them, and are armed together when it leaves. -/
theorem shared_arm_all_or_nothing_postponed :
    let s := (machine ℕ).after (.boot (fun t => if t = .dram then .oneShot else .shared) false)
      [.lock 1 .seq0 0, .sharedArm]
    s.shared.state = .locked ∧ s.shared.state = computeGlobalState s.targets :=
  ⟨rfl, (shared_arm_all_or_nothing ((machine ℕ).reachable_after (machine_boot _ false) _)).1⟩

end runs

end Mbf.Trigger
