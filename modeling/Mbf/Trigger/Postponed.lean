import Mbf.Trigger.SharedArm

/-! # Postponed arms

An arm of a target with readers is postponed by leaving the target locked; the release of the
last lock, on the target or on any target of its group, is to resolve it.  `Resolvable` says
that such a release is still to come.

An update of the group resolves what it can: it arms the group when no lock is left, unless an
armed or busy target beside the locked one makes the combination invalid (`Stuck`).  So there
are two ways for an arm to be stranded (`Strands`): the last lock of a group in an invalid
combination goes, or a locked target without readers of its own leaves the group, whose locks
its arm was waiting for. -/

namespace Mbf.Trigger

open Context Function

/-- Every postponed arm waits for a lock whose release will resolve it. -/
structure Resolvable (targets : Targets) : Prop where
  alone : ∀ t, ¬ Shares targets t → (targets t).state = .locked → 0 < (targets t).lockCount
  group : ∀ t, Shares targets t → (targets t).state = .locked →
    ∃ u, Shares targets u ∧ 0 < (targets u).lockCount

theorem Resolvable.none_left {targets : Targets} (h : Resolvable targets)
    (hcount : ∀ t, (targets t).lockCount = 0) (t : TargetId) : (targets t).state ≠ .locked := by
  intro hl
  by_cases ht : Shares targets t
  · obtain ⟨u, _, hu⟩ := h.group t ht hl
    exact hu.ne' (hcount u)
  · exact (h.alone t ht hl).ne' (hcount t)

/-- The group combines to the invalid state and has no readers. -/
def Stuck (targets : Targets) : Prop :=
  computeGlobalState targets = .invalid ∧ ∀ t, Shares targets t → (targets t).lockCount = 0

instance (targets : Targets) : Decidable (Stuck targets) := inferInstanceAs (Decidable (_ ∧ _))

/-- A change of one target that postpones no arm and takes no lock away. -/
theorem Resolvable.update {targets : Targets} (h : Resolvable targets) {t : TargetId}
    {x : Target} (hmode : x.mode = (targets t).mode)
    (hcount : 0 < (targets t).lockCount → 0 < x.lockCount)
    (hlocked : x.state = .locked → (targets t).state = .locked) :
    Resolvable (update targets t x) := by
  have hshares (u : TargetId) : Shares (Function.update targets t x) u ↔ Shares targets u := by
    by_cases hu : u = t
    · subst hu; simp [Shares, hmode]
    · simp [Shares, hu]
  refine ⟨fun u hu hl => ?_, fun u hu hl => ?_⟩
  · rw [hshares] at hu
    by_cases hut : u = t
    · subst hut
      simp only [update_self] at hl ⊢
      exact hcount (h.alone u hu (hlocked hl))
    · simp only [update_of_ne hut] at hl ⊢
      exact h.alone u hu hl
  · have hl' : (targets u).state = .locked := by
      by_cases hut : u = t
      · subst hut
        exact hlocked (by simpa using hl)
      · simpa [hut] using hl
    obtain ⟨v, hv, hpos⟩ := h.group u ((hshares u).mp hu) hl'
    refine ⟨v, (hshares v).mpr hv, ?_⟩
    by_cases hvt : v = t
    · subst hvt
      simpa using hcount hpos
    · simpa [hvt] using hpos

/-- A change outside the group that leaves the changed target resolvable. -/
theorem Resolvable.update_outside {targets : Targets} (h : Resolvable targets) {t : TargetId}
    {x : Target} (ht : ¬ Shares targets t) (hmode : x.mode ≠ .shared)
    (hx : x.state = .locked → 0 < x.lockCount) : Resolvable (Function.update targets t x) := by
  refine ⟨fun u hu hl => ?_, fun u hu hl => ?_⟩
  · by_cases hut : u = t
    · subst hut
      simp only [update_self] at hl ⊢
      exact hx hl
    · simp only [update_of_ne hut] at hl ⊢
      exact h.alone u (by simpa [Shares, hut] using hu) hl
  · have hut : u ≠ t := by rintro rfl; simp [Shares, hmode] at hu
    obtain ⟨v, hv, hpos⟩ := h.group u (by simpa [Shares, hut] using hu) (by simpa [hut] using hl)
    have hvt : v ≠ t := by rintro rfl; exact ht hv
    exact ⟨v, by simpa [Shares, hvt] using hv, by simpa [hvt] using hpos⟩

/-! ### What the functions do to postponed arms -/

/-- Arming the group leaves no postponed arm that nothing resolves. -/
theorem armSharedTargets_group {c : Context} (hc : UpToDate c.toGlobals)
    (h : ∀ t, Shares c.targets t → (c.targets t).state = .locked →
      c.shared.state = .idle ∨ c.shared.state = .locked ∨
        ∃ u, Shares c.targets u ∧ 0 < (c.targets u).lockCount) {t : TargetId}
    (ht : Shares (armSharedTargets c).targets t)
    (hl : ((armSharedTargets c).targets t).state = .locked) :
    ∃ u, Shares (armSharedTargets c).targets u ∧
      0 < ((armSharedTargets c).targets u).lockCount := by
  rw [shares_armSharedTargets] at ht
  simp only [shares_armSharedTargets]
  cases armSharedTargets_cases c with
  | refused busy targets _ _ =>
      rw [targets] at hl ⊢
      rcases h t ht hl with h | h | h
      · exact absurd (.inl h) busy
      · exact absurd (.inr h) busy
      · exact h
  | nothing none _ _ _ => exact absurd ht (none t)
  | postponed _ lock targets _ _ =>
      obtain ⟨u, hu, hpos⟩ := lock
      exact ⟨u, hu, by rwa [targets, if_pos hu, Target.postpone_lockCount]⟩
  | armed ready unlocked _ targets _ _ =>
      have hready := (computeGlobalState_ready_iff _).mp (hc ▸ ready) t ht
      rw [targets, if_pos ht, Target.arm_armed hready (unlocked t ht)] at hl
      cases hl

theorem resolvable_armSharedTargets {c : Context} (hc : UpToDate c.toGlobals)
    (h : Resolvable c.targets) : Resolvable (armSharedTargets c).targets where
  alone t ht hl := by
    rw [shares_armSharedTargets] at ht
    rw [armSharedTargets_outside ht] at hl ⊢
    exact h.alone t ht hl
  group _ ht hl := armSharedTargets_group hc (fun t ht hl => .inr (.inr (h.group t ht hl))) ht hl

/-- An update resolves the postponed arms of the group unless the group is stuck, and does
nothing about those outside. -/
theorem resolvable_updateGlobalState (c : Context) :
    Resolvable (updateGlobalState c).targets ↔
      (∀ t, ¬ Shares c.targets t → (c.targets t).state = .locked → 0 < (c.targets t).lockCount) ∧
        ¬ Stuck c.targets := by
  constructor
  · intro h
    refine ⟨fun t ht hl => ?_, ?_⟩
    · have := h.alone t (by rwa [shares_updateGlobalState])
      rw [updateGlobalState_outside ht] at this
      exact this hl
    · rintro ⟨hinvalid, hcount⟩
      have hr : ¬ Rearms c.toGlobals := fun hr => by
        rcases hr.ready with h | h <;> rw [hinvalid] at h <;> cases h
      rw [updateGlobalState_of_not_rearms hr, refresh_targets] at h
      obtain ⟨⟨t, ht, hl⟩, _⟩ := (computeGlobalState_invalid_iff _).mp hinvalid
      obtain ⟨u, hu, hpos⟩ := h.group t ht hl
      exact hpos.ne' (hcount u hu)
  · rintro ⟨halone, hstuck⟩
    refine ⟨fun t ht hl => ?_, fun t ht hl => ?_⟩
    · rw [shares_updateGlobalState] at ht
      rw [updateGlobalState_outside ht] at hl ⊢
      exact halone t ht hl
    · by_cases hr : Rearms c.toGlobals
      · rw [updateGlobalState_of_rearms hr] at ht hl ⊢
        refine armSharedTargets_group (upToDate_refresh c) (fun _ _ _ => ?_) ht hl
        rw [refresh_shared]
        rcases hr.ready with h | h
        · exact .inl h
        · exact .inr (.inl h)
      · -- Some target of the group is locked, so its state is locked or invalid.
        rw [updateGlobalState_of_not_rearms hr, refresh_targets] at ht hl ⊢
        by_contra hnone
        have hcount : ∀ u, Shares c.targets u → (c.targets u).lockCount = 0 := by
          intro u hu
          by_contra hpos
          exact hnone ⟨u, hu, Nat.pos_of_ne_zero hpos⟩
        by_cases hready : ∀ u, Shares c.targets u → (c.targets u).Ready
        · exact hr (.inr ⟨(computeGlobalState_locked_iff _).mpr ⟨⟨t, ht, hl⟩, hready⟩, hcount⟩)
        · simp only [not_forall] at hready
          obtain ⟨u, hu, hnot⟩ := hready
          exact hstuck ⟨(computeGlobalState_invalid_iff _).mpr ⟨⟨t, ht, hl⟩, u, hu, hnot⟩, hcount⟩

/-- An update keeps resolvable arms resolvable. -/
theorem Resolvable.updateGlobalState {c : Context} (h : Resolvable c.targets) :
    Resolvable (updateGlobalState c).targets := by
  refine (resolvable_updateGlobalState c).mpr ⟨h.alone, ?_⟩
  rintro ⟨hinvalid, hcount⟩
  obtain ⟨⟨t, ht, hl⟩, _⟩ := (computeGlobalState_invalid_iff _).mp hinvalid
  obtain ⟨u, hu, hpos⟩ := h.group t ht hl
  exact hpos.ne' (hcount u hu)

theorem Target.arm_locked {x : Target} (h : x.state = .locked → 0 < x.lockCount) :
    x.arm.state = .locked → 0 < x.arm.lockCount := by
  rw [Target.arm_lockCount]
  unfold Target.arm
  split_ifs with hr hc
  · simp
  · exact fun _ => Nat.pos_of_ne_zero hc
  · exact h

theorem resolvable_armTarget {c : Context} (hc : UpToDate c.toGlobals) (h : Resolvable c.targets)
    (t : TargetId) : Resolvable (armTarget t c).targets := by
  by_cases ht : Shares c.targets t
  · rw [armTarget_of_shares ht]
    exact resolvable_armSharedTargets hc h
  · rw [armTarget_targets ht]
    exact h.update_outside ht (by rwa [Target.arm_mode]) (Target.arm_locked (h.alone t ht))

theorem resolvable_disarmSharedTargets {c : Context} (h : Resolvable c.targets) :
    Resolvable (disarmSharedTargets c).targets := by
  have hloop : Resolvable (disarmGroup c.targets) := by
    refine ⟨fun t ht hl => ?_, fun t ht hl => ?_⟩
    · rw [disarmGroup_shares] at ht
      simp only [disarmGroup, if_neg ht] at hl ⊢
      exact h.alone t ht hl
    · rw [disarmGroup, if_pos ((disarmGroup_shares _ t).mp ht)] at hl
      exact absurd hl (Target.disarm_not_locked t _)
  rw [disarmSharedTargets_eq]
  exact Resolvable.updateGlobalState (by rwa [disarmLoop_targets])

theorem resolvable_disarmTarget {c : Context} (h : Resolvable c.targets) (t : TargetId) :
    Resolvable (disarmTarget t c).targets := by
  by_cases ht : Shares c.targets t
  · rw [disarmTarget_of_shares ht]
    exact resolvable_disarmSharedTargets h
  · rw [disarmTarget_targets ht]
    exact h.update_outside ht (by rwa [Target.disarm_mode])
      fun hl => absurd hl (Target.disarm_not_locked t _)

theorem resolvable_setTargetState {c : Context} (h : Resolvable c.targets) (t : TargetId)
    {s : TargetState} (hs : s ≠ .locked) : Resolvable (setTargetState t s c).targets := by
  rw [setTargetState_targets]
  exact h.update rfl id (absurd · hs)

theorem resolvable_triggerTargetTrigger {c : Context} (h : Resolvable c.targets) (t : TargetId) :
    Resolvable (triggerTargetTrigger t c).targets := by
  have hbusy := resolvable_setTargetState h t (s := .busy) (by decide)
  unfold triggerTargetTrigger
  split_ifs
  · dsimp only
    split_ifs
    · exact hbusy.updateGlobalState
    · exact hbusy
  · exact h

theorem resolvable_triggerTargetComplete {c : Context} (hc : UpToDate c.toGlobals)
    (h : Resolvable c.targets) (t : TargetId) :
    Resolvable (triggerTargetComplete t c).targets := by
  have hidle := resolvable_setTargetState h t (s := .idle) (by decide)
  unfold triggerTargetComplete
  split_ifs
  · dsimp only
    rw [emit_targets]
    split_ifs with hmode
    · exact hidle.updateGlobalState
    · exact resolvable_armTarget
        (tidy_setTargetState hc t .idle (by simpa [Shares] using hmode)).upToDate hidle t
    · exact resolvable_armTarget
        (tidy_setTargetState hc t .idle (by simpa [Shares] using hmode)).upToDate hidle t
    · exact hidle
  · exact h

theorem resolvable_immediateMemoryCapture {c : Context} (h : Resolvable c.targets) :
    Resolvable (immediateMemoryCapture c).2.targets := by
  have hstart : Resolvable (startCapture c).targets := by
    rw [startCapture_targets]
    exact h.update rfl id fun hl => by cases hl
  by_cases hready : (c.targets .dram).lockCount = 0 ∧ (c.targets .dram).state = .idle
  · rw [immediateMemoryCapture_of_ready hready.1 hready.2]
    split_ifs
    · exact hstart.updateGlobalState
    · exact hstart
  · rw [immediateMemoryCapture_of_not_ready hready]
    exact h

/-! ### The steps that strand an arm -/

/-- The last lock on `t` goes, and leaves its group stuck. -/
def Drops (targets : Targets) (t : TargetId) : Prop :=
  Shares targets t ∧ (targets t).lockCount ≤ 1 ∧
    Stuck (update targets t { targets t with lockCount := (targets t).lockCount - 1 })

instance (targets : Targets) (t : TargetId) : Decidable (Drops targets t) :=
  inferInstanceAs (Decidable (_ ∧ _ ∧ _))

theorem resolvable_decrementTriggerLockCount {c : Context} (h : Resolvable c.targets)
    (t : TargetId) :
    Resolvable (decrementTriggerLockCount t c).targets ↔ ¬ Drops c.targets t := by
  rw [decrementTriggerLockCount_eq]
  split_ifs with hlast ht hl
  · have halone : ∀ u, ¬ Shares (dropLock t c).targets u →
        ((dropLock t c).targets u).state = .locked →
        0 < ((dropLock t c).targets u).lockCount := by
      intro u hu hl
      rw [shares_dropLock] at hu
      have hut : u ≠ t := by rintro rfl; exact hu ht
      simp only [dropLock_targets, update_of_ne hut] at hl ⊢
      exact h.alone u hu hl
    rw [resolvable_updateGlobalState, and_iff_right halone, dropLock_targets]
    simp [Drops, ht, hlast]
  · -- The last lock is gone, so the target is armed.
    rw [iff_true_right fun hd : Drops _ _ => ht hd.1,
      armTarget_targets (by rwa [shares_dropLock]), dropLock_targets, update_self, update_idem]
    refine h.update_outside ht (by rwa [Target.arm_mode]) fun harm => ?_
    rw [Target.arm_armed (x := { c.targets t with lockCount := (c.targets t).lockCount - 1 })
      (.inr hl) (Nat.sub_eq_zero_of_le hlast)] at harm
    cases harm
  · rw [iff_true_right fun hd : Drops _ _ => ht hd.1]
    exact h.update_outside ht ht fun hl' => absurd hl' hl
  · rw [iff_true_right fun hd : Drops _ _ => hlast hd.2.1]
    exact h.update rfl (fun _ => by simp only; omega) id

theorem resolvable_triggerTargetSetMode {c : Context} (h : Resolvable c.targets) (t : TargetId)
    (mode : TargetMode) :
    Resolvable (triggerTargetSetMode t mode c).targets ↔
      ¬ (mode ≠ .shared ∧ (c.targets t).state = .locked ∧ (c.targets t).lockCount = 0 ∨
        Stuck (update c.targets t { c.targets t with mode := mode })) := by
  rw [triggerTargetSetMode, updateSharedTargets, emit_targets, resolvable_updateGlobalState,
    modify_targets, not_or]
  refine and_congr_left fun _ => ?_
  constructor
  · rintro halone ⟨hm, hl, hcount⟩
    have := halone t (by simpa [Shares] using hm) (by simpa using hl)
    simp only [update_self] at this
    omega
  · intro hnot u hu hl
    by_cases hut : u = t
    · subst hut
      simp only [Shares, update_self] at hu hl ⊢
      exact Nat.pos_of_ne_zero fun hz => hnot ⟨hu, hl, hz⟩
    · simp only [Shares, update_of_ne hut] at hu hl ⊢
      exact h.alone u hu hl

/-! ### Runs -/

section runs
variable {Client : Type}

/-- The inputs that strand an arm: a change of mode that takes a locked target without readers
out of the group, or leaves the group stuck; and the end of a lock, released by its holder or
given up by a client that waited, that leaves the group stuck. -/
def Strands (s : State Client) : Op Client → Prop
  | .setMode t mode =>
      mode ≠ .shared ∧ (s.targets t).state = .locked ∧ (s.targets t).lockCount = 0 ∨
        Stuck (update s.targets t { s.targets t with mode := mode })
  | .wake _ t timedOut lastTick poll =>
      GivesUp (s.targets t) timedOut lastTick poll ∧ Drops s.targets t
  | .unlock _ t => Drops s.targets t
  | _ => False

instance (s : State Client) : DecidablePred (Strands s)
  | .setMode _ _ => inferInstanceAs (Decidable (_ ∨ _))
  | .wake _ _ _ _ _ => inferInstanceAs (Decidable (_ ∧ _))
  | .unlock _ t => inferInstanceAs (Decidable (Drops s.targets t))
  | .arm _ | .disarm _ | .sharedArm | .sharedDisarm | .sharedSetMode _ | .trigger _ | .complete _
  | .immediateCapture | .lock _ _ _ => inferInstanceAs (Decidable False)

variable [DecidableEq Client]

theorem resolvable_step {s s' : State Client} {a : Op Client × List Event}
    (hs : UpToDate s.toGlobals) (hr : Resolvable s.targets) (h : (runs Client).Step s a s') :
    Resolvable s'.targets ↔ ¬ Strands s a.1 := by
  rw [show s'.targets = _ from congrArg Globals.targets (step_effect h).1]
  obtain ⟨op, out⟩ := a
  have hc : UpToDate s.enter.toGlobals := hs
  have hr : Resolvable s.enter.targets := hr
  cases op with
  | setMode t mode => exact resolvable_triggerTargetSetMode hr t mode
  | unlock k t => exact resolvable_decrementTriggerLockCount hr t
  | arm t => exact iff_of_true (resolvable_armTarget hc hr t) id
  | disarm t => exact iff_of_true (resolvable_disarmTarget hr t) id
  | sharedArm => exact iff_of_true (resolvable_armSharedTargets hc hr) id
  | sharedDisarm =>
      rw [Op.effect]
      exact iff_of_true (resolvable_disarmSharedTargets hr) id
  | sharedSetMode mode => exact iff_of_true hr id
  | trigger t => exact iff_of_true (resolvable_triggerTargetTrigger hr t) id
  | complete t => exact iff_of_true (resolvable_triggerTargetComplete hc hr t) id
  | immediateCapture => exact iff_of_true (resolvable_immediateMemoryCapture hr) id
  | lock k t timeout =>
      refine iff_of_true ?_ id
      rw [Op.effect, lockTriggerReady_context]
      split_ifs
      · exact hr.update rfl (fun _ => Nat.succ_pos _) id
      · exact hr
  | wake k t timedOut lastTick poll =>
      rw [Op.effect, waitTriggerReady_context]
      split_ifs with hgives
      · rw [resolvable_decrementTriggerLockCount hr t]
        exact not_congr (and_iff_right hgives).symm
      · exact iff_of_true hr fun hd => hgives hd.1

/-- Postponed arms stay resolvable all along a run, and hence none is left when no lock is held,
exactly if no step of the run strands one. -/
theorem no_stranded_arm_iff {s₀ s : State Client} {l : List (State Client × Op Client × List Event)}
    (hi : (machine Client).init s₀) (hp : Runs.Path (runs Client) s₀ l s) :
    Runs.Always (fun s => Resolvable s.targets ∧
        ((∀ t, (s.targets t).lockCount = 0) → ∀ t, (s.targets t).state ≠ .locked)) l s ↔
      ∀ x ∈ l, ¬ Strands x.1 x.2.1 := by
  have hequiv (s : State Client) : (Resolvable s.targets ∧
      ((∀ t, (s.targets t).lockCount = 0) → ∀ t, (s.targets t).state ≠ .locked)) ↔
      Resolvable s.targets := and_iff_left_of_imp Resolvable.none_left
  simp only [hequiv]
  refine hp.always_iff (I := fun s => UpToDate s.toGlobals) (fun s a s' => upToDate_step)
    (fun s a s' => resolvable_step) (upToDate_reachable (.init hi)) ?_
  exact ⟨fun t _ hl => by simp [hi.1.idle t] at hl, fun t _ hl => by simp [hi.1.idle t] at hl⟩

/-- Two readers postpone a shared arm; one leaves, and its target is taken out of the group. -/
theorem stranded_arm_reachable :
    ∃ s, Runs.Reachable (runs ℕ) s ∧ (s.targets .seq0).state = .locked ∧
      (s.targets .seq0).mode = .oneShot ∧ (s.targets .seq0).lockCount = 0 :=
  ⟨_, (machine ℕ).reachable_after (machine_boot (fun _ => .shared) false)
    [.lock 1 .seq0 0, .lock 2 .seq1 0, .sharedArm, .unlock 1 .seq0, .setMode .seq0 .oneShot],
    rfl, rfl, rfl⟩

/-- Two readers postpone a shared arm, which is carried out when the second one leaves. -/
theorem no_stranded_arm_readers :
    let l := (machine ℕ).trace (.boot (fun _ => .shared) false)
      [.lock 1 .seq0 0, .lock 2 .seq1 0, .sharedArm, .unlock 1 .seq0, .unlock 2 .seq1, .sharedDisarm]
    l.length = 6 ∧ ∀ x ∈ l, Resolvable x.1.targets := by
  refine ⟨rfl, fun x hx => ?_⟩
  exact (((no_stranded_arm_iff (machine_boot (fun _ => .shared) false)
    ((machine ℕ).path_trace _ _)).mpr (by decide)).1 x hx).1

end runs

end Mbf.Trigger
