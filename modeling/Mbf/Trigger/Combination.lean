import Mbf.Trigger.SharedArm

/-! # The combination of the states of the group

The tabulated rules call a group with a locked target beside an armed or busy one invalid, a
combination that should not occur.  Two inputs can produce it (`Mixes`), because they make one
target of the group unready, or bring an unready one into it, without looking at the others: an
immediate capture on the memory, and a change of a target's mode to shared.  Any other input
keeps the combination valid, and nothing repairs an invalid one within the same input, so a run
stays valid exactly as long as it takes no such step. -/

namespace Mbf.Trigger

open Context Function

/-- The states of the group combine to one of the documented states. -/
def Valid (targets : Targets) : Prop := computeGlobalState targets ≠ .invalid

theorem valid_iff {targets : Targets} :
    Valid targets ↔ ∀ t u, Shares targets t → Shares targets u →
      (targets t).state = .locked → (targets u).Ready := by
  rw [Valid, ne_eq, computeGlobalState_invalid_iff]
  constructor
  · intro h t u ht hu hl
    by_contra hr
    exact h ⟨⟨t, ht, hl⟩, u, hu, hr⟩
  · rintro h ⟨⟨t, ht, hl⟩, u, hu, hr⟩
    exact hr (h t u ht hu hl)

/-- A change that locks no target of the group, brings none in and makes none of it unready. -/
theorem Valid.mono {targets targets' : Targets} (h : Valid targets)
    (hmode : ∀ t, Shares targets' t → Shares targets t)
    (hlocked : ∀ t, Shares targets' t → (targets' t).state = .locked →
      (targets t).state = .locked)
    (hready : ∀ t, Shares targets' t → (targets t).Ready → (targets' t).Ready) :
    Valid targets' := by
  rw [valid_iff] at h ⊢
  exact fun t u ht hu hl =>
    hready u hu (h t u (hmode t ht) (hmode u hu) (hlocked t ht hl))

/-- A change of the record of one target. -/
theorem Valid.update {targets : Targets} (h : Valid targets) {t : TargetId} {x : Target}
    (hmode : x.mode = .shared → Shares targets t)
    (hlocked : x.mode = .shared → x.state = .locked → (targets t).state = .locked)
    (hready : x.mode = .shared → (targets t).Ready → x.Ready) :
    Valid (update targets t x) := by
  refine h.mono (fun u hu => ?_) (fun u hu => ?_) fun u hu => ?_
  all_goals
    by_cases hut : u = t
    · subst hut
      simp only [Shares, update_self] at hu ⊢
      first | exact hmode hu | exact hlocked hu | exact hready hu
    · simp_all [Shares]

/-- A group whose targets are all ready is valid. -/
theorem valid_of_ready {targets : Targets} (h : ∀ t, Shares targets t → (targets t).Ready) :
    Valid targets :=
  valid_iff.mpr fun _ u _ hu _ => h u hu

/-! ### What the functions do to the combination -/

theorem valid_armSharedTargets {c : Context} (hc : UpToDate c.toGlobals) (h : Valid c.targets) :
    Valid (armSharedTargets c).targets := by
  have hup := (tidy_armSharedTargets hc).upToDate
  cases armSharedTargets_cases c with
  | refused _ targets _ _ => rwa [targets]
  | nothing _ targets _ _ => rwa [targets]
  | postponed _ _ _ shared _ => simp [Valid, ← show _ = _ from hup, shared]
  | armed _ _ _ _ shared _ => simp [Valid, hup.symm, shared]

/-- An update repairs nothing and breaks nothing. -/
theorem valid_updateGlobalState (c : Context) :
    Valid (updateGlobalState c).targets ↔ Valid c.targets := by
  by_cases hr : Rearms c.toGlobals
  · have h : Valid c.targets := by
      rcases hr.ready with h | h <;> simp [Valid, h]
    rw [updateGlobalState_of_rearms hr, iff_true_right h]
    exact valid_armSharedTargets (upToDate_refresh c) (by simpa using h)
  · rw [updateGlobalState_of_not_rearms hr, refresh_targets]

theorem valid_disarmSharedTargets (c : Context) : Valid (disarmSharedTargets c).targets := by
  rw [disarmSharedTargets_eq, valid_updateGlobalState, disarmLoop_targets, valid_iff]
  intro t u ht _ hl
  rw [disarmGroup, if_pos ((disarmGroup_shares _ t).mp ht)] at hl
  exact absurd hl (Target.disarm_not_locked t _)

theorem valid_armTarget {c : Context} (hc : UpToDate c.toGlobals) (h : Valid c.targets)
    (t : TargetId) : Valid (armTarget t c).targets := by
  by_cases ht : Shares c.targets t
  · rw [armTarget_of_shares ht]
    exact valid_armSharedTargets hc h
  · rw [armTarget_targets ht]
    have hm : (c.targets t).arm.mode ≠ .shared := by rwa [Target.arm_mode]
    exact h.update (absurd · hm) (absurd · hm) (absurd · hm)

theorem valid_disarmTarget {c : Context} (h : Valid c.targets) (t : TargetId) :
    Valid (disarmTarget t c).targets := by
  by_cases ht : Shares c.targets t
  · rw [disarmTarget_of_shares ht]
    exact valid_disarmSharedTargets c
  · rw [disarmTarget_targets ht]
    have hm : ((c.targets t).disarm t).mode ≠ .shared := by rwa [Target.disarm_mode]
    exact h.update (absurd · hm) (absurd · hm) (absurd · hm)

theorem valid_triggerTargetTrigger {c : Context} (h : Valid c.targets) (t : TargetId) :
    Valid (triggerTargetTrigger t c).targets := by
  unfold triggerTargetTrigger
  split_ifs with harmed
  · have hbusy : Valid (setTargetState t .busy c).targets := by
      rw [setTargetState_targets]
      refine h.update id (fun _ hl => by cases hl) fun _ hr => ?_
      rcases hr with hr | hr <;> rw [hr] at harmed <;> cases harmed
    dsimp only
    split_ifs
    · exact (valid_updateGlobalState _).mpr hbusy
    · exact hbusy
  · exact h

theorem valid_triggerTargetComplete {c : Context} (hc : UpToDate c.toGlobals)
    (h : Valid c.targets) (t : TargetId) : Valid (triggerTargetComplete t c).targets := by
  unfold triggerTargetComplete
  split_ifs
  · have hidle : Valid (setTargetState t .idle c).targets := by
      rw [setTargetState_targets]
      exact h.update id (fun _ hl => by cases hl) fun _ _ => .inl rfl
    dsimp only
    rw [emit_targets]
    split_ifs with hmode
    · exact (valid_updateGlobalState _).mpr hidle
    · exact valid_armTarget
        (tidy_setTargetState hc t .idle (by simpa [Shares] using hmode)).upToDate hidle t
    · exact valid_armTarget
        (tidy_setTargetState hc t .idle (by simpa [Shares] using hmode)).upToDate hidle t
    · exact hidle
  · exact h

theorem valid_decrementTriggerLockCount {c : Context} (hc : UpToDate c.toGlobals)
    (h : Valid c.targets) (t : TargetId) : Valid (decrementTriggerLockCount t c).targets := by
  have hdrop : Valid (dropLock t c).targets := h.update id (fun _ => id) fun _ => id
  rw [decrementTriggerLockCount_eq]
  split_ifs
  · exact (valid_updateGlobalState _).mpr hdrop
  · exact valid_armTarget (upToDate_dropLock hc t) hdrop t
  · exact hdrop
  · exact hdrop

theorem valid_immediateMemoryCapture {c : Context} (h : Valid c.targets) :
    Valid (immediateMemoryCapture c).2.targets ↔
      ¬ ((c.targets .dram).lockCount = 0 ∧ (c.targets .dram).state = .idle ∧
        Shares c.targets .dram ∧ ∃ t, Shares c.targets t ∧ (c.targets t).state = .locked) := by
  by_cases hready : (c.targets .dram).lockCount = 0 ∧ (c.targets .dram).state = .idle
  · obtain ⟨hcount, hidle⟩ := hready
    rw [immediateMemoryCapture_of_ready hcount hidle]
    split_ifs with hs
    · rw [valid_updateGlobalState, startCapture_targets, valid_iff]
      constructor
      · rintro hv ⟨_, _, _, t, ht, hl⟩
        -- The memory is armed now, beside the locked target.
        have hne : t ≠ .dram := by rintro rfl; rw [hl] at hidle; cases hidle
        have := hv t .dram (by simpa [Shares, hne] using ht) (by simpa [Shares] using hs)
          (by simpa [hne] using hl)
        simp [Target.Ready] at this
      · intro hnot t u ht _ hl
        have hne : t ≠ .dram := by rintro rfl; simp at hl
        exact absurd ⟨hcount, hidle, hs, t, by simpa [Shares, hne] using ht,
          by simpa [hne] using hl⟩ hnot
    · rw [startCapture_targets, iff_true_right (fun hmix => hs hmix.2.2.1)]
      exact h.update (absurd · hs) (absurd · hs) (absurd · hs)
  · rw [immediateMemoryCapture_of_not_ready hready,
      iff_true_right (fun hmix => hready ⟨hmix.1, hmix.2.1⟩)]
    exact h

theorem valid_triggerTargetSetMode {c : Context} (h : Valid c.targets) (t : TargetId)
    (mode : TargetMode) :
    Valid (triggerTargetSetMode t mode c).targets ↔
      ¬ (mode = .shared ∧
        ((c.targets t).state = .locked ∧ (∃ u, Shares c.targets u ∧ ¬ (c.targets u).Ready) ∨
        ¬ (c.targets t).Ready ∧ ∃ u, Shares c.targets u ∧ (c.targets u).state = .locked)) := by
  rw [triggerTargetSetMode, updateSharedTargets, emit_targets, valid_updateGlobalState,
    modify_targets]
  by_cases hm : mode = .shared
  · subst hm
    have hjoin {u : TargetId} (hu : Shares c.targets u) :
        Shares (update c.targets t { c.targets t with mode := .shared }) u := by
      by_cases hut : u = t
      · subst hut; simp [Shares]
      · simpa [Shares, hut] using hu
    have hself : Shares (update c.targets t { c.targets t with mode := .shared }) t := by
      simp [Shares]
    have hstate (u : TargetId) :
        (update c.targets t { c.targets t with mode := .shared } u).state =
          (c.targets u).state := by
      by_cases hut : u = t
      · subst hut; simp
      · simp [hut]
    have hstay {u : TargetId} (hut : u ≠ t)
        (hu : Shares (update c.targets t { c.targets t with mode := .shared }) u) :
        Shares c.targets u := by
      simpa [Shares, hut] using hu
    rw [valid_iff]
    simp only [Target.Ready, hstate, true_and]
    constructor
    · rintro hv (⟨hl, u, hu, hr⟩ | ⟨hr, u, hu, hl⟩)
      · exact hr (hv t u hself (hjoin hu) hl)
      · exact hr (hv u t (hjoin hu) hself hl)
    · intro hnot a b ha hb hl
      by_contra hr
      by_cases hat : a = t
      · subst hat
        have hba : b ≠ a := by rintro rfl; exact hr (.inr hl)
        exact hnot (.inl ⟨hl, b, hstay hba hb, hr⟩)
      · by_cases hbt : b = t
        · subst hbt
          exact hnot (.inr ⟨hr, a, hstay hat ha, hl⟩)
        · exact hr (valid_iff.mp h a b (hstay hat ha) (hstay hbt hb) hl)
  · rw [iff_true_right (fun hmix => hm hmix.1)]
    exact h.update (absurd · hm) (absurd · hm) (absurd · hm)

/-! ### Runs -/

section runs
variable {Client : Type}

/-- The two inputs that put a locked target beside an unready one: an immediate capture that is
carried out while the memory shares the group with a locked target, and a change to shared mode
of a locked target while the group has an unready one, or of an unready target while the group
has a locked one. -/
def Mixes (s : State Client) : Op Client → Prop
  | .immediateCapture =>
      (s.targets .dram).lockCount = 0 ∧ (s.targets .dram).state = .idle ∧
        Shares s.targets .dram ∧ ∃ t, Shares s.targets t ∧ (s.targets t).state = .locked
  | .setMode t mode =>
      mode = .shared ∧
        ((s.targets t).state = .locked ∧ (∃ u, Shares s.targets u ∧ ¬ (s.targets u).Ready) ∨
        ¬ (s.targets t).Ready ∧ ∃ u, Shares s.targets u ∧ (s.targets u).state = .locked)
  | _ => False

variable [DecidableEq Client]

theorem valid_step {s s' : State Client} {a : Op Client × List Event}
    (hs : UpToDate s.toGlobals) (hv : Valid s.targets) (h : (runs Client).Step s a s') :
    Valid s'.targets ↔ ¬ Mixes s a.1 := by
  rw [show s'.targets = _ from congrArg Globals.targets (step_effect h).1]
  obtain ⟨op, out⟩ := a
  have hc : UpToDate s.enter.toGlobals := hs
  have hv : Valid s.enter.targets := hv
  cases op with
  | immediateCapture => exact valid_immediateMemoryCapture hv
  | setMode t mode => exact valid_triggerTargetSetMode hv t mode
  | arm t => exact iff_of_true (valid_armTarget hc hv t) id
  | disarm t => exact iff_of_true (valid_disarmTarget hv t) id
  | sharedArm => exact iff_of_true (valid_armSharedTargets hc hv) id
  | sharedDisarm =>
      rw [Op.effect]
      exact iff_of_true (valid_disarmSharedTargets _) id
  | sharedSetMode mode => exact iff_of_true hv id
  | trigger t => exact iff_of_true (valid_triggerTargetTrigger hv t) id
  | complete t => exact iff_of_true (valid_triggerTargetComplete hc hv t) id
  | lock k t timeout =>
      refine iff_of_true ?_ id
      rw [Op.effect, lockTriggerReady_context]
      split_ifs
      · exact hv.update id (fun _ => id) fun _ => id
      · exact hv
  | wake k t timedOut lastTick poll =>
      refine iff_of_true ?_ id
      rw [Op.effect, waitTriggerReady_context]
      split_ifs
      · exact valid_decrementTriggerLockCount hc hv t
      · exact hv
  | unlock k t => exact iff_of_true (valid_decrementTriggerLockCount hc hv t) id

/-- The states of the group combine to a documented state all along a run exactly if no step of
the run puts a locked target beside an unready one. -/
theorem group_state_valid_iff {s₀ s : State Client} {l : List (State Client × Op Client × List Event)}
    (hi : (machine Client).init s₀) (hp : Runs.Path (runs Client) s₀ l s) :
    Runs.Always (fun s => computeGlobalState s.targets ≠ .invalid) l s ↔
      ∀ x ∈ l, ¬ Mixes x.1 x.2.1 := by
  refine hp.always_iff (I := fun s => UpToDate s.toGlobals) (fun s a s' => upToDate_step)
    (fun s a s' => valid_step) (upToDate_reachable (.init hi)) ?_
  exact valid_of_ready fun t _ => .inl (hi.1.idle t)

/-- A reader of `seq0` makes a shared arm wait; an immediate capture then arms the memory. -/
theorem group_state_invalid_reachable :
    ∃ s, Runs.Reachable (runs ℕ) s ∧ computeGlobalState s.targets = .invalid :=
  ⟨_, (machine ℕ).reachable_after (machine_boot (fun _ => .shared) false)
    [.lock 1 .seq0 0, .sharedArm, .immediateCapture], rfl⟩

/-- A shared cycle that waits for a reader mixes nothing. -/
theorem group_state_valid_cycle :
    let l := (machine ℕ).trace (.boot (fun _ => .shared) false)
      [.lock 1 .seq0 0, .sharedArm, .unlock 1 .seq0, .sharedDisarm]
    l.length = 4 ∧ ∀ x ∈ l, computeGlobalState x.1.targets ≠ .invalid := by
  refine ⟨rfl, ((group_state_valid_iff (machine_boot (fun _ => .shared) false)
    ((machine ℕ).path_trace _ _)).mpr fun x hx => ?_).1⟩
  have hop := (machine ℕ).mem_trace hx
  simp only [List.mem_cons, List.not_mem_nil, or_false] at hop
  rcases hop with hop | hop | hop | hop <;> rw [hop] <;> exact id

end runs

end Mbf.Trigger
