import Mbf.Trigger.Disarm

/-! # Immediate capture

An immediate capture marks the memory so that it is not armed again of itself.  The mark is read
only when the memory stands alone: in shared mode `updateGlobalState` looks at the mark of the group
instead, and arms all its targets whenever it finds them idle with retriggering on, or an arm of the
group postponed, and no lock left (`Retriggers`).  Then, and only then, the memory is armed in
hardware without a request (`immediate_capture_one_shot_iff`). -/

namespace Mbf.Trigger

open Context Function

variable {Client : Type}

/-! ### Where the group is updated -/

/-- The state in which an input has `updateGlobalState` called, if it does so for anything but an arm
or a disarm. -/
def Op.updates : Op Client → Context → Option Context
  | .trigger u, c =>
      if (c.targets u).state = .armed ∧ Shares c.targets u then
        some (setTargetState u .busy c)
      else none
  | .complete u, c =>
      if (c.targets u).state = .busy ∧ Shares c.targets u then
        some (setTargetState u .idle c)
      else none
  | .setMode u mode, c => some (c.modify u fun x => { x with mode := mode })
  | .wake _ u timedOut lastTick poll, c =>
      if GivesUp (c.targets u) timedOut lastTick poll ∧ (c.targets u).lockCount ≤ 1 ∧
          Shares c.targets u then
        some (dropLock u c)
      else none
  | .unlock _ u, c =>
      if (c.targets u).lockCount ≤ 1 ∧ Shares c.targets u then some (dropLock u c) else none
  | _, _ => none

/-- No lock is left in the group, and all its targets are idle with retriggering on and not
suppressed, or an arm of the group is postponed. -/
def ArmsItself (g : Globals) : Prop :=
  Rearms g ∧ ∀ t, Shares g.targets t → (g.targets t).lockCount = 0

instance (g : Globals) : Decidable (Rearms g) := inferInstanceAs (Decidable (_ ∨ _))

instance (g : Globals) : Decidable (ArmsItself g) := inferInstanceAs (Decidable (_ ∧ _))

/-- The input has the group of `t` armed of itself. -/
def Retriggers (t : TargetId) (s : State Client) (op : Op Client) : Prop :=
  Shares s.targets t ∧ ∃ c ∈ op.updates s.enter, ArmsItself c.toGlobals

instance (t : TargetId) (s : State Client) (op : Op Client) : Decidable (Retriggers t s op) :=
  inferInstanceAs (Decidable (_ ∧ _))

section effect
variable {c : Context} {t u : TargetId}

/-- A group that does not arm itself is not armed. -/
theorem emits_updateGlobalState (h : ¬ ArmsItself c.toGlobals) :
    Emits (fun e => e.arms t = false) c (updateGlobalState c) := by
  have hrefresh : Emits (fun e => e.arms t = false) c (refresh c) := .setGlobalState rfl
  by_cases hr : Rearms c.toGlobals
  · rw [updateGlobalState_of_rearms hr]
    refine hrefresh.trans ?_
    cases armSharedTargets_cases (refresh c) with
    | refused _ _ _ out =>
        obtain ⟨m, out⟩ := out
        exact ⟨_, out, List.forall_mem_singleton.mpr rfl⟩
    | nothing _ _ _ out => exact .of_out out
    | postponed _ _ _ _ out =>
        refine ⟨_, out.trans (List.append_assoc ..), fun e he => ?_⟩
        rcases List.mem_append.mp he with he | he
        · obtain ⟨v, _, he⟩ := mem_loopOut.mp he
          exact (postponeOut_tame v _ e he).arms t
        · split_ifs at he
          · cases he
          · rw [List.mem_singleton.mp he]
            rfl
    | armed _ unlocked _ _ _ _ =>
        rw [refresh_targets] at unlocked
        exact absurd ⟨hr, unlocked⟩ h
  · rw [updateGlobalState_of_not_rearms hr]
    exact hrefresh

/-- A group that arms itself arms all its targets. -/
theorem arms_updateGlobalState (h : ArmsItself c.toGlobals) (ht : Shares c.targets t) :
    ∃ e ∈ (updateGlobalState c).out, e.arms t = true := by
  obtain ⟨hr, hunlocked⟩ := h
  rw [updateGlobalState_of_rearms hr]
  have hready : (refresh c).shared.state = .idle ∨ (refresh c).shared.state = .locked := by
    rw [refresh_shared]
    exact hr.ready
  cases armSharedTargets_cases (refresh c) with
  | refused busy _ _ _ => exact absurd hready busy
  | nothing none _ _ _ => exact absurd (by rwa [refresh_targets]) (none t)
  | postponed _ lock _ _ _ =>
      obtain ⟨u, hu, hlock⟩ := lock
      rw [refresh_targets] at hu hlock
      exact absurd (hunlocked u hu) hlock.ne'
  | armed _ _ _ _ _ out =>
      have harms : getSharedMask (refresh c).targets t = true := by
        rw [refresh_targets]
        exact decide_eq_true ht
      refine ⟨.writeTriggerArmShared (getSharedMask (refresh c).targets) (refresh c).targets
        (armSharedTargets (refresh c)).targets, ?_, harms⟩
      rw [out]
      exact List.mem_append_right _ List.mem_cons_self

/-! ### The modes -/

theorem shares_update {x : Target} (h : x.mode = (c.targets u).mode) :
    Shares (update c.targets u x) t ↔ Shares c.targets t := by
  by_cases ht : t = u
  · subst ht
    simp [Shares, h]
  · simp [Shares, ht]

theorem shares_setTargetState (state : TargetState) :
    Shares (setTargetState u state c).targets t ↔ Shares c.targets t := by
  rw [setTargetState_targets]
  exact shares_update rfl

theorem shares_armTarget : Shares (armTarget u c).targets t ↔ Shares c.targets t := by
  by_cases hu : Shares c.targets u
  · rw [armTarget_of_shares hu, shares_armSharedTargets]
  · rw [armTarget_targets hu, shares_update (Target.arm_mode _)]

theorem shares_disarmSharedTargets :
    Shares (disarmSharedTargets c).targets t ↔ Shares c.targets t := by
  rw [disarmSharedTargets_eq, shares_updateGlobalState, disarmLoop_targets, disarmGroup_shares]

theorem shares_decrementTriggerLockCount :
    Shares (decrementTriggerLockCount u c).targets t ↔ Shares c.targets t := by
  rw [decrementTriggerLockCount_eq]
  split_ifs
  · rw [shares_updateGlobalState, shares_dropLock]
  · rw [shares_armTarget, shares_dropLock]
  · exact shares_dropLock t
  · exact shares_dropLock t

/-- Only a change of its own mode takes a target into the group or out of it. -/
theorem shares_effect (op : Op Client) (h : ∀ mode, op ≠ .setMode t mode) :
    Shares (op.effect c).targets t ↔ Shares c.targets t := by
  cases op with
  | arm u => exact shares_armTarget
  | disarm u =>
      rw [Op.effect]
      by_cases hu : Shares c.targets u
      · rw [disarmTarget_of_shares hu]
        exact shares_disarmSharedTargets
      · rw [disarmTarget_targets hu, shares_update (Target.disarm_mode ..)]
  | setMode u mode =>
      have hne : t ≠ u := by
        rintro rfl
        exact h mode rfl
      change Shares (updateGlobalState _).targets t ↔ _
      rw [shares_updateGlobalState, modify_targets, Shares, update_of_ne hne]
      rfl
  | sharedArm => exact shares_armSharedTargets c t
  | sharedDisarm => exact shares_disarmSharedTargets
  | sharedSetMode mode => exact Iff.rfl
  | trigger u =>
      rw [Op.effect]
      unfold triggerTargetTrigger
      dsimp only
      split_ifs
      · rw [shares_updateGlobalState, shares_setTargetState]
      · exact shares_setTargetState _
      · exact Iff.rfl
  | complete u =>
      rw [Op.effect]
      unfold triggerTargetComplete
      dsimp only
      split_ifs
      · exact (shares_updateGlobalState _ t).trans (shares_setTargetState _)
      · exact shares_armTarget.trans (shares_setTargetState _)
      · exact shares_armTarget.trans (shares_setTargetState _)
      · exact shares_setTargetState _
      · exact Iff.rfl
  | immediateCapture =>
      have hstart : Shares (startCapture c).targets t ↔ Shares c.targets t := by
        rw [startCapture_targets]
        exact shares_update rfl
      rw [Op.effect]
      by_cases hready : (c.targets .dram).lockCount = 0 ∧ (c.targets .dram).state = .idle
      · rw [immediateMemoryCapture_of_ready hready.1 hready.2]
        split_ifs
        · rw [shares_updateGlobalState, hstart]
        · exact hstart
      · rw [immediateMemoryCapture_of_not_ready hready]
        exact Iff.rfl
  | lock k u timeout =>
      rw [Op.effect, lockTriggerReady_context]
      split_ifs
      · rw [takeLock_targets]
        exact shares_update rfl
      · exact Iff.rfl
  | wake k u timedOut lastTick poll =>
      rw [Op.effect, waitTriggerReady_context]
      split_ifs
      · exact shares_decrementTriggerLockCount
      · exact Iff.rfl
  | unlock k u => exact shares_decrementTriggerLockCount

end effect

/-! ### The mark -/

/-- Alone, the target is marked, and has no postponed arm. -/
def Marked (g : Globals) (t : TargetId) : Prop :=
  ¬ Shares g.targets t → (g.targets t).dontRearm = true ∧ (g.targets t).state ≠ .locked

section step
variable {s : State Client} {op : Op Client} {t : TargetId}

/-- Giving up a lock, with a target in the group. -/
theorem emits_decrementTriggerLockCount {c : Context} {u : TargetId} (hshares : Shares c.targets t)
    (h : (c.targets u).lockCount ≤ 1 → Shares c.targets u → ¬ ArmsItself (dropLock u c).toGlobals) :
    Emits (fun e => e.arms t = false) c (decrementTriggerLockCount u c) := by
  have hdrop : Emits (fun e => e.arms t = false) c (dropLock u c) := .modify u _
  rw [decrementTriggerLockCount_eq]
  split_ifs with hlast hu
  · exact hdrop.trans (emits_updateGlobalState (h hlast hu))
  · refine hdrop.trans (emits_armTarget ((shares_dropLock u).not.mpr hu) ?_)
    rintro rfl
    exact hu hshares
  · exact hdrop
  · exact hdrop

/-- A target in the group is not armed without a request, unless the group arms itself. -/
theorem emits_effect (hshares : Shares s.targets t) (hrequest : ¬ Requests t s op)
    (h : ¬ Retriggers t s op) :
    Emits (fun e => e.arms t = false) s.enter (op.effect s.enter) := by
  have hshares : Shares s.enter.targets t := hshares
  have hnot : ∀ c, op.updates s.enter = some c → ¬ ArmsItself c.toGlobals :=
    fun c hc harms => h ⟨hshares, c, hc, harms⟩
  cases op with
  | arm u =>
      obtain ⟨hne, hgroup⟩ := not_or.mp hrequest
      exact emits_armTarget (fun hu => hgroup ⟨hshares, hu⟩) (Ne.symm hne)
  | disarm u =>
      rw [Op.effect]
      by_cases hu : Shares s.enter.targets u
      · rw [disarmTarget_of_shares hu]
        exact (still_disarmSharedTargets hshares).out
      · exact (disarmTarget_tame hu).mono fun _ he => he.arms t
  | setMode u mode =>
      exact ((Emits.modify u _).trans (emits_updateGlobalState (hnot _ rfl))).trans (.emit rfl)
  | sharedArm => exact absurd hshares hrequest
  | sharedDisarm => exact (still_disarmSharedTargets hshares).out
  | sharedSetMode mode => exact .of_out rfl
  | trigger u =>
      have hbusy : Emits (fun e => e.arms t = false) s.enter (setTargetState u .busy s.enter) :=
        .setTargetState rfl
      rw [Op.effect]
      unfold triggerTargetTrigger
      dsimp only
      split_ifs with harmed hu
      · exact hbusy.trans (emits_updateGlobalState
          (hnot _ (if_pos ⟨harmed, (shares_setTargetState _).mp hu⟩)))
      · exact hbusy
      · exact .emit rfl
  | complete u =>
      have hidle : Emits (fun e => e.arms t = false) s.enter (setTargetState u .idle s.enter) :=
        .setTargetState rfl
      have harm (hu : ¬ Shares (setTargetState u .idle s.enter).targets u) :
          Emits (fun e => e.arms t = false) s.enter (armTarget u (setTargetState u .idle s.enter)) := by
        refine hidle.trans (emits_armTarget hu ?_)
        rintro rfl
        exact hu ((shares_setTargetState _).mpr hshares)
      rw [Op.effect]
      unfold triggerTargetComplete
      dsimp only
      split_ifs with hbusy hu
      · exact (hidle.trans (emits_updateGlobalState
          (hnot _ (if_pos ⟨hbusy, (shares_setTargetState _).mp hu⟩)))).trans (.emit rfl)
      · exact (harm hu).trans (.emit rfl)
      · exact ((harm hu).trans (.emit rfl)).trans (.emit rfl)
      · exact hidle.trans (.emit rfl)
      · exact .emit rfl
  | immediateCapture => exact absurd trivial hrequest
  | lock k u timeout =>
      rw [Op.effect, lockTriggerReady_context]
      split_ifs
      · exact .of_out rfl
      · exact .refl _
  | wake k u timedOut lastTick poll =>
      rw [Op.effect, waitTriggerReady_context]
      split_ifs with hgives
      · exact emits_decrementTriggerLockCount hshares fun hlast hu =>
          hnot _ (if_pos ⟨hgives, hlast, hu⟩)
      · exact .refl _
  | unlock k u =>
      exact emits_decrementTriggerLockCount hshares fun hlast hu => hnot _ (if_pos ⟨hlast, hu⟩)

/-- A group that arms itself arms its targets. -/
theorem arms_effect (h : Retriggers t s op) (hrequest : ¬ Requests t s op) :
    ∃ e ∈ (op.effect s.enter).out, e.arms t = true := by
  obtain ⟨hshares, c, hc, harms⟩ := h
  have hshares : Shares s.enter.targets t := hshares
  cases op with
  | setMode u mode =>
      cases hc
      have ht : Shares (s.enter.modify u fun x => { x with mode := mode }).targets t := by
        rw [modify_targets, Shares, update_of_ne (Ne.symm hrequest)]
        exact hshares
      obtain ⟨e, he, harmed⟩ := arms_updateGlobalState harms ht
      exact ⟨e, List.mem_append_left _ he, harmed⟩
  | trigger u =>
      obtain ⟨⟨hstate, hu⟩, hsome⟩ := Option.ite_none_right_eq_some.mp hc
      cases hsome
      obtain ⟨e, he, harmed⟩ :=
        arms_updateGlobalState harms ((shares_setTargetState _).mpr hshares)
      have heffect : triggerTargetTrigger u s.enter =
          updateGlobalState (setTargetState u .busy s.enter) :=
        (if_pos hstate).trans (if_pos ((shares_setTargetState _).mpr hu))
      rw [Op.effect, heffect]
      exact ⟨e, he, harmed⟩
  | complete u =>
      obtain ⟨⟨hstate, hu⟩, hsome⟩ := Option.ite_none_right_eq_some.mp hc
      cases hsome
      obtain ⟨e, he, harmed⟩ :=
        arms_updateGlobalState harms ((shares_setTargetState _).mpr hshares)
      have heffect : triggerTargetComplete u s.enter =
          emit .broadcast (updateGlobalState (setTargetState u .idle s.enter)) :=
        (if_pos hstate).trans (congrArg (emit .broadcast)
          (if_pos ((shares_setTargetState _).mpr hu)))
      rw [Op.effect, heffect]
      exact ⟨e, List.mem_append_left _ he, harmed⟩
  | wake k u timedOut lastTick poll =>
      obtain ⟨⟨hgives, hlast, hu⟩, hsome⟩ := Option.ite_none_right_eq_some.mp hc
      cases hsome
      rw [Op.effect, waitTriggerReady_context, if_pos hgives, decrementTriggerLockCount_eq,
        if_pos hlast, if_pos hu]
      exact arms_updateGlobalState harms ((shares_dropLock t).mpr hshares)
  | unlock k u =>
      obtain ⟨⟨hlast, hu⟩, hsome⟩ := Option.ite_none_right_eq_some.mp hc
      cases hsome
      rw [Op.effect, unlockTriggerReady, decrementTriggerLockCount_eq, if_pos hlast, if_pos hu]
      exact arms_updateGlobalState harms ((shares_dropLock t).mpr hshares)
  | _ => cases hc

variable [DecidableEq Client]

/-- A marked target stays marked, and is armed without a request exactly when the group arms
itself. -/
theorem marked_step {s' : State Client} {a : Op Client × List Event} (h : Marked s.toGlobals t)
    (hrequest : ¬ Requests t s a.1) (hstep : (runs Client).Step s a s') :
    Marked s'.toGlobals t ∧ ((∀ e ∈ a.2, e.arms t = false) ↔ ¬ Retriggers t s a.1) := by
  obtain ⟨hglobals, hout⟩ := step_effect hstep
  have hmode : ∀ mode, a.1 ≠ .setMode t mode := by
    intro mode hmode
    rw [hmode] at hrequest
    exact hrequest rfl
  have hkept := shares_effect (c := s.enter) a.1 hmode
  by_cases hshares : Shares s.targets t
  · refine ⟨fun hs => ?_, ?_⟩
    · rw [hglobals] at hs
      exact absurd (hkept.mpr hshares) hs
    · rw [hout]
      constructor
      · intro hquiet hretriggers
        obtain ⟨e, he, harms⟩ := arms_effect hretriggers hrequest
        rw [hquiet e he] at harms
        cases harms
      · intro hnot
        obtain ⟨es, hes, harms⟩ := emits_effect hshares hrequest hnot
        rw [hes]
        exact harms
  · have hquelled : Quelled s.toGlobals t := ⟨h, fun hs => absurd hs hshares⟩
    have hjoin : ¬ Joins t s a.1 := by
      cases a.1 with
      | setMode u mode => exact fun hj => hshares hj.2.1
      | _ => exact id
    obtain ⟨hquelled', hquiet⟩ := still_step (still_effect hquelled hrequest hjoin) hstep
    exact ⟨hquelled'.alone, fun _ hretriggers => hshares hretriggers.1, fun _ => hquiet⟩

/-- An immediate capture marks the memory, and arms nothing. -/
theorem marked_immediateCapture {s s' : State Client} {out : List Event}
    (hcount : (s.targets .dram).lockCount = 0) (hidle : (s.targets .dram).state = .idle)
    (hstep : (runs Client).Step s (.immediateCapture, out) s') :
    Marked s'.toGlobals .dram ∧ ∀ e ∈ out, e.arms .dram = false := by
  have hstep : Trigger.step s .immediateCapture = some (s', out) := hstep
  obtain ⟨hglobals, hout⟩ := step_effect hstep
  have hcapture := immediateMemoryCapture_of_ready (c := s.enter) hcount hidle
  rw [Op.effect, hcapture] at hglobals hout
  have hstart : Emits (fun e => e.arms .dram = false) s.enter (startCapture s.enter) :=
    startCapture_tame.mono fun _ he => he.arms .dram
  have hkept : Shares (startCapture s.enter).targets .dram ↔ Shares s.enter.targets .dram := by
    rw [startCapture_targets]
    exact shares_update rfl
  have hquiet : ∀ c, Emits (fun e => e.arms .dram = false) s.enter c →
      ∀ e ∈ c.out, e.arms .dram = false := by
    rintro c ⟨es, hes, harms⟩
    rw [hes]
    exact harms
  by_cases hshares : Shares s.enter.targets .dram
  · rw [if_pos hshares] at hglobals hout
    -- The memory is armed, so the group is not ready.
    have hnot : ¬ ArmsItself (startCapture s.enter).toGlobals := by
      rintro ⟨hrearms, -⟩
      have hready := (computeGlobalState_ready_iff _).mp hrearms.ready .dram (hkept.mpr hshares)
      rw [startCapture_targets, update_self] at hready
      rcases hready with hready | hready <;> cases hready
    refine ⟨fun hs => ?_, hout ▸ hquiet _ (hstart.trans (emits_updateGlobalState hnot))⟩
    rw [hglobals] at hs
    exact absurd ((shares_updateGlobalState _ _).mpr (hkept.mpr hshares)) hs
  · rw [if_neg hshares] at hglobals hout
    refine ⟨fun _ => ?_, hout ▸ hquiet _ hstart⟩
    rw [hglobals, startCapture_targets, update_self]
    exact ⟨rfl, fun h => (by cases h)⟩

/-- **Immediate capture is one-shot**, until the memory or its group is to be armed or its mode
changes, exactly as long as its group does not arm itself. -/
theorem immediate_capture_one_shot_iff {s₀ s₁ s₂ : State Client} {out : List Event}
    {l : List (State Client × Op Client × List Event)}
    (hcount : (s₀.targets .dram).lockCount = 0) (hidle : (s₀.targets .dram).state = .idle)
    (hstep : (runs Client).Step s₀ (.immediateCapture, out) s₁)
    (hp : Runs.Path (runs Client) s₁ l s₂) (hl : ∀ x ∈ l, ¬ Requests .dram x.1 x.2.1) :
    (∀ e ∈ out, e.arms .dram = false) ∧
      ((∀ x ∈ l, ∀ e ∈ x.2.2, e.arms .dram = false) ↔
        ∀ x ∈ l, ¬ Retriggers .dram x.1 x.2.1) := by
  obtain ⟨hmarked, hout⟩ := marked_immediateCapture hcount hidle hstep
  have hsteps := hp.until (J := fun s => Marked s.toGlobals .dram)
    (R := fun s a => Requests .dram s a.1)
    (G := fun s a => (∀ e ∈ a.2, e.arms .dram = false) ↔ ¬ Retriggers .dram s a.1)
    (fun s a s' hJ hrequest hs => marked_step hJ hrequest hs) hmarked hl
  exact ⟨hout, forall₂_congr hsteps⟩

/-- Retriggering is on, but the group of the memory has not been armed yet; the capture completes
among a lock and events of other targets. -/
theorem immediate_capture_one_shot_suppressed :
    let s₀ := (machine ℕ).after (.boot (fun t => if t = .seq0 then .rearm else .shared) true)
      [.arm .seq0]
    ∀ x ∈ (machine ℕ).trace ((machine ℕ).after s₀ [.immediateCapture]) [.trigger .dram,
      .lock 1 .seq1 0, .trigger .seq0, .complete .dram, .unlock 1 .seq1, .complete .seq0],
      ∀ e ∈ x.2.2, e.arms .dram = false := by
  intro s₀
  obtain ⟨out, hstep⟩ := (machine ℕ).exists_step (s := s₀) (i := .immediateCapture) rfl
  refine (immediate_capture_one_shot_iff rfl rfl hstep ((machine ℕ).path_trace _ _)
    fun x hx => ?_).2.mpr (by decide +kernel)
  have hop := (machine ℕ).mem_trace hx
  simp only [List.mem_cons, List.not_mem_nil, or_false] at hop
  rcases hop with hop | hop | hop | hop | hop | hop <;> rw [hop] <;> simp [Requests]

/-- The group of the memory has been armed before; with retriggering switched on, the immediate
capture is followed by another one. -/
theorem immediate_capture_not_one_shot :
    ∃ (s₀ s₁ s₂ : State ℕ) (out : List Event) (l : List (State ℕ × Op ℕ × List Event)),
      Runs.Reachable (runs ℕ) s₀ ∧ (s₀.targets .dram).lockCount = 0 ∧
      (s₀.targets .dram).state = .idle ∧ (runs ℕ).Step s₀ (.immediateCapture, out) s₁ ∧
      Runs.Path (runs ℕ) s₁ l s₂ ∧ (∀ x ∈ l, ¬ Requests .dram x.1 x.2.1) ∧
      ∃ x ∈ l, x.2.1 = .complete .dram ∧ ∃ e ∈ x.2.2, e.arms .dram = true := by
  let s₀ := (machine ℕ).after (.boot (fun t => if t = .dram then .shared else .oneShot) false)
    [.sharedArm, .trigger .dram, .complete .dram, .sharedSetMode true]
  obtain ⟨out, hstep⟩ := (machine ℕ).exists_step (s := s₀) (i := .immediateCapture) rfl
  refine ⟨s₀, _, _, out, _, (machine ℕ).reachable_after (machine_boot _ false) _, rfl, rfl, hstep,
    (machine ℕ).path_trace _ [.trigger .dram, .complete .dram], fun x hx => ?_, ?_⟩
  · have hop := (machine ℕ).mem_trace hx
    simp only [List.mem_cons, List.not_mem_nil, or_false] at hop
    rcases hop with hop | hop <;> rw [hop] <;> simp [Requests]
  · decide +kernel

end step

end Mbf.Trigger
