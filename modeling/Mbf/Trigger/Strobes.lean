import Mbf.Trigger.Board
import Mbf.Trigger.Disarm
import Mbf.Trigger.SharedArm

/-! # What a function asks of the hardware of one target

Seen from one target, a function of the module is a change of the target's state together with
the strobes its calls raise at that target, in order.  Most functions do no more than keep the
target up (`Upkeep`): a ready target may change between idle and locked, or be armed with all
that this takes, and any other is left alone.  This relation is transitive, so it is proved
once for each function and composed.  What remains are the commands with a strobe of their own:
the disarms and the immediate capture (`Commands`). -/

namespace Mbf.Trigger

open Context Function

/-- The strobes the calls `es` raise at `t`. -/
def strobes (t : TargetId) (es : List Event) : List Strobe := es.filterMap (Event.strobe t)

/-- Ready to deliver data. -/
def TargetState.Ready (s : TargetState) : Prop := s = .idle ∨ s = .locked

/-- The strobes of the `prepare_target` method. -/
def prepareStrobes : TargetId → List Strobe
  | .dram => [.capture true false]
  | _ => []

/-- A change of the state of `t`, with the strobes raised, that only keeps the target up. -/
inductive Upkeep (t : TargetId) : TargetState → List Strobe → TargetState → Prop
  | stay (s : TargetState) : Upkeep t s [] s
  | ready {s s' : TargetState} : s.Ready → s'.Ready → Upkeep t s [] s'
  | arm {s : TargetState} : s.Ready → Upkeep t s (prepareStrobes t ++ [.arm]) .armed

theorem Upkeep.trans {t : TargetId} {s s' s'' : TargetState} {w w' : List Strobe}
    (h : Upkeep t s w s') (h' : Upkeep t s' w' s'') : Upkeep t s (w ++ w') s'' := by
  have hnot : ¬ TargetState.Ready .armed := by simp [TargetState.Ready]
  cases h with
  | stay => exact h'
  | ready hs hs' =>
      cases h' with
      | stay => exact .ready hs hs'
      | ready _ hs'' => exact .ready hs hs''
      | arm _ => exact .arm hs
  | arm hs =>
      cases h' with
      | stay => rw [List.append_nil]; exact .arm hs
      | ready hs' _ => exact absurd hs' hnot
      | arm hs' => exact absurd hs' hnot

/-- The change that commands other than arms make. -/
inductive Commands (t : TargetId) : TargetState → List Strobe → TargetState → Prop
  | disarm {s s' : TargetState} : s.Ready → s'.Ready → Commands t s [.disarm] s'
  | late : Commands t .busy [.disarm] .busy
  | cancel : t ≠ .dram → Commands t .armed [.disarm] .idle
  | force : t = .dram → Commands t .armed [.disarm, .fire] .armed
  | capture : t = .dram → Commands t .idle [.capture true false, .fire] .armed

/-- From `c` to `c'` the target `t` is kept up. -/
def KeepsUp (t : TargetId) (c c' : Context) : Prop :=
  ∃ es, c'.out = c.out ++ es ∧
    Upkeep t (c.targets t).state (strobes t es) (c'.targets t).state

/-- From `c` to `c'` the change `R` is made to target `t`. -/
def Makes (R : TargetState → List Strobe → TargetState → Prop) (t : TargetId) (c c' : Context) :
    Prop :=
  ∃ es, c'.out = c.out ++ es ∧ R (c.targets t).state (strobes t es) (c'.targets t).state

@[simp] theorem strobes_nil (t : TargetId) : strobes t [] = [] := rfl

theorem strobes_append (t : TargetId) (es es' : List Event) :
    strobes t (es ++ es') = strobes t es ++ strobes t es' :=
  List.filterMap_append

section keepsUp
variable {t : TargetId} {c c' c'' : Context}

theorem KeepsUp.refl (t : TargetId) (c : Context) : KeepsUp t c c := ⟨[], by simp, .stay _⟩

theorem KeepsUp.trans (h : KeepsUp t c c') (h' : KeepsUp t c' c'') : KeepsUp t c c'' := by
  obtain ⟨es, hes, hu⟩ := h
  obtain ⟨es', hes', hu'⟩ := h'
  refine ⟨es ++ es', by rw [hes', hes, List.append_assoc], ?_⟩
  rw [strobes_append]
  exact hu.trans hu'

/-- Calls that raise no strobe, and a state that stays. -/
theorem KeepsUp.of_silent (hs : (c'.targets t).state = (c.targets t).state)
    (hout : Emits (fun e => e.strobe t = none) c c') : KeepsUp t c c' := by
  obtain ⟨es, hes, hsilent⟩ := hout
  refine ⟨es, hes, ?_⟩
  rw [hs, strobes, List.filterMap_eq_nil_iff.mpr hsilent]
  exact .stay _

theorem KeepsUp.emit {e : Event} (h : e.strobe t = none) : KeepsUp t c (emit e c) :=
  .of_silent rfl (.emit h)

end keepsUp

/-! ### Loops -/

/-- Of the targets a loop visits, only `t` itself raises strobes at `t`. -/
theorem strobes_loopOut {o : TargetId → Target → List Event} {t : TargetId}
    (ho : ∀ u x, u ≠ t → strobes t (o u x) = []) (targets : Targets) :
    strobes t (loopOut o targets) =
      if Shares targets t then strobes t (o t (targets t)) else [] := by
  have hother (u : TargetId) (hu : u ≠ t) :
      strobes t (if (targets u).mode = .shared then o u (targets u) else []) = [] := by
    split_ifs
    · exact ho u _ hu
    · rfl
  have hself : strobes t (if (targets t).mode = .shared then o t (targets t) else []) =
      if Shares targets t then strobes t (o t (targets t)) else [] := by
    by_cases h : Shares targets t
    · rw [if_pos h, if_pos (show (targets t).mode = .shared from h)]
    · rw [if_neg h, if_neg (show (targets t).mode ≠ .shared from h)]
      rfl
  rw [loopOut]
  simp only [allTargets, List.flatMap_cons, List.flatMap_nil, strobes_append, List.append_nil]
  cases t with
  | seq0 => rw [hself, hother .seq1 (by decide), hother .dram (by decide)]; simp
  | seq1 => rw [hself, hother .seq0 (by decide), hother .dram (by decide)]; simp
  | dram => rw [hself, hother .seq0 (by decide), hother .seq1 (by decide)]; simp

theorem strobes_armOut_other (t u : TargetId) (x : Target) (h : u ≠ t) :
    strobes t (armOut u x) = [] := by
  unfold armOut
  split_ifs <;> cases u <;> cases t <;> first | exact absurd rfl h | rfl

theorem strobes_armOut (t : TargetId) (x : Target) :
    strobes t (armOut t x) = if x.Ready ∧ x.lockCount = 0 then prepareStrobes t else [] := by
  unfold armOut
  split_ifs with h₁ h₂ <;> first | (cases t <;> rfl) | simp_all

theorem strobes_postponeOut (t u : TargetId) (x : Target) : strobes t (postponeOut u x) = [] := by
  unfold postponeOut
  split_ifs <;> rfl

theorem strobes_disarmOut_other (t u : TargetId) (x : Target) (h : u ≠ t) :
    strobes t (disarmOut u x) = [] := by
  unfold disarmOut
  split_ifs <;> cases u <;> cases t <;> first | exact absurd rfl h | rfl

/-- The strobes of the `stop_target` method. -/
theorem strobes_disarmOut (t : TargetId) (x : Target) :
    strobes t (disarmOut t x) = if x.state = .armed ∧ t = .dram then [.fire] else [] := by
  unfold disarmOut
  split_ifs <;> cases t <;> simp_all [stopEvents, stopState, strobes, Event.strobe, singleMask]

/-! ### Arming -/

section functions
variable {c : Context} {t u : TargetId}

/-- The state of a target after it was armed, or its arm postponed. -/
theorem upkeep_arm (t : TargetId) (x : Target) :
    Upkeep t x.state
      (if x.Ready ∧ x.lockCount = 0 then prepareStrobes t ++ [.arm] else []) x.arm.state := by
  by_cases hr : x.Ready
  · by_cases hl : x.lockCount = 0
    · rw [if_pos ⟨hr, hl⟩, Target.arm_armed hr hl]
      exact .arm hr
    · rw [if_neg (fun h => hl h.2), Target.arm, if_pos hr, if_neg hl]
      exact .ready hr (.inr rfl)
  · rw [if_neg (fun h => hr h.1), Target.arm, if_neg hr]
    exact .stay _

theorem keepsUp_armSharedTargets (hc : UpToDate c.toGlobals) (t : TargetId) :
    KeepsUp t c (armSharedTargets c) := by
  cases armSharedTargets_cases c with
  | refused _ targets _ out =>
      obtain ⟨m, out⟩ := out
      exact .of_silent (by rw [targets]) ⟨_, out, by simp [Event.strobe]⟩
  | nothing _ targets _ out => exact .of_silent (by rw [targets]) (.of_out out)
  | postponed ready _ targets _ out =>
      refine ⟨_, out.trans (List.append_assoc ..), ?_⟩
      have hsilent : strobes t (loopOut postponeOut c.targets ++
          if c.shared.state = .locked then [] else [.sharedState .locked]) = [] := by
        rw [strobes_append, strobes_loopOut fun u x _ => strobes_postponeOut t u x,
          strobes_postponeOut]
        split_ifs <;> rfl
      rw [hsilent, targets]
      split_ifs with ht
      · have hready := (computeGlobalState_ready_iff _).mp (hc ▸ ready) t ht
        unfold Target.postpone
        split_ifs
        · exact .ready hready (.inr rfl)
        · exact .stay _
      · exact .stay _
  | armed ready unlocked _ targets _ out =>
      refine ⟨_, out.trans (List.append_assoc ..), ?_⟩
      rw [strobes_append, strobes_loopOut (strobes_armOut_other t), targets]
      by_cases ht : Shares c.targets t
      · have hready := (computeGlobalState_ready_iff _).mp (hc ▸ ready) t ht
        have harm := upkeep_arm t (c.targets t)
        rw [if_pos ⟨hready, unlocked t ht⟩] at harm
        have hmask : getSharedMask c.targets t = true := decide_eq_true ht
        rw [if_pos ht, if_pos ht, strobes_armOut, if_pos ⟨hready, unlocked t ht⟩]
        simpa [strobes, List.filterMap_cons, Event.strobe, hmask] using harm
      · have hmask : getSharedMask c.targets t = false := decide_eq_false ht
        rw [if_neg ht, if_neg ht]
        simpa [strobes, List.filterMap_cons, Event.strobe, hmask] using
          Upkeep.stay (t := t) (c.targets t).state

theorem keepsUp_refresh (t : TargetId) (c : Context) : KeepsUp t c (refresh c) :=
  .of_silent (by rw [refresh_targets]) (.setGlobalState rfl)

theorem keepsUp_updateGlobalState (t : TargetId) (c : Context) :
    KeepsUp t c (updateGlobalState c) := by
  by_cases h : Rearms c.toGlobals
  · rw [updateGlobalState_of_rearms h]
    exact (keepsUp_refresh t c).trans (keepsUp_armSharedTargets (upToDate_refresh c) t)
  · rw [updateGlobalState_of_not_rearms h]
    exact keepsUp_refresh t c

theorem keepsUp_armTarget (hc : UpToDate c.toGlobals) (t u : TargetId) :
    KeepsUp t c (armTarget u c) := by
  by_cases hu : Shares c.targets u
  · rw [armTarget_of_shares hu]
    exact keepsUp_armSharedTargets hc t
  · have hout : (doArmTarget u c).2.out = c.out ++ armOut u (c.targets u) :=
      doArmTarget_local.log u c
    have harmed := doArmTarget_fst u c
    have hall : (armTarget u c).out = c.out ++ (armOut u (c.targets u) ++
        if (c.targets u).Ready ∧ (c.targets u).lockCount = 0 then
          [.writeTriggerArm (getTargetMask u)] else []) := by
      rw [armTarget_of_not_shares hu, harmed]
      by_cases h : (c.targets u).Ready ∧ (c.targets u).lockCount = 0
      · simp [h, doArmTargetHardware, hout]
      · simp [h, hout]
    refine ⟨_, hall, ?_⟩
    rw [armTarget_targets hu, strobes_append]
    by_cases htu : t = u
    · subst htu
      have harm := upkeep_arm t (c.targets t)
      rw [strobes_armOut, update_self]
      by_cases h : (c.targets t).Ready ∧ (c.targets t).lockCount = 0
      · rw [if_pos h] at harm
        simpa [h, strobes, Event.strobe, getTargetMask, singleMask] using harm
      · rw [if_neg h] at harm
        simpa [h, strobes] using harm
    · rw [strobes_armOut_other t u _ (Ne.symm htu), update_of_ne htu]
      have hmask : getTargetMask u t = false := decide_eq_false htu
      split_ifs
      · simpa [strobes, Event.strobe, hmask] using Upkeep.stay (t := t) (c.targets t).state
      · exact .stay _

/-! ### Locks and modes -/

theorem keepsUp_modify {f : Target → Target} (hf : ∀ x, (f x).state = x.state) (t u : TargetId)
    (c : Context) : KeepsUp t c (c.modify u f) := by
  refine .of_silent ?_ (.modify u f)
  by_cases htu : t = u
  · subst htu; simp [hf]
  · simp [htu]

theorem keepsUp_decrementTriggerLockCount (hc : UpToDate c.toGlobals) (t u : TargetId) :
    KeepsUp t c (decrementTriggerLockCount u c) := by
  have hdrop : KeepsUp t c (dropLock u c) :=
    keepsUp_modify (f := fun x => { x with lockCount := x.lockCount - 1 }) (fun _ => rfl) t u c
  rw [decrementTriggerLockCount_eq]
  split_ifs
  · exact hdrop.trans (keepsUp_updateGlobalState t _)
  · exact hdrop.trans (keepsUp_armTarget (upToDate_dropLock hc u) t u)
  · exact hdrop
  · exact hdrop

theorem keepsUp_triggerTargetSetMode (t u : TargetId) (mode : TargetMode) (c : Context) :
    KeepsUp t c (triggerTargetSetMode u mode c) :=
  ((keepsUp_modify (f := fun x => { x with mode := mode }) (fun _ => rfl) t u c).trans
    (keepsUp_updateGlobalState t _)).trans (.emit rfl)

/-! ### Disarming -/

/-- What a disarm does to its target. -/
theorem commands_disarm (t : TargetId) (x : Target) :
    Commands t x.state (.disarm :: if x.state = .armed ∧ t = .dram then [.fire] else [])
      (x.disarm t).state := by
  cases hs : x.state with
  | idle => simpa [Target.disarm, hs] using .disarm (.inl rfl) (.inl rfl)
  | locked => simpa [Target.disarm, hs] using .disarm (.inr rfl) (.inl rfl)
  | busy => simpa [Target.disarm, hs] using .late
  | armed =>
      by_cases ht : t = .dram
      · subst ht
        simpa [Target.disarm, hs, stopState] using .force rfl
      · have hstop : stopState t = .idle := by cases t <;> simp_all [stopState]
        simpa [Target.disarm, hs, ht, hstop] using .cancel ht

theorem disarmLoop_out (c : Context) : (disarmLoop c).out =
    c.out ++ .writeTriggerDisarm (getSharedMask c.targets) :: loopOut disarmOut c.targets := by
  have := loop_out doDisarmTarget_local
    (doDisarmSharedHardware { c with shared := { c.shared with dontRearm := true } })
  simpa [disarmLoop, doDisarmSharedHardware] using this

theorem makes_disarmSharedTargets (ht : Shares c.targets t) :
    Makes (Commands t) t c (disarmSharedTargets c) := by
  have hnot := (quelled_disarmLoop ht).not_rearms
    (by rw [disarmLoop_targets, disarmGroup_shares]; exact ht)
  obtain ⟨es, hes, hsilent⟩ : Emits (fun e => e.strobe t = none) (disarmLoop c)
      (refresh (disarmLoop c)) := .setGlobalState rfl
  refine ⟨.writeTriggerDisarm (getSharedMask c.targets) :: loopOut disarmOut c.targets ++ es,
    ?_, ?_⟩
  · rw [disarmSharedTargets_eq, updateGlobalState_of_not_rearms hnot, hes, disarmLoop_out,
      List.append_assoc]
  · have hmask : getSharedMask c.targets t = true := decide_eq_true ht
    have hrest : strobes t es = [] := List.filterMap_eq_nil_iff.mpr hsilent
    have hcommand := commands_disarm t (c.targets t)
    rw [disarmSharedTargets_eq, updateGlobalState_of_not_rearms hnot, refresh_targets,
      disarmLoop_targets, disarmGroup, if_pos ht, strobes_append, hrest, List.append_nil,
      strobes, List.filterMap_cons]
    simp only [Event.strobe, hmask, if_true]
    rw [← strobes, strobes_loopOut (strobes_disarmOut_other t), if_pos ht, strobes_disarmOut]
    exact hcommand

theorem keepsUp_disarmSharedTargets (ht : ¬ Shares c.targets t) :
    KeepsUp t c (disarmSharedTargets c) := by
  have hmask : getSharedMask c.targets t = false := decide_eq_false ht
  have hloop : KeepsUp t c (disarmLoop c) := by
    refine .of_silent (by rw [disarmLoop_targets, disarmGroup, if_neg ht])
      ⟨_, disarmLoop_out c, fun e he => ?_⟩
    have hnil : strobes t (.writeTriggerDisarm (getSharedMask c.targets) ::
        loopOut disarmOut c.targets) = [] := by
      rw [strobes, List.filterMap_cons]
      simp only [Event.strobe, hmask]
      rw [← strobes, strobes_loopOut (strobes_disarmOut_other t), if_neg ht]
      rfl
    exact List.filterMap_eq_nil_iff.mp hnil e he
  rw [disarmSharedTargets_eq]
  exact hloop.trans (keepsUp_updateGlobalState t _)

theorem disarmTarget_change (t u : TargetId) (c : Context) :
    KeepsUp t c (disarmTarget u c) ∨ Makes (Commands t) t c (disarmTarget u c) := by
  by_cases hu : Shares c.targets u
  · rw [disarmTarget_of_shares hu]
    by_cases ht : Shares c.targets t
    · exact .inr (makes_disarmSharedTargets ht)
    · exact .inl (keepsUp_disarmSharedTargets ht)
  · have hout : (disarmTarget u c).out =
        c.out ++ .writeTriggerDisarm (getTargetMask u) :: disarmOut u (c.targets u) := by
      have : (doDisarmTarget u (doDisarmTargetHardware u c)).out = _ :=
        doDisarmTarget_local.log u _
      rw [disarmTarget_of_not_shares hu, this]
      simp [contextView, doDisarmTargetHardware]
    by_cases htu : t = u
    · subst htu
      refine .inr ⟨_, hout, ?_⟩
      have hmask : getTargetMask t t = true := decide_eq_true rfl
      rw [disarmTarget_targets hu, update_self, strobes, List.filterMap_cons]
      simp only [Event.strobe, hmask, if_true]
      rw [← strobes, strobes_disarmOut]
      exact commands_disarm t _
    · refine .inl (.of_silent ?_ ⟨_, hout, fun e he => ?_⟩)
      · rw [disarmTarget_targets hu, update_of_ne htu]
      · rcases List.mem_cons.mp he with rfl | he
        · have hmask : getTargetMask u t = false := decide_eq_false htu
          simp [Event.strobe, hmask]
        · exact List.filterMap_eq_nil_iff.mp
            (strobes_disarmOut_other t u (c.targets u) (Ne.symm htu)) e he

/-! ### Immediate capture and events -/

theorem startCapture_out (hidle : (c.targets .dram).state = .idle) : (startCapture c).out =
    c.out ++ [.writeDramCaptureCommand true false, .writeTriggerFire (singleMask .dram),
      .targetState .dram .armed] := by
  simp [startCapture, hidle]

theorem immediateMemoryCapture_change (t : TargetId) (c : Context) :
    KeepsUp t c (immediateMemoryCapture c).2 ∨
      Makes (Commands t) t c (immediateMemoryCapture c).2 := by
  by_cases hready : (c.targets .dram).lockCount = 0 ∧ (c.targets .dram).state = .idle
  · rw [immediateMemoryCapture_of_ready hready.1 hready.2]
    have hout := startCapture_out hready.2
    by_cases ht : t = .dram
    · subst ht
      -- The update that may follow finds the memory armed, and leaves it alone.
      have hstart : ((startCapture c).targets .dram).state = .armed := by simp
      have hend : ∃ es, (if Shares c.targets .dram then updateGlobalState (startCapture c)
            else startCapture c).out = (startCapture c).out ++ es ∧ strobes .dram es = [] ∧
          ((if Shares c.targets .dram then updateGlobalState (startCapture c)
            else startCapture c).targets .dram).state = .armed := by
        split_ifs
        · obtain ⟨es, hes, hup⟩ := keepsUp_updateGlobalState .dram (startCapture c)
          rw [hstart] at hup
          refine ⟨es, hes, ?_⟩
          generalize strobes .dram es = w at hup ⊢
          generalize ((updateGlobalState (startCapture c)).targets .dram).state = s at hup ⊢
          cases hup with
          | stay => exact ⟨rfl, rfl⟩
          | ready h _ => simp [TargetState.Ready] at h
          | arm h => simp [TargetState.Ready] at h
        · exact ⟨[], by simp, rfl, hstart⟩
      obtain ⟨es, hes, hsilent, hstate⟩ := hend
      refine .inr ⟨_, by rw [hes, hout, List.append_assoc], ?_⟩
      rw [hready.2, hstate, strobes_append, hsilent]
      exact .capture rfl
    · have hstart : KeepsUp t c (startCapture c) := by
        refine .of_silent (by simp [ht]) ⟨_, hout, fun e he => ?_⟩
        simp only [List.mem_cons, List.not_mem_nil, or_false] at he
        rcases he with rfl | rfl | rfl <;> simp [Event.strobe, singleMask, ht]
      refine .inl ?_
      split_ifs
      · exact hstart.trans (keepsUp_updateGlobalState t _)
      · exact hstart
  · rw [immediateMemoryCapture_of_not_ready hready]
    exact .inl (.emit rfl)

/-- A trigger event for another target, or an unexpected one. -/
theorem keepsUp_setTargetState (htu : t ≠ u) (s : TargetState) (c : Context) :
    KeepsUp t c (setTargetState u s c) :=
  .of_silent (by simp [htu]) (.setTargetState rfl)

theorem keepsUp_triggerTargetTrigger (htu : t ≠ u) (c : Context) :
    KeepsUp t c (triggerTargetTrigger u c) := by
  have hbusy := keepsUp_setTargetState htu .busy c
  unfold triggerTargetTrigger
  split_ifs
  · dsimp only
    split_ifs
    · exact hbusy.trans (keepsUp_updateGlobalState t _)
    · exact hbusy
  · exact .emit rfl

/-- An expected trigger makes its target busy, and no more. -/
theorem makes_triggerTargetTrigger (h : (c.targets t).state = .armed) :
    Makes (fun _ w s' => w = [] ∧ s' = .busy) t c (triggerTargetTrigger t c) := by
  obtain ⟨es₀, hes₀, hsilent₀⟩ : Emits (fun e => e.strobe t = none) c (setTargetState t .busy c) :=
    .setTargetState rfl
  have hnil₀ : strobes t es₀ = [] := List.filterMap_eq_nil_iff.mpr hsilent₀
  have hbusy : ((setTargetState t .busy c).targets t).state = .busy := by simp
  unfold triggerTargetTrigger
  rw [if_pos h]
  dsimp only
  split_ifs
  · obtain ⟨es, hes, hup⟩ := keepsUp_updateGlobalState t (setTargetState t .busy c)
    refine ⟨es₀ ++ es, by rw [hes, hes₀, List.append_assoc], ?_⟩
    rw [strobes_append, hnil₀, List.nil_append]
    rw [hbusy] at hup
    generalize strobes t es = w at hup ⊢
    generalize ((updateGlobalState (setTargetState t .busy c)).targets t).state = s at hup ⊢
    cases hup with
    | stay => exact ⟨rfl, rfl⟩
    | ready h _ => simp [TargetState.Ready] at h
    | arm h => simp [TargetState.Ready] at h
  · exact ⟨es₀, hes₀, hnil₀, hbusy⟩

theorem keepsUp_complete (hc : UpToDate c.toGlobals) (htu : t ≠ u) :
    KeepsUp t c (triggerTargetComplete u c) := by
  have hidle := keepsUp_setTargetState htu .idle c
  unfold triggerTargetComplete
  split_ifs
  · refine KeepsUp.trans ?_ (.emit (e := .broadcast) rfl)
    split_ifs with hmode
    · exact hidle.trans (keepsUp_updateGlobalState t _)
    · exact hidle.trans (keepsUp_armTarget
        (tidy_setTargetState hc u .idle (by simpa [Shares] using hmode)).upToDate t u)
    · exact (hidle.trans (keepsUp_armTarget
        (tidy_setTargetState hc u .idle (by simpa [Shares] using hmode)).upToDate t u)).trans
        (.emit rfl)
    · exact hidle
  · exact .emit rfl

/-- An expected completion makes its target idle, and then keeps it up. -/
theorem makes_triggerTargetComplete (hc : UpToDate c.toGlobals)
    (h : (c.targets t).state = .busy) :
    Makes (fun _ w s' => Upkeep t .idle w s') t c (triggerTargetComplete t c) := by
  obtain ⟨es₀, hes₀, hsilent₀⟩ : Emits (fun e => e.strobe t = none) c (setTargetState t .idle c) :=
    .setTargetState rfl
  have hnil₀ : strobes t es₀ = [] := List.filterMap_eq_nil_iff.mpr hsilent₀
  have hidle : ((setTargetState t .idle c).targets t).state = .idle := by simp
  have hkeep : KeepsUp t (setTargetState t .idle c) (triggerTargetComplete t c) := by
    unfold triggerTargetComplete
    rw [if_pos h]
    refine KeepsUp.trans ?_ (.emit (e := .broadcast) rfl)
    split_ifs with hmode
    · exact keepsUp_updateGlobalState t _
    · exact keepsUp_armTarget
        (tidy_setTargetState hc t .idle (by simpa [Shares] using hmode)).upToDate t t
    · exact (keepsUp_armTarget
        (tidy_setTargetState hc t .idle (by simpa [Shares] using hmode)).upToDate t t).trans
        (.emit rfl)
    · exact .refl t _
  obtain ⟨es, hes, hup⟩ := hkeep
  refine ⟨es₀ ++ es, by rw [hes, hes₀, List.append_assoc], ?_⟩
  rwa [strobes_append, hnil₀, List.nil_append, ← hidle]

end functions

/-! ### Calls -/

section calls
variable {Client : Type}

/-- The functions that may disarm a target, or capture at once. -/
def Op.commands : Op Client → Bool
  | .disarm _ => true
  | .sharedDisarm => true
  | .immediateCapture => true
  | _ => false

/-- What a call does to a target: it keeps it up, or it is a command. -/
theorem call_change {c : Context} (hc : UpToDate c.toGlobals) {op : Op Client}
    (hop : op.isCall = true) (t : TargetId) :
    KeepsUp t c (op.effect c) ∨ op.commands = true ∧ Makes (Commands t) t c (op.effect c) := by
  cases op with
  | arm u => exact .inl (keepsUp_armTarget hc t u)
  | disarm u => exact (disarmTarget_change t u c).imp id fun h => ⟨rfl, h⟩
  | setMode u mode => exact .inl (keepsUp_triggerTargetSetMode t u mode c)
  | sharedArm => exact .inl (keepsUp_armSharedTargets hc t)
  | sharedDisarm =>
      by_cases ht : Shares c.targets t
      · exact .inr ⟨rfl, makes_disarmSharedTargets ht⟩
      · exact .inl (keepsUp_disarmSharedTargets ht)
  | sharedSetMode mode => exact .inl (.of_silent rfl (.of_out rfl))
  | trigger u => cases hop
  | complete u => cases hop
  | immediateCapture => exact (immediateMemoryCapture_change t c).imp id fun h => ⟨rfl, h⟩
  | lock k u timeout =>
      rw [Op.effect, lockTriggerReady_context]
      split_ifs
      · exact .inl (keepsUp_modify (f := fun x => { x with lockCount := x.lockCount + 1 })
          (fun _ => rfl) t u c)
      · exact .inl (.refl t c)
  | wake k u timedOut lastTick poll =>
      rw [Op.effect, waitTriggerReady_context]
      split_ifs
      · exact .inl (keepsUp_decrementTriggerLockCount hc t u)
      · exact .inl (.refl t c)
  | unlock k u => exact .inl (keepsUp_decrementTriggerLockCount hc t u)

end calls

end Mbf.Trigger
