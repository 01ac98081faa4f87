import Mbf.Dma.Engine

/-! # Whose transfer a read returns

Under the mutex a read checks the engine, clears the completion, starts its transfer and waits.
The completion does not tell whose it is, nor whether the transfer has succeeded: it is that of the
own transfer if nothing of an earlier one was left when it was cleared, and that of a success if the
transfer has not failed.  The buffer is freed whatever the engine does.

`Owned` holds in every run: the reads before their start find the engine stopped.  `Fine` says what
holds of a read at each stage as long as every step is `Benign`. -/

namespace Mbf.Dma

open Runs

variable {level : Bool} {s s' : Control} {a : Event} {i j t : ℕ} {stage stage' : ReadStage}

/-! ### What a step can do -/

/-- A step that takes read `i` from one stage to the next. -/
inductive ReadStep (s : Control) (i : ℕ) : ReadStage → ReadStage → Control → Prop
  | lock (h : s.mutex = none) :
      ReadStep s i .entered .locked { s.setStage i .locked with mutex := some i }
  | idle (h : s.activity = .idle) : ReadStep s i .locked .checked (s.setStage i .checked)
  | busy : ReadStep s i .locked .resetting (s.setStage i .resetting)
  | reset : ReadStep s i .resetting .checked (s.resetDmaController.setStage i .checked)
  | reinit : ReadStep s i .checked .reinit { s.setStage i .reinit with dmaDone := 0 }
  | start : ReadStep s i .reinit (.waiting s.outcomes.length)
      (s.start.setStage i (.waiting s.outcomes.length))
  | wake (t : ℕ) (h : 0 < s.dmaDone) : ReadStep s i (.waiting t) (.returned t)
      { s.setStage i (.returned t) with dmaDone := s.dmaDone - 1 }
  | copy (t : ℕ) : ReadStep s i (.returned t) (.copying t) (s.setStage i (.copying t))
  | copied (t : ℕ) : ReadStep s i (.copying t) (.copied t) (s.setStage i (.copied t))
  | release (t : ℕ) : ReadStep s i (.copied t) (.released t)
      { s.setStage i (.released t) with mutex := none }
  | kill (t : ℕ) (h : s.dmaDone = 0) : ReadStep s i (.waiting t) (.killed t)
      { s.setStage i (.killed t) with mutex := none }

/-- The end of a transfer, as the engine reports it. -/
def ended (level : Bool) (activity : Activity) (outcome : Outcome) (s : Control) : Control :=
  { s with activity := activity, outcomes := s.finish outcome }.raiseInterrupt level

/-- A step of the engine, the handler or the removal. -/
inductive BoardStep (level : Bool) (s : Control) : Event → Control → Prop
  | complete (h : s.isWriting) : BoardStep level s .complete (ended level .idle .completed s)
  | fail (h : s.isWriting) : BoardStep level s .fail (ended level .halted .failed s)
  | acknowledge (h : s.handler = .none) (hlatched : s.latched) (hlive : s.removal = .live) :
      BoardStep level s .interrupt
        { s with latched := level && s.raised, handler := .acknowledged }
  | sample (h : s.handler = .acknowledged) :
      BoardStep level s .interrupt { s with handler := .sampled s.raised }
  | clear (irq : Bool) (h : s.handler = .sampled irq) :
      BoardStep level s .interrupt { s with raised := s.raised && !irq, handler := .cleared }
  | signal (h : s.handler = .cleared) :
      BoardStep level s .interrupt { s with dmaDone := s.dmaDone + 1, handler := .none }
  | interruptsOff (h : s.removal = .live) (hover : ∀ stage ∈ s.reads, stage.isOver)
      (hhandler : s.handler = .none) :
      BoardStep level s .terminate { s with removal := .interruptsOff }
  | free (h : s.removal = .interruptsOff) :
      BoardStep level s .terminate { s with removal := .freed }

theorem proceed_cases (h : proceed i s = some s') : ∃ stage stage',
    s.reads[i]? = some stage ∧ ReadStep s i stage stage' s' := by
  unfold proceed at h
  cases hread : s.reads[i]? with
  | none => rw [hread] at h; cases h
  | some stage =>
      rw [hread] at h
      refine ⟨stage, ?_⟩
      cases stage with
      | entered =>
          dsimp only at h
          split at h
          · obtain rfl := Option.some.inj h
            exact ⟨_, rfl, .lock ‹_›⟩
          · cases h
      | locked =>
          obtain rfl := Option.some.inj h
          split
          · exact ⟨_, rfl, .idle ‹_›⟩
          · exact ⟨_, rfl, .busy⟩
      | resetting =>
          obtain rfl := Option.some.inj h
          exact ⟨_, rfl, .reset⟩
      | checked =>
          obtain rfl := Option.some.inj h
          exact ⟨_, rfl, .reinit⟩
      | reinit =>
          obtain rfl := Option.some.inj h
          exact ⟨_, rfl, .start⟩
      | waiting t =>
          dsimp only at h
          split at h
          · obtain rfl := Option.some.inj h
            exact ⟨_, rfl, .wake t ‹_›⟩
          · cases h
      | returned t =>
          obtain rfl := Option.some.inj h
          exact ⟨_, rfl, .copy t⟩
      | copying t =>
          obtain rfl := Option.some.inj h
          exact ⟨_, rfl, .copied t⟩
      | copied t =>
          obtain rfl := Option.some.inj h
          exact ⟨_, rfl, .release t⟩
      | released t => cases h
      | killed t => cases h

theorem mbfIsr_cases (h : mbfIsr level s = some s') : BoardStep level s .interrupt s' := by
  unfold mbfIsr at h
  cases hhandler : s.handler with
  | none =>
      rw [hhandler] at h
      dsimp only at h
      split at h
      · rename_i hguard
        rw [Bool.and_eq_true, decide_eq_true_iff] at hguard
        obtain rfl := Option.some.inj h
        exact .acknowledge hhandler hguard.1 hguard.2
      · cases h
  | acknowledged =>
      rw [hhandler] at h
      obtain rfl := Option.some.inj h
      exact .sample hhandler
  | sampled irq =>
      rw [hhandler] at h
      obtain rfl := Option.some.inj h
      exact .clear irq hhandler
  | cleared =>
      rw [hhandler] at h
      obtain rfl := Option.some.inj h
      exact .signal hhandler

theorem terminate_cases (h : terminate s = some s') : BoardStep level s .terminate s' := by
  unfold terminate at h
  cases hremoval : s.removal with
  | live =>
      rw [hremoval] at h
      dsimp only at h
      split at h
      · rename_i hguard
        rw [Bool.and_eq_true, decide_eq_true_iff, List.all_eq_true] at hguard
        obtain rfl := Option.some.inj h
        exact .interruptsOff hremoval hguard.1 hguard.2
      · cases h
  | interruptsOff =>
      rw [hremoval] at h
      obtain rfl := Option.some.inj h
      exact .free hremoval
  | freed => rw [hremoval] at h; cases h

/-- The three kinds of steps. -/
theorem step_cases (h : step level s a = some s') :
    (a = .enter ∧ s.removal = .live ∧ s' = { s with reads := s.reads ++ [.entered] }) ∨
    (∃ i stage stage', (a = .proceed i ∨ a = .kill i ∧ stage'.isOver) ∧
      s.reads[i]? = some stage ∧ ReadStep s i stage stage' s') ∨
    BoardStep level s a s' := by
  cases a with
  | enter =>
      dsimp only [step] at h
      split at h
      · exact .inl ⟨rfl, ‹_›, (Option.some.inj h).symm⟩
      · cases h
  | proceed i =>
      obtain ⟨stage, stage', hread, hstep⟩ := proceed_cases h
      exact .inr (.inl ⟨i, stage, stage', .inl rfl, hread, hstep⟩)
  | kill i =>
      dsimp only [step] at h
      split at h
      · rename_i t hread
        split at h
        · obtain rfl := Option.some.inj h
          exact .inr (.inl ⟨i, .waiting t, .killed t, .inr ⟨rfl, rfl⟩, hread, .kill t ‹_›⟩)
        · cases h
      · cases h
  | complete =>
      dsimp only [step] at h
      split at h
      · obtain rfl := Option.some.inj h
        exact .inr (.inr (.complete ‹_›))
      · cases h
  | fail =>
      dsimp only [step] at h
      split at h
      · obtain rfl := Option.some.inj h
        exact .inr (.inr (.fail ‹_›))
      · cases h
  | interrupt => exact .inr (.inr (mbfIsr_cases h))
  | terminate => exact .inr (.inr (terminate_cases h))

/-! ### The stages of the reads -/

theorem ReadStep.reads (h : ReadStep s i stage stage' s') :
    s'.reads = s.reads.set i stage' := by
  cases h <;> rfl

theorem ReadStep.removal (h : ReadStep s i stage stage' s') : s'.removal = s.removal := by
  cases h <;> rfl

/-- Nothing is over before it ends. -/
theorem ReadStep.not_over (h : ReadStep s i stage stage' s') : stage.isOver = false := by
  cases h <;> rfl

theorem BoardStep.reads (h : BoardStep level s a s') : s'.reads = s.reads := by
  cases h <;> rfl

/-- Only a read starts a transfer. -/
theorem BoardStep.isWriting (h : BoardStep level s a s') (hidle : s.isWriting = false) :
    s'.isWriting = false := by
  cases h with
  | complete | fail => rfl
  | _ => exact hidle

theorem BoardStep.mutex (h : BoardStep level s a s') : s'.mutex = s.mutex := by
  cases h <;> rfl

/-! ### What holds in every run -/

/-- The read that has the mutex is alone, and finds the engine stopped when it is about to start a
transfer. -/
structure Owned (s : Control) : Prop where
  holder : ∀ {i stage}, s.reads[i]? = some stage → stage.isHolding → s.mutex = some i
  current : ∀ {t}, s.activity = .transferring t → s.outcomes[t]? = some .running
  starts : ∀ {i : ℕ} {stage}, s.reads[i]? = some stage → stage.isStarting → s.isWriting = false
  finished : s.removal ≠ .live → ∀ stage ∈ s.reads, stage.isOver

/-- A read that takes a step has the mutex to itself. -/
theorem Owned.alone (howned : Owned s) (hi : s.reads[i]? = some stage)
    (h : ReadStep s i stage stage' s') (hne : j ≠ i) {other : ReadStage}
    (hj : s.reads[j]? = some other) : other.isHolding = false := by
  cases hholding : other.isHolding with
  | false => rfl
  | true =>
      have hmutex := howned.holder hj hholding
      cases h with
      | lock hfree =>
          rw [hfree] at hmutex
          cases hmutex
      | _ =>
          rw [howned.holder hi rfl] at hmutex
          exact absurd (Option.some.inj hmutex).symm hne

/-- A transfer that has completed stays so. -/
theorem Owned.completed_kept (howned : Owned s) (outcome : Outcome)
    (h : s.outcomes[t]? = some .completed) : (s.finish outcome)[t]? = some .completed := by
  unfold Control.finish
  cases hactivity : s.activity with
  | idle => exact h
  | halted => exact h
  | transferring u =>
      have hrunning := howned.current hactivity
      have hne : u ≠ t := by
        rintro rfl
        rw [h] at hrunning
        cases hrunning
      exact (List.getElem?_set_ne hne).trans h

theorem Owned.read (howned : Owned s) (hi : s.reads[i]? = some stage)
    (h : ReadStep s i stage stage' s') : Owned s' := by
  constructor
  · intro j other hj hholding
    rw [h.reads] at hj
    rcases Tally.set_cases hj with ⟨rfl, rfl⟩ | ⟨hne, hj⟩
    · cases h with
      | lock => rfl
      | release | kill => cases hholding
      | _ => exact howned.holder hi rfl
    · rw [howned.alone hi h hne hj] at hholding
      cases hholding
  · intro t htransferring
    cases h with
    | reset => cases htransferring
    | start =>
        obtain rfl := Activity.transferring.inj htransferring
        have hlength : s.outcomes.length = (s.finish .aborted).length := by
          unfold Control.finish
          split
          · exact List.length_set.symm
          · rfl
        show (s.finish .aborted ++ [.running])[s.outcomes.length]? = _
        rw [hlength, List.getElem?_concat_length]
    | _ => exact howned.current htransferring
  · intro j other hj hstart
    rw [h.reads] at hj
    rcases Tally.set_cases hj with ⟨rfl, rfl⟩ | ⟨hne, hj⟩
    · cases h with
      | idle hidle =>
          show s.isWriting = false
          unfold Control.isWriting
          rw [hidle]
      | reset => rfl
      | reinit => exact howned.starts hi rfl
      | _ => cases hstart
    · have halone := howned.alone hi h hne hj
      cases other with
      | checked | reinit => cases halone
      | _ => cases hstart
  · intro hremoval other hother
    rw [h.removal] at hremoval
    have hover := howned.finished hremoval stage (List.mem_of_getElem? hi)
    rw [h.not_over] at hover
    cases hover

theorem Owned.board (howned : Owned s) (h : BoardStep level s a s') : Owned s' := by
  constructor
  · intro j other hj hholding
    rw [h.reads] at hj
    rw [h.mutex]
    exact howned.holder hj hholding
  · intro t htransferring
    cases h with
    | complete | fail => cases htransferring
    | _ => exact howned.current htransferring
  · intro j other hj hstart
    rw [h.reads] at hj
    exact h.isWriting (howned.starts hj hstart)
  · intro hremoval
    rw [h.reads]
    cases h with
    | interruptsOff hlive hover => exact hover
    | free hoff =>
        apply howned.finished
        rw [hoff]
        decide
    | _ => exact howned.finished hremoval

theorem Owned.enter (howned : Owned s) (hlive : s.removal = .live) :
    Owned { s with reads := s.reads ++ [.entered] } := by
  constructor
  · intro j other hj hholding
    rcases Tally.add_cases hj with hj | rfl
    · exact howned.holder hj hholding
    · cases hholding
  · exact howned.current
  · intro j other hj hstart
    rcases Tally.add_cases hj with hj | rfl
    · exact howned.starts hj hstart
    · cases hstart
  · intro hremoval
    exact absurd hlive hremoval

theorem Owned.step (howned : Owned s) (h : step level s a = some s') : Owned s' := by
  rcases step_cases h with ⟨rfl, hlive, rfl⟩ | ⟨i, stage, stage', -, hi, hread⟩ | hboard
  · exact howned.enter hlive
  · exact howned.read hi hread
  · exact howned.board hboard

theorem Owned.initial : Owned .initial := by
  constructor
  · intro i stage h
    cases h
  · intro t h
    cases h
  · intro i stage h
    cases h
  · intro h
    exact absurd rfl h

/-! ### What holds of a read while every step is benign -/

/-- The step leaves nothing behind: no transfer fails while a read waits for it, no interrupt of an
earlier transfer is left when a read clears the completion, and the buffer is not freed under a
transfer whose read was killed. -/
structure Benign (s : Control) (a : Event) : Prop where
  fail : a = .fail → ∀ (i t : ℕ), s.reads[i]? ≠ some (.waiting t)
  stale : ∀ i, a = .proceed i → s.reads[i]? = some .checked →
    s.latched = false ∧ s.handler = .none
  free : a = .terminate → s.removal = .interruptsOff → s.isWriting = false

/-- Nothing of an earlier transfer is on its way. -/
def Quiet (s : Control) : Prop := s.latched = false ∧ s.handler = .none ∧ s.dmaDone = 0

/-- The transfer has completed, and no other one runs. -/
def Done (s : Control) (t : ℕ) : Prop :=
  s.outcomes[t]? = some .completed ∧ s.isWriting = false

/-- What holds of a read at each stage. -/
def Fine (s : Control) : ReadStage → Prop
  | .reinit => Quiet s
  | .waiting t => (s.activity = .transferring t ∧ Quiet s) ∨ Done s t
  | .returned t => Done s t
  | .copying t => Done s t
  | .copied t => Done s t
  | .released t => s.outcomes[t]? = some .completed
  | _ => True

/-- The step of a read leaves the other reads fine. -/
theorem Fine.other (howned : Owned s) (hi : s.reads[i]? = some stage)
    (h : ReadStep s i stage stage' s') {other : ReadStage} (hne : j ≠ i)
    (hj : s.reads[j]? = some other) (hfine : Fine s other) : Fine s' other := by
  have halone := howned.alone hi h hne hj
  cases other with
  | entered | killed => trivial
  | released t =>
      have hkept := howned.completed_kept .aborted hfine
      cases h with
      | reset => exact hkept
      | start => exact (List.getElem?_append_left (Tally.lt_length hkept)).trans hkept
      | _ => exact hfine
  | _ => cases halone

/-- A read goes from one stage to the next. -/
theorem Fine.next (hi : s.reads[i]? = some stage) (h : ReadStep s i stage stage' s')
    (hstale : s.reads[i]? = some .checked → stage' = .reinit →
      s.latched = false ∧ s.handler = .none) (hfine : Fine s stage) : Fine s' stage' := by
  cases h with
  | reinit =>
      obtain ⟨hlatched, hhandler⟩ := hstale hi rfl
      exact ⟨hlatched, hhandler, rfl⟩
  | start => exact .inl ⟨rfl, hfine⟩
  | wake t hdone =>
      rcases hfine with ⟨-, -, -, hzero⟩ | hfine
      · rw [hzero] at hdone
        exact absurd hdone (Nat.lt_irrefl 0)
      · exact hfine
  | copy t | copied t => exact hfine
  | release t => exact hfine.1
  | _ => trivial

/-- Where something is on its way, the activity and the outcomes are what counts. -/
theorem Fine.frame (hloud : ¬ Quiet s) (hactivity : s'.activity = s.activity)
    (houtcomes : s'.outcomes = s.outcomes) (hfine : Fine s stage) : Fine s' stage := by
  have hdone : ∀ {t}, Done s t → Done s' t := by
    intro t hdone
    unfold Done Control.isWriting at *
    rw [hactivity, houtcomes]
    exact hdone
  cases stage with
  | reinit => exact absurd hfine hloud
  | waiting t =>
      rcases hfine with ⟨-, hquiet⟩ | hfine
      · exact absurd hquiet hloud
      · exact .inr (hdone hfine)
  | returned t | copying t | copied t => exact hdone hfine
  | released t =>
      show s'.outcomes[t]? = _
      rw [houtcomes]
      exact hfine
  | _ => trivial

/-- The end of a transfer concerns the read that waits for it alone. -/
theorem Fine.ended (howned : Owned s) (hj : s.reads[j]? = some stage) (hwriting : s.isWriting)
    {activity : Activity} {outcome : Outcome}
    (hwaiting : ∀ t, stage = .waiting t → outcome = .completed ∧ activity = .idle)
    (hfine : Fine s stage) : Fine (ended level activity outcome s) stage := by
  have hnot : s.isWriting ≠ false := by
    rw [hwriting]
    decide
  cases stage with
  | reinit => exact absurd (howned.starts hj rfl) hnot
  | waiting t =>
      rcases hfine with ⟨hactivity, -⟩ | hdone
      · obtain ⟨rfl, rfl⟩ := hwaiting t rfl
        have houtcome : (s.finish .completed)[t]? = some .completed := by
          unfold Control.finish
          rw [hactivity]
          exact Tally.set_self (howned.current hactivity)
        exact .inr ⟨houtcome, rfl⟩
      · exact absurd hdone.2 hnot
  | returned t | copying t | copied t => exact absurd hfine.2 hnot
  | released t => exact howned.completed_kept outcome hfine
  | _ => trivial

/-- A step of the engine, the handler or the removal. -/
theorem Fine.board (howned : Owned s) (hj : s.reads[j]? = some stage)
    (h : BoardStep level s a s') (hfail : a = .fail → ∀ (i t : ℕ), s.reads[i]? ≠ some (.waiting t))
    (hfine : Fine s stage) : Fine s' stage := by
  cases h with
  | complete hwriting => exact hfine.ended howned hj hwriting fun t _ => ⟨rfl, rfl⟩
  | fail hwriting =>
      apply hfine.ended howned hj hwriting
      rintro t rfl
      exact absurd hj (hfail rfl j t)
  | acknowledge hhandler hlatched hlive =>
      refine Fine.frame (s := s) (fun hquiet => ?_) rfl rfl hfine
      rw [hquiet.1] at hlatched
      cases hlatched
  | sample hhandler | clear irq hhandler | signal hhandler =>
      refine Fine.frame (s := s) (fun hquiet => ?_) rfl rfl hfine
      rw [hquiet.2.1] at hhandler
      cases hhandler
  | interruptsOff | free => cases stage <;> exact hfine

/-! ### Whose transfer a read returns -/

/-- What is promised of every state. -/
structure Sound (s : Control) : Prop where
  /-- What a read copies out is its own transfer, which has completed. -/
  copies : ∀ (i t : ℕ), s.reads[i]? = some (.copying t) → Done s t
  /-- A read that has returned a count has returned its own transfer. -/
  returns : ∀ (i t : ℕ), s.reads[i]? = some (.released t) → s.outcomes[t]? = some .completed
  /-- A transfer is started when no other one runs. -/
  starts : ∀ i : ℕ, s.reads[i]? = some .reinit → s.isWriting = false
  /-- The buffer is freed when no transfer runs. -/
  frees : s.removal = .freed → s.isWriting = false

/-- What every benign step keeps. -/
structure Clean (s : Control) : Prop where
  owned : Owned s
  fine : ∀ {i : ℕ} {stage}, s.reads[i]? = some stage → Fine s stage
  frees : s.removal = .freed → s.isWriting = false

theorem Clean.sound (h : Clean s) : Sound s where
  copies _ _ hread := h.fine hread
  returns _ _ hread := h.fine hread
  starts _ hread := h.owned.starts hread rfl
  frees := h.frees

theorem Clean.initial : Clean .initial where
  owned := .initial
  fine h := by cases h
  frees _ := rfl

theorem Clean.step (hclean : Clean s) (hbenign : Benign s a) (h : step level s a = some s') :
    Clean s' := by
  refine ⟨hclean.owned.step h, ?_, ?_⟩
  · intro j stage hj
    rcases step_cases h with ⟨rfl, hlive, rfl⟩ | ⟨i, stage, stage', ha, hi, hread⟩ | hboard
    · rcases Tally.add_cases hj with hj | rfl
      · have hfine := hclean.fine hj
        cases stage <;> exact hfine
      · trivial
    · rw [hread.reads] at hj
      rcases Tally.set_cases hj with ⟨rfl, rfl⟩ | ⟨hne, hj⟩
      · refine Fine.next hi hread (fun hchecked hreinit => ?_) (hclean.fine hi)
        subst hreinit
        rcases ha with rfl | ⟨-, hover⟩
        · exact hbenign.stale _ rfl hchecked
        · cases hover
      · exact Fine.other hclean.owned hi hread hne hj (hclean.fine hj)
    · rw [hboard.reads] at hj
      exact Fine.board hclean.owned hj hboard hbenign.fail (hclean.fine hj)
  · intro hfreed
    rcases step_cases h with ⟨rfl, hlive, rfl⟩ | ⟨i, stage, stage', ha, hi, hread⟩ | hboard
    · exact hclean.frees hfreed
    · have hover := hclean.owned.finished (by rw [← hread.removal, hfreed]; decide) stage
        (List.mem_of_getElem? hi)
      rw [hread.not_over] at hover
      cases hover
    · cases hboard with
      | free hoff => exact hbenign.free rfl hoff
      | complete | fail => rfl
      | interruptsOff => cases hfreed
      | _ => exact hclean.frees hfreed

/-- No transfer is started over another one; and as long as every step is benign, a read returns
its own transfer, and the buffer is left alone while the engine may write to it. -/
theorem read_own_transfer (level : Bool) {s₀ s : Control} {l : List (Control × Event × Unit)}
    (hinit : (engineMachine level).init s₀) (hp : Path (engineMachine level).system s₀ l s) :
    Always (fun s => ∀ i : ℕ, s.reads[i]? = some .reinit → s.isWriting = false) l s ∧
      ((∀ x ∈ l, Benign x.1 x.2.1) → Always Sound l s) := by
  obtain rfl : s₀ = .initial := hinit
  have hstep : ∀ {s a s'}, (engineMachine level).system.Step s a s' → step level s a.1 = some s' := by
    intro s a s' h
    obtain ⟨t, ht, htuple⟩ := Option.map_eq_some_iff.mp h
    rw [ht, (Prod.mk.inj htuple).1]
  constructor
  · have howned := hp.guarded_always (C := fun _ _ => True)
      (fun s a s' (h : Owned s) _ hs => h.step (hstep hs)) (fun _ _ => trivial) Owned.initial
    exact howned.mono fun s h i hread => h.starts hread rfl
  · intro hbenign
    have hclean := hp.guarded_always (C := fun s a => Benign s a.1)
      (fun s a s' (h : Clean s) hs hs' => h.step hs (hstep hs')) hbenign Clean.initial
    exact hclean.mono fun s h => h.sound

/-- One read, up to the copy. -/
def oneRead : List Event :=
  [.enter, .proceed 0, .proceed 0, .proceed 0, .proceed 0, .complete, .interrupt, .interrupt,
    .interrupt, .interrupt, .proceed 0, .proceed 0]

theorem oneRead_benign : ∀ x ∈ (engineMachine false).trace .initial oneRead, Benign x.1 x.2.1 := by
  intro x hx
  have hcases : ∀ x ∈ (engineMachine false).trace .initial oneRead,
      (x.2.1 = .proceed 0 ∧ x.1.latched = false ∧ x.1.handler = .none) ∨
        x.2.1 ∈ [Event.enter, .complete, .interrupt] := by
    decide
  rcases hcases x hx with ⟨hproceed, hquiet⟩ | hother
  · rw [hproceed]
    constructor
    · intro h
      cases h
    · intro i _ _
      exact hquiet
    · intro h
      cases h
  · constructor
    · intro h
      rw [h] at hother
      exact absurd hother (by decide)
    · intro i h
      rw [h] at hother
      simp at hother
    · intro h
      rw [h] at hother
      exact absurd hother (by decide)

/-- A read copies out its transfer. -/
theorem read_own_transfer_one :
    let s := (engineMachine false).after .initial oneRead
    s.reads = [.copying 0] ∧ Done s 0 := by
  intro s
  have hsound := (read_own_transfer false rfl ((engineMachine false).path_trace .initial oneRead)).2
    oneRead_benign
  exact ⟨rfl, hsound.2.copies 0 0 rfl⟩

/-- A client is killed, its transfer completes, the next client clears the completion and starts its
own transfer, and then the interrupt is handled. -/
def staleRead : List Event :=
  [.enter, .proceed 0, .proceed 0, .proceed 0, .proceed 0, .kill 0, .complete,
    .enter, .proceed 1, .proceed 1, .proceed 1, .proceed 1, .interrupt, .interrupt, .interrupt,
    .interrupt, .proceed 1, .proceed 1]

/-- The second client is handed the buffer while its transfer runs. -/
theorem read_stale_transfer : ¬ ∀ level s₀ s l, (engineMachine level).init s₀ →
    Path (engineMachine level).system s₀ l s → Always Sound l s := by
  intro h
  have hsound := h false .initial _ _ rfl ((engineMachine false).path_trace .initial staleRead)
  have hwriting := (hsound.2.copies 1 1 rfl).2
  cases hwriting

end Mbf.Dma
