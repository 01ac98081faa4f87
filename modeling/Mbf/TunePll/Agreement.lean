import Mbf.Lib.Tally
import Mbf.TunePll.StartStop

/-! # The software and the firmware agree about running

What one clock does to the state machine of the firmware is said once (`isLive_clock`,
`disabled_clock`, …), and so is what a stop event on its way promises.  `Clean` then holds of every
state of a run whose steps are all `Orderly`:

* a FIFO left enabled by a feedback that is not live is going to be disabled, and a live feedback
  has its FIFO enabled or a start command that will enable it;
* the status is the state of the feedback, or is going to be read again. -/

namespace Mbf.TunePll

open Runs

/-! ### The firmware -/

section firmware
variable {d : DspSide} {a : AdcSide} {i : ControlInput}

/-- What holds of the firmware in every run. -/
structure DspSide.Sound (d : DspSide) : Prop where
  starting : d.runState = .starting → d.enable = false
  stopping : d.runState = .stopping → d.enable = true ∧ d.reason.any = true
  idle : d.runState = .idle → d.reason.any = false → d.enable = false

theorem DspSide.Sound.clock (h : d.Sound) : (d.clock a i).Sound := by
  unfold DspSide.clock
  cases hstate : d.runState with
  | idle =>
      constructor
      · simp
      · split_ifs <;> simp
      · simp
  | starting =>
      have hoff := h.starting hstate
      constructor
      · simp [hoff]
      · split_ifs <;> simp
      · split_ifs <;> simp
  | running =>
      constructor
      · split_ifs <;> simp
      · intro hnext
        have hstop : i.stopping = true := by
          by_contra hnot
          simp [hnot] at hnext
        have hany : i.stop || i.detectorOverflow || i.magnitudeError || i.offsetError := hstop
        simpa [hstop, StopReason.any] using hany
      · split_ifs <;> simp
  | stopping =>
      obtain ⟨henable, hany⟩ := h.stopping hstate
      constructor
      · split_ifs <;> simp
      · simp [henable, hany]
      · simp [hany]

theorem controlRun_sound (i : ℕ → ControlInput) (n : ℕ) : (controlRun i n).dsp.Sound := by
  have hinit : ({} : Control).dsp.Sound := by
    constructor
    · intro h
      cases h
    · intro h
      cases h
    · intro _ _
      rfl
  exact Clocked.run_invariant (P := fun c : Control => c.dsp.Sound) hinit (fun _ _ h => h.clock) n

/-- The feedback becomes live by a start, in the idle state. -/
theorem isLive_clock (h : (d.clock a i).runState.isLive = true) :
    d.runState.isLive = true ∨ i.start = true ∧ d.runState = .idle := by
  unfold DspSide.clock at h
  cases hstate : d.runState with
  | idle =>
      rw [hstate] at h
      dsimp only at h
      split_ifs at h with hstart
      · exact .inr ⟨hstart, rfl⟩
      · cases h
  | starting => exact .inl rfl
  | running => exact .inl rfl
  | stopping =>
      rw [hstate] at h
      dsimp only at h
      split_ifs at h <;> cases h

/-- A feedback that has begun to stop is still enabled. -/
theorem stops_clock (h : d.runState.isLive = true) (h' : (d.clock a i).runState.isLive = false) :
    (d.clock a i).enable = true := by
  unfold DspSide.clock at h' ⊢
  cases hstate : d.runState with
  | idle =>
      rw [hstate] at h
      cases h
  | starting =>
      rw [hstate] at h'
      dsimp only at h'
      split_ifs at h' <;> cases h'
  | running => rfl
  | stopping =>
      rw [hstate] at h
      cases h

/-- A stopping feedback stays enabled, or it is disabled and raises the stop event. -/
theorem due_clock (hlive : d.runState.isLive = false) :
    (d.clock a i).enable = false ∨ (d.clock a i).runState.isLive = false := by
  unfold DspSide.clock
  cases hstate : d.runState with
  | idle => exact .inl rfl
  | starting =>
      rw [hstate] at hlive
      cases hlive
  | running =>
      rw [hstate] at hlive
      cases hlive
  | stopping =>
      right
      dsimp only
      split_ifs <;> rfl

/-- A live feedback shows no stop reason, unless it is stopped while it starts. -/
theorem unstopped_clock (h : d.runState.isLive = true → d.reason.any = false)
    (hstop : d.runState = .starting → i.stopping = false)
    (h' : (d.clock a i).runState.isLive = true) : (d.clock a i).reason.any = false := by
  unfold DspSide.clock at h' ⊢
  cases hstate : d.runState with
  | idle =>
      rw [hstate] at h'
      dsimp only at h'
      split_ifs at h' with hstart
      · simp [hstart, StopReason.any]
      · cases h'
  | starting => simp [hstop hstate, h (by rw [hstate]; rfl)]
  | running =>
      rw [hstate] at h'
      dsimp only at h'
      split_ifs at h' with hgo
      · cases h'
      · simp [hgo, h (by rw [hstate]; rfl)]
  | stopping =>
      rw [hstate] at h'
      dsimp only at h'
      split_ifs at h' <;> cases h'

/-- An idle feedback that shows no stop reason has not been started. -/
theorem fresh_clock (h : d.Sound) (hidle : (d.clock a i).runState = .idle)
    (hany : (d.clock a i).reason.any = false) :
    d.runState = .idle ∧ d.reason.any = false ∧ i.start = false := by
  unfold DspSide.clock at hidle hany
  cases hstate : d.runState with
  | idle =>
      rw [hstate] at hidle hany
      have hstart : i.start = false := by
        by_contra hnot
        simp [hnot] at hidle
      simpa [hstart] using hany
  | starting =>
      rw [hstate] at hidle
      dsimp only at hidle
      split_ifs at hidle
  | running =>
      rw [hstate] at hidle
      dsimp only at hidle
      split_ifs at hidle
  | stopping =>
      rw [hstate] at hany
      simp [(h.stopping hstate).2] at hany

end firmware

/-! ### The invariant -/

namespace Loop

/-- The software is up, and so far every step has been orderly. -/
structure Clean (s : Loop) : Prop where
  initialised : s.initialised = true
  sound : s.firmware.dsp.Sound
  unstopped : s.live = true → s.firmware.dsp.reason.any = false
  /-- Before the first start no command has been given. -/
  fresh : s.firmware.dsp.runState = .idle → s.firmware.dsp.reason.any = false →
    s.starts = [] ∧ s.fifoEnabled = false
  handlerHolds : s.handler = .reading → s.interlock = .held .handler
  holds : s.interlock = .held .handler → s.handler = .reading
  startHolds : ∀ k : ℕ, s.starts[k]? = some .reading → s.interlock = .held (.start k)
  verdict : s.verdict = s.live ∨ .written ∈ s.starts ∨ s.EventDue
  published : s.interlock = .free → s.published = s.status.running
  /-- A `running` that has been read and not yet corrected is that of an enabled feedback. -/
  raw : ∀ k, s.interlock = .held (.start k) → s.status.running = true →
    s.firmware.dsp.enable = true ∨ s.latched = true ∨ s.event = true ∨ s.handler = .taken
  enables : s.live = true → s.fifoEnabled = true ∨ ∃ stage ∈ s.starts, stage ≠ .done
  disables : s.live = false → s.fifoEnabled = true → s.DisableDue

variable {s s' : Loop} {a : Act} {i : ControlInput} {k : ℕ}

/-- Where all is quiet the software and the firmware agree. -/
theorem Clean.agrees (h : s.Clean) : s.Agrees := by
  intro hq
  have hevent : s.firmware.dsp.enable = s.live → ¬ s.EventDue := by
    rintro heq (⟨henable, hlive⟩ | hlatched | hevent | hhandler)
    · rw [heq, hlive] at henable
      cases henable
    · exact Bool.noConfusion (hq.latched.symm.trans hlatched)
    · exact Bool.noConfusion (hq.event.symm.trans hevent)
    · exact HandlerStage.noConfusion (hq.handler.symm.trans hhandler)
  have heq : s.firmware.dsp.enable = s.live := by
    unfold live
    rcases hq.settled with ⟨hstate, henable⟩ | ⟨hstate, henable⟩
    · rw [hstate, henable]
      rfl
    · rw [hstate, henable]
      rfl
  have hquiet := hevent heq
  rw [heq]
  constructor
  · constructor
    · intro hfifo
      by_contra hlive
      rcases h.disables (Bool.eq_false_iff.mpr hlive) hfifo with hdue | ⟨hstage, -⟩ | hstage
      · exact hquiet hdue
      · rw [hq.handler] at hstage
        simp at hstage
      · rw [hq.handler] at hstage
        cases hstage
    · intro hlive
      rcases h.enables hlive with hfifo | ⟨stage, hmem, hnot⟩
      · exact hfifo
      · exact absurd (hq.starts stage hmem) hnot
  · have hverdict : s.verdict = s.status.running := by
      unfold Loop.verdict
      rw [hq.interlock]
    rw [h.published hq.interlock, ← hverdict]
    rcases h.verdict with heq | hwritten | hdue
    · rw [heq]
    · exact StartStage.noConfusion (hq.starts _ hwritten)
    · exact absurd hdue hquiet

/-! ### A clock of the firmware -/

theorem latched_clock (h : s.latched = true) : (s.clock i).latched = true := by
  simp [clock, h]

theorem enable_clock (h : s.firmware.dsp.enable = true) :
    (s.clock i).firmware.dsp.enable = true ∨ (s.clock i).latched = true := by
  cases hoff : (s.clock i).firmware.dsp.enable with
  | true => exact .inl rfl
  | false =>
      right
      have hoff : (s.firmware.clock i).dsp.enable = false := hoff
      simp [clock, h, hoff]

/-- A stop event stays due. -/
theorem EventDue.clock (h : s.EventDue) : (s.clock i).EventDue := by
  rcases h with ⟨henable, hlive⟩ | hlatched | hevent | hhandler
  · rcases enable_clock henable (i := i) with henable' | hlatched
    · rcases due_clock hlive (a := s.firmware.adc) (i := i) with hoff | hlive'
      · exact Bool.noConfusion (hoff.symm.trans henable')
      · exact .inl ⟨henable', hlive'⟩
    · exact .inr (.inl hlatched)
  · exact .inr (.inl (latched_clock hlatched))
  · exact .inr (.inr (.inl hevent))
  · exact .inr (.inr (.inr hhandler))

/-- A feedback that stops is going to raise its stop event. -/
theorem eventDue_of_stops (h : s.live = true) (h' : (s.clock i).live = false) :
    (s.clock i).EventDue :=
  .inl ⟨stops_clock h h', h'⟩

theorem DisableDue.clock (h : s.DisableDue) : (s.clock i).DisableDue := by
  rcases h with hdue | hstage | hstage
  · exact .inl hdue.clock
  · exact .inr (.inl hstage)
  · exact .inr (.inr hstage)

/-- A clock, on which the start commands `new` are given. -/
theorem Clean.clocked {new : List StartStage} (h : s.Clean)
    (hstop : s.firmware.dsp.runState = .starting → i.stopping = false)
    (hnew : new = if i.start then [.written] else []) :
    Clean { s.clock i with starts := s.starts ++ new } := by
  have hstart : ∀ stage ∈ s.starts, stage ∈ s.starts ++ new :=
    fun stage hmem => List.mem_append_left _ hmem
  have hgiven : i.start = true → .written ∈ s.starts ++ new := by
    intro hi
    rw [hnew, if_pos hi]
    simp
  constructor
  · exact h.initialised
  · exact h.sound.clock
  · exact unstopped_clock h.unstopped hstop
  · intro hidle hany
    obtain ⟨hidle, hany, hi⟩ := fresh_clock h.sound hidle hany
    obtain ⟨hstarts, hfifo⟩ := h.fresh hidle hany
    rw [hnew, hi]
    exact ⟨by simp [hstarts], hfifo⟩
  · exact h.handlerHolds
  · exact h.holds
  · intro k hk
    rw [hnew] at hk
    split_ifs at hk
    · rcases Tally.add_cases hk with hk | hk
      · exact h.startHolds k hk
      · cases hk
    · exact h.startHolds k (by simpa using hk)
  · rcases h.verdict with heq | hwritten | hdue
    · cases hlive : s.live with
      | true =>
          cases hlive' : (s.clock i).live with
          | true => exact .inl (heq.trans (hlive.trans hlive'.symm))
          | false => exact .inr (.inr (eventDue_of_stops hlive hlive'))
      | false =>
          cases hlive' : (s.clock i).live with
          | true =>
              rcases isLive_clock hlive' with hlive'' | ⟨hi, -⟩
              · exact Bool.noConfusion (hlive.symm.trans hlive'')
              · exact .inr (.inl (hgiven hi))
          | false => exact .inl (heq.trans (hlive.trans hlive'.symm))
    · exact .inr (.inl (hstart _ hwritten))
    · exact .inr (.inr hdue.clock)
  · exact h.published
  · intro k hk hrunning
    rcases h.raw k hk hrunning with henable | hlatched | hrest
    · rcases enable_clock henable (i := i) with henable' | hlatched
      · exact .inl henable'
      · exact .inr (.inl hlatched)
    · exact .inr (.inl (latched_clock hlatched))
    · exact .inr (.inr hrest)
  · intro hlive'
    rcases isLive_clock hlive' with hlive | ⟨hi, -⟩
    · rcases h.enables hlive with hfifo | ⟨stage, hmem, hnot⟩
      · exact .inl hfifo
      · exact .inr ⟨stage, hstart _ hmem, hnot⟩
    · exact .inr ⟨.written, hgiven hi, by decide⟩
  · intro hlive' hfifo
    cases hlive : s.live with
    | true => exact .inl (eventDue_of_stops hlive hlive')
    | false => exact (h.disables hlive hfifo).clock

/-! ### The updates of the status -/

theorem beginUpdate_cases {client : Client} (h : s.beginUpdate client = some s') :
    s.interlock = .free ∧
      s' = { s with interlock := .held client, status := hwReadPllStatus s.firmware } := by
  unfold beginUpdate at h
  split_ifs at h with hfree
  exact ⟨hfree, (Option.some.inj h).symm⟩

/-- A status read now is right, except before the first start. -/
theorem Clean.isStopped (h : s.Clean)
    (hstarted : s.firmware.dsp.runState = .idle → s.firmware.dsp.reason.any = true) :
    (!(hwReadPllStatus s.firmware).isStopped) = s.live := by
  change (!s.firmware.dsp.reason.any) = s.live
  cases hstate : s.firmware.dsp.runState with
  | idle => simp [live, hstate, hstarted hstate, RunState.isLive]
  | starting =>
      have hlive : s.live = true := by simp [live, hstate, RunState.isLive]
      rw [h.unstopped hlive, hlive]
      rfl
  | running =>
      have hlive : s.live = true := by simp [live, hstate, RunState.isLive]
      rw [h.unstopped hlive, hlive]
      rfl
  | stopping => simp [live, hstate, (h.sound.stopping hstate).2, RunState.isLive]

/-- Once a command has been given, an idle feedback shows why. -/
theorem Clean.started (h : s.Clean) {stage : StartStage} (hk : s.starts[k]? = some stage)
    (hidle : s.firmware.dsp.runState = .idle) : s.firmware.dsp.reason.any = true := by
  by_contra hany
  rw [(h.fresh hidle (Bool.eq_false_iff.mpr hany)).1] at hk
  cases hk

theorem verdict_endUpdate {client : Client} (h : s.interlock = .held client) :
    s.endUpdate.verdict = s.verdict := by
  simp [Loop.verdict, endUpdate, h]

/-! ### A start command -/

/-- The first read of a start command. -/
theorem Clean.startRead (h : s.Clean) (hk : s.starts[k]? = some .written)
    (hfree : s.interlock = .free) :
    Clean { s.setStart k .reading with
      interlock := .held (.start k)
      status := hwReadPllStatus s.firmware } := by
  have hverdict := h.isStopped (h.started hk)
  constructor
  · exact h.initialised
  · exact h.sound
  · exact h.unstopped
  · intro hidle hany
    exact Bool.noConfusion ((h.started hk hidle).symm.trans hany)
  · intro hreading
    rw [h.handlerHolds hreading] at hfree
    cases hfree
  · intro hheld
    cases hheld
  · intro j hj
    rcases Tally.set_cases hj with ⟨rfl, -⟩ | ⟨-, hj⟩
    · rfl
    · rw [h.startHolds j hj] at hfree
      cases hfree
  · exact .inl hverdict
  · intro hfree
    cases hfree
  · intro _ _ hrunning
    exact .inl hrunning
  · intro _
    exact .inr ⟨.reading, List.mem_of_getElem? (Tally.set_self hk), by decide⟩
  · intro hlive hfifo
    rcases h.disables hlive hfifo with hdue | ⟨hstage, -⟩ | hstage
    · exact .inl hdue
    · exact .inr (.inl ⟨hstage, hverdict.trans hlive⟩)
    · exact .inr (.inr hstage)

/-- The status of a start command is published. -/
theorem Clean.startUpdated (h : s.Clean) (hk : s.starts[k]? = some .reading) :
    Clean (s.setStart k .updated).endUpdate := by
  have hheld := h.startHolds k hk
  have hverdict : (s.setStart k .updated).endUpdate.verdict = s.verdict :=
    verdict_endUpdate (s := s.setStart k .updated) hheld
  constructor
  · exact h.initialised
  · exact h.sound
  · exact h.unstopped
  · intro hidle hany
    exact Bool.noConfusion ((h.started hk hidle).symm.trans hany)
  · intro hreading
    have hother := h.handlerHolds hreading
    rw [hheld] at hother
    cases hother
  · intro hfree
    cases hfree
  · intro j hj
    rcases Tally.set_cases hj with ⟨-, hstage⟩ | ⟨hne, hj⟩
    · cases hstage
    · have hother := h.startHolds j hj
      rw [hheld] at hother
      cases hother
      exact absurd rfl hne
  · rcases h.verdict with heq | hwritten | hdue
    · exact .inl (hverdict.trans heq)
    · exact .inr (.inl (Tally.mem_set_of_ne hk hwritten (by decide)))
    · exact .inr (.inr hdue)
  · intro hfree
    cases hfree
  · intro j hfree
    cases hfree
  · intro _
    exact .inr ⟨.updated, List.mem_of_getElem? (Tally.set_self hk), by decide⟩
  · intro hlive hfifo
    rcases h.disables hlive hfifo with hdue | ⟨hstage, hfalse⟩ | hstage
    · exact .inl hdue
    · exact .inr (.inl ⟨hstage, hverdict.trans hfalse⟩)
    · exact .inr (.inr hstage)

/-- A start command enables the FIFO. -/
theorem Clean.startDone (h : s.Clean) (hk : s.starts[k]? = some .updated)
    (hdue : s.live = true ∨ s.DisableDue) :
    Clean { s.setStart k .done with fifoEnabled := true } := by
  constructor
  · exact h.initialised
  · exact h.sound
  · exact h.unstopped
  · intro hidle hany
    exact Bool.noConfusion ((h.started hk hidle).symm.trans hany)
  · exact h.handlerHolds
  · exact h.holds
  · intro j hj
    rcases Tally.set_cases hj with ⟨-, hstage⟩ | ⟨-, hj⟩
    · cases hstage
    · exact h.startHolds j hj
  · rcases h.verdict with heq | hwritten | hdue
    · exact .inl heq
    · exact .inr (.inl (Tally.mem_set_of_ne hk hwritten (by decide)))
    · exact .inr (.inr hdue)
  · exact h.published
  · exact h.raw
  · intro _
    exact .inl rfl
  · intro hlive _
    rcases hdue with hlive' | hdue
    · exact Bool.noConfusion (hlive.symm.trans hlive')
    · exact hdue

theorem Clean.proceed (h : s.Clean)
    (hdue : s.starts[k]? = some .updated → s.live = true ∨ s.DisableDue)
    (hs : s.proceed k = some s') : s'.Clean := by
  unfold Loop.proceed at hs
  cases hk : s.starts[k]? with
  | none =>
      rw [hk] at hs
      cases hs
  | some stage =>
      rw [hk] at hs
      cases stage with
      | written =>
          obtain ⟨hfree, rfl⟩ := beginUpdate_cases hs
          exact h.startRead hk hfree
      | reading =>
          obtain rfl := Option.some.inj hs
          exact h.startUpdated hk
      | updated =>
          obtain rfl := Option.some.inj hs
          exact h.startDone hk (hdue hk)
      | done => cases hs

/-! ### The thread of events -/

/-- Only a taken event is lost when the thread goes on. -/
theorem EventDue.handler {stage : HandlerStage} (h : s.EventDue) (hne : s.handler ≠ .taken) :
    EventDue { s with handler := stage } := by
  rcases h with hdue | hlatched | hevent | hhandler
  · exact .inl hdue
  · exact .inr (.inl hlatched)
  · exact .inr (.inr (.inl hevent))
  · exact absurd hhandler hne

/-- The thread takes a stop event. -/
theorem Clean.take (h : s.Clean) (hwaiting : s.handler = .waiting) :
    Clean { s with event := false, handler := .taken } := by
  constructor
  · exact h.initialised
  · exact h.sound
  · exact h.unstopped
  · exact h.fresh
  · intro hreading
    cases hreading
  · intro hheld
    rw [h.holds hheld] at hwaiting
    cases hwaiting
  · exact h.startHolds
  · exact .inr (.inr (.inr (.inr (.inr rfl))))
  · exact h.published
  · intro _ _ _
    exact .inr (.inr (.inr rfl))
  · exact h.enables
  · intro _ _
    exact .inl (.inr (.inr (.inr rfl)))

/-- The thread reads the status. -/
theorem Clean.handlerRead (h : s.Clean) (hfree : s.interlock = .free)
    (hstarted : s.firmware.dsp.runState = .idle → s.firmware.dsp.reason.any = true) :
    Clean { s with
      handler := .reading
      interlock := .held .handler
      status := hwReadPllStatus s.firmware } := by
  have hverdict := h.isStopped hstarted
  constructor
  · exact h.initialised
  · exact h.sound
  · exact h.unstopped
  · exact h.fresh
  · intro _
    rfl
  · intro _
    rfl
  · intro j hj
    rw [h.startHolds j hj] at hfree
    cases hfree
  · exact .inl hverdict
  · intro hheld
    cases hheld
  · intro k hheld
    cases hheld
  · exact h.enables
  · intro hlive _
    exact .inr (.inl ⟨.inl rfl, hverdict.trans hlive⟩)

/-- The thread has updated the status. -/
theorem Clean.handlerUpdated (h : s.Clean) (hreading : s.handler = .reading) :
    Clean { s with handler := .updated }.endUpdate := by
  have hheld := h.handlerHolds hreading
  have hverdict : ({ s with handler := .updated } : Loop).endUpdate.verdict = s.verdict :=
    verdict_endUpdate (s := { s with handler := .updated }) hheld
  have hne : s.handler ≠ .taken := by
    rw [hreading]
    decide
  constructor
  · exact h.initialised
  · exact h.sound
  · exact h.unstopped
  · exact h.fresh
  · intro hreading
    cases hreading
  · intro hheld
    cases hheld
  · intro j hj
    have hother := h.startHolds j hj
    rw [hheld] at hother
    cases hother
  · rcases h.verdict with heq | hwritten | hdue
    · exact .inl (hverdict.trans heq)
    · exact .inr (.inl hwritten)
    · exact .inr (.inr (hdue.handler hne))
  · intro hfree
    cases hfree
  · intro j hfree
    cases hfree
  · exact h.enables
  · intro hlive hfifo
    rcases h.disables hlive hfifo with hdue | ⟨-, hfalse⟩ | hstage
    · exact .inl (hdue.handler hne)
    · exact .inr (.inl ⟨.inr rfl, hverdict.trans hfalse⟩)
    · rw [hreading] at hstage
      cases hstage

/-- The thread goes on from its check of the status, or to its end. -/
theorem Clean.move {stage : HandlerStage} {fifo : Bool} (h : s.Clean)
    (hfrom : s.handler = .updated ∨ s.handler = .disabling) (hto : stage ≠ .reading)
    (hoff : s.fifoEnabled = false → fifo = false)
    (henables : s.live = true → fifo = true ∨ ∃ stage ∈ s.starts, stage ≠ .done)
    (hdisables : s.live = false → fifo = true →
      DisableDue { s with handler := stage, fifoEnabled := fifo }) :
    Clean { s with handler := stage, fifoEnabled := fifo } := by
  have htaken : s.handler ≠ .taken := by
    rcases hfrom with hfrom | hfrom <;> simp [hfrom]
  have hreading : s.handler ≠ .reading := by
    rcases hfrom with hfrom | hfrom <;> simp [hfrom]
  constructor
  · exact h.initialised
  · exact h.sound
  · exact h.unstopped
  · intro hidle hany
    obtain ⟨hstarts, hfifo⟩ := h.fresh hidle hany
    exact ⟨hstarts, hoff hfifo⟩
  · intro hstage
    exact absurd hstage hto
  · intro hheld
    exact absurd (h.holds hheld) hreading
  · exact h.startHolds
  · rcases h.verdict with heq | hwritten | hdue
    · exact .inl heq
    · exact .inr (.inl hwritten)
    · exact .inr (.inr (hdue.handler htaken))
  · exact h.published
  · intro k hheld hrunning
    rcases h.raw k hheld hrunning with henable | hlatched | hevent | hhandler
    · exact .inl henable
    · exact .inr (.inl hlatched)
    · exact .inr (.inr (.inl hevent))
    · exact absurd hhandler htaken
  · exact henables
  · exact hdisables

/-- Where the status says running and the feedback is not live, another stop event is due. -/
theorem Clean.eventDue (h : s.Clean) (hupdated : s.handler = .updated)
    (hrunning : s.status.running = true) (hlive : s.live = false) (hfifo : s.fifoEnabled = true) :
    s.EventDue := by
  rcases h.disables hlive hfifo with hdue | ⟨-, hfalse⟩ | hstage
  · exact hdue
  · cases hinterlock : s.interlock with
    | free => simp [Loop.verdict, hinterlock, hrunning] at hfalse
    | processing => simp [Loop.verdict, hinterlock, hrunning] at hfalse
    | held client =>
        cases client with
        | handler =>
            have hreading := h.holds hinterlock
            rw [hupdated] at hreading
            cases hreading
        | start k =>
            rcases h.raw k hinterlock hrunning with henable | hrest
            · exact .inl ⟨henable, hlive⟩
            · exact .inr hrest
  · rw [hupdated] at hstage
    cases hstage

theorem Clean.handle (h : s.Clean)
    (hdisable : s.handler = .disabling → s.live = true → ∃ stage ∈ s.starts, stage ≠ .done)
    (hstarted : s.handler = .taken → s.firmware.dsp.runState = .idle →
      s.firmware.dsp.reason.any = true)
    (hs : s.handle = some s') : s'.Clean := by
  unfold Loop.handle at hs
  cases hstage : s.handler with
  | waiting =>
      rw [hstage] at hs
      dsimp only at hs
      split_ifs at hs
      obtain rfl := Option.some.inj hs
      exact h.take hstage
  | taken =>
      rw [hstage] at hs
      obtain ⟨hfree, rfl⟩ := beginUpdate_cases hs
      exact h.handlerRead hfree (hstarted hstage)
  | reading =>
      rw [hstage] at hs
      obtain rfl := Option.some.inj hs
      exact h.handlerUpdated hstage
  | updated =>
      rw [hstage] at hs
      dsimp only at hs
      split_ifs at hs with hrunning
      · obtain rfl := Option.some.inj hs
        refine h.move (.inl hstage) (by decide) id h.enables fun hlive hfifo => .inl ?_
        refine (h.eventDue hstage hrunning hlive hfifo).handler ?_
        rw [hstage]
        decide
      · obtain rfl := Option.some.inj hs
        exact h.move (.inl hstage) (by decide) id h.enables fun _ _ => .inr (.inr rfl)
  | disabling =>
      rw [hstage] at hs
      obtain rfl := Option.some.inj hs
      refine h.move (.inr hstage) (by decide) (fun _ => rfl)
        (fun hlive => .inr (hdisable hstage hlive)) fun _ hfifo => ?_
      cases hfifo

/-! ### The event and EPICS -/

theorem Clean.interrupt (h : s.Clean) :
    Clean { s with latched := false, event := true } := by
  have hdue : EventDue { s with latched := false, event := true } := .inr (.inr (.inl rfl))
  constructor
  · exact h.initialised
  · exact h.sound
  · exact h.unstopped
  · exact h.fresh
  · exact h.handlerHolds
  · exact h.holds
  · exact h.startHolds
  · exact .inr (.inr hdue)
  · exact h.published
  · intro _ _ _
    exact .inr (.inr (.inl rfl))
  · exact h.enables
  · intro _ _
    exact .inl hdue

theorem Clean.publish (h : s.Clean) (hprocessing : s.interlock = .processing) :
    Clean { s with interlock := .free, published := s.status.running } := by
  have hverdict : Loop.verdict { s with interlock := .free, published := s.status.running } =
      s.verdict := by
    simp [Loop.verdict, hprocessing]
  constructor
  · exact h.initialised
  · exact h.sound
  · exact h.unstopped
  · exact h.fresh
  · intro hreading
    have hheld := h.handlerHolds hreading
    rw [hprocessing] at hheld
    cases hheld
  · intro hheld
    cases hheld
  · intro k hk
    have hheld := h.startHolds k hk
    rw [hprocessing] at hheld
    cases hheld
  · rcases h.verdict with heq | hrest
    · exact .inl (hverdict.trans heq)
    · exact .inr hrest
  · intro _
    rfl
  · intro _ hheld
    cases hheld
  · exact h.enables
  · intro hlive hfifo
    rcases h.disables hlive hfifo with hdue | ⟨hstage, hfalse⟩ | hstage
    · exact .inl hdue
    · exact .inr (.inl ⟨hstage, hverdict.trans hfalse⟩)
    · exact .inr (.inr hstage)

/-! ### Runs -/

/-- Before `initialise_tune_pll`. -/
def IsNew (s : Loop) : Prop :=
  ∃ firmware latched event, firmware.dsp.Sound ∧ s = .initial firmware latched event

/-- `initialise_tune_pll` stops a running feedback. -/
theorem IsNew.initialise (h : s.IsNew) (hstop : s.firmware.dsp.runState ≠ .starting)
    (hi : i.start = false) (hi' : i.stop = true) :
    Clean { s.clock i with initialised := true } := by
  obtain ⟨firmware, latched, event, hsound, rfl⟩ := h
  have hlive : ((Loop.initial firmware latched event).clock i).live = false := by
    change (firmware.dsp.clock firmware.adc i).runState.isLive = false
    unfold DspSide.clock
    cases hstate : firmware.dsp.runState with
    | idle => simp [hi, RunState.isLive]
    | starting => exact absurd hstate hstop
    | running => simp [ControlInput.stopping, hi', RunState.isLive]
    | stopping =>
        dsimp only
        split_ifs <;> rfl
  constructor
  · rfl
  · exact hsound.clock
  · intro hlive'
    exact Bool.noConfusion (hlive.symm.trans hlive')
  · intro _ _
    exact ⟨rfl, rfl⟩
  · intro hreading
    cases hreading
  · intro hheld
    cases hheld
  · intro k hk
    cases hk
  · exact .inl hlive.symm
  · intro _
    rfl
  · intro _ hheld
    cases hheld
  · intro hlive'
    exact Bool.noConfusion (hlive.symm.trans hlive')
  · intro _ hfifo
    cases hfifo

theorem Clean.step (h : s.Clean) (ho : Orderly s a) (hs : s.step a = some s') : s'.Clean := by
  cases a with
  | initialise i =>
      simp [Loop.step, h.initialised] at hs
  | clock i =>
      simp only [Loop.step, h.initialised, if_true, Option.some.injEq] at hs
      subst hs
      have hclean : Clean { s.clock { i with start := false, stop := false } with
          starts := s.starts ++ [] } := h.clocked (ho.starting _ rfl) rfl
      rwa [List.append_nil] at hclean
  | start i =>
      simp only [Loop.step, h.initialised, if_true, Option.some.injEq] at hs
      subst hs
      exact h.clocked (ho.starting _ rfl) rfl
  | stop i =>
      simp only [Loop.step, h.initialised, if_true, Option.some.injEq] at hs
      subst hs
      have hclean : Clean { s.clock { i with start := false, stop := true } with
          starts := s.starts ++ [] } := h.clocked (ho.starting _ rfl) rfl
      rwa [List.append_nil] at hclean
  | proceed k => exact h.proceed (ho.enable k rfl) hs
  | interrupt =>
      simp only [Loop.step] at hs
      split_ifs at hs
      obtain rfl := Option.some.inj hs
      exact h.interrupt
  | handle =>
      simp only [Loop.step, h.initialised, if_true] at hs
      exact h.handle (ho.disable rfl) (ho.started rfl) hs
  | publish =>
      simp only [Loop.step] at hs
      split_ifs at hs with hprocessing
      obtain rfl := Option.some.inj hs
      exact h.publish hprocessing

theorem IsNew.step (h : s.IsNew) (ho : Orderly s a) (hs : s.step a = some s') :
    s'.IsNew ∨ s'.Clean := by
  cases a with
  | initialise i =>
      right
      have hnew : s.initialised = false := by
        obtain ⟨firmware, latched, event, -, rfl⟩ := h
        rfl
      simp only [Loop.step, hnew, Bool.false_eq_true, if_false, Option.some.injEq] at hs
      subst hs
      refine h.initialise (fun hstarting => ?_) rfl rfl
      have hgo := ho.starting _ rfl hstarting
      simp [ControlInput.stopping] at hgo
  | interrupt =>
      left
      obtain ⟨firmware, latched, event, hsound, rfl⟩ := h
      simp only [Loop.step] at hs
      split_ifs at hs
      obtain rfl := Option.some.inj hs
      exact ⟨firmware, false, true, hsound, rfl⟩
  | _ =>
      obtain ⟨firmware, latched, event, -, rfl⟩ := h
      simp [Loop.step, Loop.proceed, Loop.initial] at hs

end Loop

/-- In every run whose steps are all orderly, the software and the firmware agree wherever all is
quiet. -/
theorem loop_agrees {s₀ s : Loop} {l : List (Loop × Act × Unit)} (hinit : loopMachine.init s₀)
    (hp : Path loopMachine.system s₀ l s) (horderly : ∀ x ∈ l, Orderly x.1 x.2.1) :
    Always Loop.Agrees l s := by
  have hstep : ∀ {s a s'}, loopMachine.system.Step s a s' → s.step a.1 = some s' := by
    intro s a s' h
    obtain ⟨t, ht, htuple⟩ := Option.map_eq_some_iff.mp h
    rw [ht, (Prod.mk.inj htuple).1]
  have hnew : s₀.IsNew ∨ s₀.Clean := by
    obtain ⟨i, n, latched, event, rfl⟩ := hinit
    exact .inl ⟨controlRun i n, latched, event, controlRun_sound i n, rfl⟩
  have hall := hp.guarded_always (P := fun s => s.IsNew ∨ s.Clean)
    (C := fun s a => Orderly s a.1) (fun s a s' h ho hs => h.elim
      (fun h => h.step ho (hstep hs)) fun h => .inr (h.step ho (hstep hs))) horderly hnew
  refine hall.mono fun s h => ?_
  rcases h with ⟨firmware, latched, event, -, rfl⟩ | hclean
  · intro hq
    cases hq.initialised
  · exact hclean.agrees

/-! ### Two runs -/

/-- A turn clock at every ADC clock, dwells of one turn, and nothing amiss. -/
def quietInput : ControlInput where
  turnClock := (true, true)
  dwellTime := 0
  start := false
  stop := false
  detectorOverflow := false
  magnitudeError := false
  offsetError := false
  blanking := false
  blankingEnable := false

/-- The software comes up with an idle firmware, and a start command is written. -/
def startWritten : List Act :=
  [.initialise quietInput, .start quietInput] ++ List.replicate 8 (.clock quietInput)

/-- The feedback is stopped, and the stop event is handled. -/
def stopHandled : List Act :=
  [.stop quietInput] ++ List.replicate 4 (.clock quietInput) ++
    [.interrupt, .handle, .handle, .handle, .publish, .handle, .handle]

/-- The rest of the start command. -/
def startHandled : List Act := [.proceed 0, .proceed 0, .publish, .proceed 0]

instance (s : Loop) (a : Act) : Decidable (Orderly s a) :=
  decidable_of_iff
    ((∀ i ∈ a.input, s.firmware.dsp.runState = .starting → i.stopping = false) ∧
      (∀ k ∈ a.command, s.starts[k]? = some .updated → s.live = true ∨ s.DisableDue) ∧
      (a.isHandle = true → s.handler = .disabling → s.live = true →
        ∃ stage ∈ s.starts, stage ≠ .done) ∧
      (a.isHandle = true → s.handler = .taken → s.firmware.dsp.runState = .idle →
        s.firmware.dsp.reason.any = true))
    ⟨fun h => ⟨h.1, h.2.1, h.2.2.1, h.2.2.2⟩, fun h => ⟨h.1, h.2, h.3, h.4⟩⟩

/-- The firmware has just been powered up. -/
def poweredUp : Loop := .initial {} false false

theorem poweredUp_init : loopMachine.init poweredUp :=
  ⟨fun _ => quietInput, 0, false, false, rfl⟩

/-- A loop that is started, and then stopped. -/
def startedStopped : List Act := startWritten ++ startHandled ++ stopHandled

theorem startedStopped_orderly : ∀ x ∈ loopMachine.trace poweredUp startedStopped,
    Orderly x.1 x.2.1 := by
  have hall : ((loopMachine.trace poweredUp startedStopped).all fun x =>
      decide (Orderly x.1 x.2.1)) = true := by
    decide +kernel
  exact fun x hx => of_decide_eq_true (List.all_eq_true.mp hall x hx)

theorem loop_agrees_stopped :
    let s := loopMachine.after poweredUp startedStopped
    s.Quiescent ∧ s.Agrees := by
  intro s
  have hagrees := loop_agrees poweredUp_init (loopMachine.path_trace poweredUp startedStopped)
    startedStopped_orderly
  refine ⟨?_, hagrees.2⟩
  have hstarts : s.starts = [.done] := by decide +kernel
  constructor
  · decide +kernel
  · simp [hstarts]
  · decide +kernel
  · decide +kernel
  · decide +kernel
  · decide +kernel
  · left
    constructor
    · decide +kernel
    · decide +kernel

/-- A loop that stops before the start command goes on. -/
def stoppedEarly : List Act := startWritten ++ stopHandled ++ startHandled

/-- The start command enables the FIFO of a feedback that has stopped. -/
theorem loop_disagrees : ¬ ∀ s₀ l s, loopMachine.init s₀ → Path loopMachine.system s₀ l s →
    Always Loop.Agrees l s := by
  intro h
  have hagrees := (h _ _ _ poweredUp_init (loopMachine.path_trace poweredUp stoppedEarly)).2
  have hstarts : (loopMachine.after poweredUp stoppedEarly).starts = [.done] := by decide +kernel
  have hquiescent : (loopMachine.after poweredUp stoppedEarly).Quiescent := by
    constructor
    · decide +kernel
    · simp [hstarts]
    · decide +kernel
    · decide +kernel
    · decide +kernel
    · decide +kernel
    · left
      constructor
      · decide +kernel
      · decide +kernel
  exact absurd (hagrees hquiescent).1 (by decide +kernel)

end Mbf.TunePll
