import Mbf.TunePll.Fifo

/-! # What the readout FIFO delivers

A run of the FIFO interleaves its calls with the two steps of EPICS, reading the waveform and
ending the processing, in any order that the interlock allows.  An observer notes the samples
that the processing of the FIFO has read and the waveforms that EPICS has published since the FIFO
was last enabled or reset.

All through a run the samples read are those published, those in the waveform that waits for EPICS
and those that the FIFO carries over, in this order (`Session.Conserves`).  Nothing takes over what
is carried past a disable: the samples of the last read that no longer fit the buffer are lost. -/

namespace Mbf.TunePll

open Runs

/-! ### The interface of the FIFO -/

/-- `enable_readout_fifo`; the hardware is flushed if there is a batch for it. -/
def enableReadoutFifo (flushed : Option Batch) (b : Batch) (r : Readout) : Except Stuck Readout :=
  if r.fifo.enabled then .ok r else startReadoutFifo flushed b r

/-- `disable_readout_fifo`. -/
def disableReadoutFifo (b : Batch) (r : Readout) : Except Stuck Readout :=
  if r.fifo.enabled then stopReadoutFifo b r else .ok r

/-- `reset_readout_fifo`. -/
def resetReadoutFifo (flushed : Batch) (r : Readout) : Except Stuck Readout :=
  if r.fifo.enabled then flushReadoutFifo flushed r else .ok r

/-- `handle_fifo_ready`. -/
def handleFifoReady (b : Batch) (r : Readout) : Except Stuck Readout :=
  if r.fifo.enabled then processFifoContent .update b r else .ok r

inductive FifoInput where
  | enable (flushed : Option Batch) (b : Batch)
  | disable (b : Batch)
  | reset (flushed : Batch)
  | ready (b : Batch)
  /-- EPICS reads the waveform. -/
  | publish
  /-- EPICS ends the processing. -/
  | done

/-- The FIFO with its observer. -/
structure Session where
  readout : Readout
  /-- The samples that the processing has read since the FIFO was enabled or reset. -/
  taken : List Sample
  /-- The waveforms that EPICS has published since then. -/
  published : List (List Sample)

namespace Session

def step (s : Session) : FifoInput → Except Stuck Session
  | .enable flushed b => do
      let readout ← enableReadoutFifo flushed b s.readout
      return if s.readout.fifo.enabled then { s with readout } else ⟨readout, b.data, []⟩
  | .disable b => do
      let readout ← disableReadoutFifo b s.readout
      return { s with
        readout, taken := if s.readout.fifo.enabled then s.taken ++ b.data else s.taken }
  | .reset flushed => do
      let readout ← resetReadoutFifo flushed s.readout
      return if s.readout.fifo.enabled then ⟨readout, [], []⟩ else { s with readout }
  | .ready b => do
      let readout ← handleFifoReady b s.readout
      return { s with
        readout, taken := if s.readout.fifo.enabled then s.taken ++ b.data else s.taken }
  | .publish =>
      if s.readout.epics = .signalled then do
        let waveform ← readFifoBuffer s.readout.fifo
        return { s with
          readout := { s.readout with epics := .read }, published := s.published ++ [waveform] }
      else .error .waiting
  | .done =>
      if s.readout.epics = .read then
        .ok { s with readout := { s.readout with epics := .done } }
      else .error .waiting

/-- The samples of the waveform that waits for EPICS. -/
def pending (s : Session) : List Sample :=
  if s.readout.epics = .signalled then s.readout.fifo.held else []

/-- Every sample read is in exactly one waveform, in order; while the FIFO is enabled the last of
them may still have to be emitted. -/
def Delivered (s : Session) : Prop :=
  ∃ held, s.taken = s.published.flatten ++ s.pending ++ held ∧
    (s.readout.fifo.enabled = false → held = [])

/-- If the FIFO is disabled, what it carries over and the last batch fit the buffer. -/
def Fits (s : Session) : FifoInput → Prop
  | .disable b => s.readout.fifo.enabled = true →
      s.readout.fifo.carried.length + b.data.length ≤ s.readout.fifo.bufferSize
  | _ => True

instance (s : Session) : DecidablePred s.Fits
  | .disable _ => inferInstanceAs (Decidable (_ → _))
  | .enable _ _ | .reset _ | .ready _ | .publish | .done => inferInstanceAs (Decidable True)

end Session

/-- The FIFO from its creation. -/
def fifoMachine (bufferSize : ℕ) : Machine Session FifoInput Unit where
  init s := ∃ flushed, createReadoutFifo bufferSize flushed = .ok s.readout ∧
    s.taken = [] ∧ s.published = []
  step s i :=
    match s.step i with
    | .ok s' => some (s', ())
    | .error _ => none

/-! ### Conservation -/

namespace Session

/-- Where the samples read are. -/
structure Conserves (s : Session) : Prop where
  sound : s.readout.Sound
  taken : s.taken = s.published.flatten ++ s.pending ++ s.readout.fifo.carried

/-- What a step does to the delivery. -/
structure Steps (s : Session) (i : FifoInput) (s' : Session) : Prop where
  conserves : s'.Conserves
  /-- While EPICS is at work the buffer stays as it is. -/
  buffer : ¬ s.readout.Ready → s'.readout.fifo.buffer = s.readout.fifo.buffer ∧
    s'.readout.fifo.bufferCount = s.readout.fifo.bufferCount
  delivered : s.Delivered → (s'.Delivered ↔ s.Fits i)

theorem delivered_iff {s : Session} (h : s.Conserves) :
    s.Delivered ↔ (s.readout.fifo.enabled = false → s.readout.fifo.carried = []) := by
  constructor
  · rintro ⟨held, htaken, hheld⟩ hdisabled
    have heq := h.taken.symm.trans htaken
    rw [List.append_cancel_left heq]
    exact hheld hdisabled
  · intro hcarried
    exact ⟨_, h.taken, hcarried⟩

theorem pending_idle {s : Session} (h : s.readout.Ready) : s.pending = [] := by
  apply if_neg
  rcases h with h | h <;> simp [h]

/-- Processing a batch keeps every sample. -/
theorem conserves_processed {s : Session} {r : Readout} {data : List Sample} (h : s.Conserves)
    (hready : s.readout.Ready)
    (hdone : Processed s.readout r (s.readout.fifo.carried ++ data)) :
    Conserves ⟨r, s.taken ++ data, s.published⟩ := by
  refine ⟨hdone.sound, ?_⟩
  have hheld := hdone.held
  rw [h.taken, pending_idle hready]
  unfold pending
  dsimp only
  rcases hdone.epics with ⟨hsignalled, hcarried⟩ | ⟨hidle, hlt⟩
  · rw [if_pos hsignalled, hheld, hcarried, List.append_assoc _ (List.take _ _),
      List.take_append_drop, List.append_nil, List.append_assoc]
  · have hbusy : r.fifo.epicsBusy = false := by
      by_contra hne
      exact hdone.sound.busy.mp (Bool.not_eq_false _ ▸ hne) hidle
    have hcarried : r.fifo.carried = r.fifo.held := by
      simp [ReadoutFifo.carried, hbusy]
    rw [if_neg (by simp [hidle]), hcarried, hheld, List.take_of_length_le hlt.le]
    simp only [List.append_nil, List.append_assoc]

/-- A call that does nothing, as the FIFO is not enabled. -/
theorem Steps.refl {s : Session} {i : FifoInput} (h : s.Conserves) (hfits : s.Fits i) :
    Steps s i s :=
  ⟨h, fun _ => ⟨rfl, rfl⟩, fun hd => ⟨fun _ => hfits, fun _ => hd⟩⟩

/-- A call that processes a batch while the FIFO stays enabled. -/
theorem Steps.processed {s : Session} {i : FifoInput} {r : Readout} {taken : List Sample}
    {published : List (List Sample)} (h : Conserves ⟨r, taken, published⟩)
    (hready : s.readout.Ready) (henabled : r.fifo.enabled = true) (hfits : s.Fits i) :
    Steps s i ⟨r, taken, published⟩ := by
  refine ⟨h, fun hbusy => absurd hready hbusy, fun _ => ?_⟩
  rw [delivered_iff h]
  dsimp only
  rw [henabled]
  exact ⟨fun _ => hfits, fun _ hdisabled => Bool.noConfusion hdisabled⟩

/-- A new session has nothing to deliver yet. -/
theorem conserves_fresh {r : Readout} (h : r.Sound) (hidle : r.epics = .idle)
    (hheld : r.fifo.held = []) : Conserves ⟨r, [], []⟩ := by
  refine ⟨h, ?_⟩
  have hbusy : r.fifo.epicsBusy = false := by
    by_contra hne
    exact h.busy.mp (Bool.not_eq_false _ ▸ hne) hidle
  unfold pending ReadoutFifo.carried
  simp [hidle, hbusy, hheld]

theorem step_ready {s : Session} (h : s.Conserves) (b : Batch) :
    s.step (.ready b) = .error .waiting ∨
      ∃ s', s.step (.ready b) = .ok s' ∧ Steps s (.ready b) s' := by
  unfold step handleFifoReady
  cases henabled : s.readout.fifo.enabled with
  | false => exact .inr ⟨_, rfl, .refl h trivial⟩
  | true =>
      by_cases hready : s.readout.Ready
      · obtain ⟨r, hcall, hdone, -⟩ := processFifoContent_ok .update b h.sound hready
        simp only [if_true, hcall]
        exact .inr ⟨_, rfl, .processed (conserves_processed h hready hdone) hready
          (hdone.enabled.trans henabled) trivial⟩
      · simp only [if_true, processFifoContent_waiting _ _ h.sound hready]
        exact .inl rfl

theorem step_enable {s : Session} (h : s.Conserves) (flushed : Option Batch) (b : Batch) :
    s.step (.enable flushed b) = .error .waiting ∨
      ∃ s', s.step (.enable flushed b) = .ok s' ∧ Steps s (.enable flushed b) s' := by
  unfold step enableReadoutFifo
  cases henabled : s.readout.fifo.enabled with
  | true => exact .inr ⟨_, rfl, .refl h trivial⟩
  | false =>
      by_cases hready : s.readout.Ready
      · obtain ⟨r, hcall, henabled', r₁, hsound, hepics, hheld, hdone⟩ :=
          startReadoutFifo_ok flushed b h.sound hready
        have hfresh := conserves_fresh hsound hepics hheld
        have hconserves := conserves_processed hfresh (.inl hepics) hdone
        simp only [Bool.false_eq_true, if_false, hcall]
        exact .inr ⟨_, rfl, .processed hconserves hready henabled' trivial⟩
      · simp only [Bool.false_eq_true, if_false, startReadoutFifo_waiting _ _ h.sound hready]
        exact .inl rfl

theorem step_reset {s : Session} (h : s.Conserves) (flushed : Batch) :
    s.step (.reset flushed) = .error .waiting ∨
      ∃ s', s.step (.reset flushed) = .ok s' ∧ Steps s (.reset flushed) s' := by
  unfold step resetReadoutFifo
  cases henabled : s.readout.fifo.enabled with
  | false => exact .inr ⟨_, rfl, .refl h trivial⟩
  | true =>
      by_cases hready : s.readout.Ready
      · obtain ⟨r, hcall, hsound, hepics, henabled', hheld⟩ :=
          flushReadoutFifo_ok flushed h.sound hready
        simp only [if_true, hcall]
        exact .inr ⟨_, rfl, .processed (conserves_fresh hsound hepics hheld) hready
          (henabled'.trans henabled) trivial⟩
      · simp only [if_true, flushReadoutFifo_waiting _ h.sound hready]
        exact .inl rfl

/-- What is carried past a disable is lost, so nothing must be. -/
theorem step_disable {s : Session} (h : s.Conserves) (b : Batch) :
    s.step (.disable b) = .error .waiting ∨
      ∃ s', s.step (.disable b) = .ok s' ∧ Steps s (.disable b) s' := by
  unfold step disableReadoutFifo
  cases henabled : s.readout.fifo.enabled with
  | false => exact .inr ⟨_, rfl, .refl h fun htrue => Bool.noConfusion (henabled.symm.trans htrue)⟩
  | true =>
      by_cases hready : s.readout.Ready
      · obtain ⟨r, hcall, hdone, hsignalled⟩ := stopReadoutFifo_ok b h.sound hready
        have hconserves := conserves_processed h hready hdone
        have hsound := hdone.sound
        have hstopped : Conserves
            ⟨⟨{ r.fifo with enabled := false }, r.epics⟩, s.taken ++ b.data, s.published⟩ :=
          ⟨⟨hsound.size, hsound.buffer, hsound.readBuffer, hsound.bufferCount,
            hsound.readBufferCount, hsound.busy⟩, hconserves.taken⟩
        simp only [if_true, hcall]
        refine .inr ⟨_, rfl, hstopped, fun hbusy => absurd hready hbusy, fun _ => ?_⟩
        rw [delivered_iff hstopped]
        have hcarried : r.fifo.carried =
            (s.readout.fifo.carried ++ b.data).drop s.readout.fifo.bufferSize := by
          rcases hdone.epics with ⟨-, hcarried⟩ | ⟨hidle, -⟩
          · exact hcarried
          · exact Epics.noConfusion (hsignalled.symm.trans hidle)
        have hfits : r.fifo.carried = [] ↔ s.readout.fifo.carried.length + b.data.length ≤
            s.readout.fifo.bufferSize := by
          rw [hcarried, List.drop_eq_nil_iff, List.length_append]
        exact ⟨fun hempty _ => hfits.mp (hempty rfl), fun hle _ => hfits.mpr (hle henabled)⟩
      · simp only [if_true, stopReadoutFifo_waiting _ h.sound hready]
        exact .inl rfl

/-- What EPICS publishes is what waits for it. -/
theorem step_publish {s : Session} (h : s.Conserves) :
    s.step .publish = .error .waiting ∨ ∃ s', s.step .publish = .ok s' ∧ Steps s .publish s' := by
  unfold step
  dsimp only
  by_cases hsignalled : s.readout.epics = .signalled
  · have hbusy : s.readout.fifo.epicsBusy = true := h.sound.busy.mpr (by simp [hsignalled])
    have hcount : s.readout.fifo.bufferCount ≤ s.readout.fifo.buffer.length := by
      rw [h.sound.buffer]
      exact h.sound.bufferCount
    have hread : readFifoBuffer s.readout.fifo = .ok s.readout.fifo.held := if_pos ⟨hbusy, hcount⟩
    rw [if_pos hsignalled, hread]
    refine .inr ⟨_, rfl, ?_⟩
    have hconserves : Conserves { s with
        readout := { s.readout with epics := .read }
        published := s.published ++ [s.readout.fifo.held] } := by
      refine ⟨⟨h.sound.size, h.sound.buffer, h.sound.readBuffer, h.sound.bufferCount,
        h.sound.readBufferCount, by simp [hbusy]⟩, ?_⟩
      have htaken := h.taken
      unfold pending at htaken ⊢
      rw [if_pos hsignalled] at htaken
      rw [if_neg (by simp), List.append_nil, List.flatten_append]
      simpa using htaken
    refine ⟨hconserves, fun _ => ⟨rfl, rfl⟩, fun hd => ?_⟩
    rw [delivered_iff hconserves]
    exact ⟨fun _ => trivial, fun _ => (delivered_iff h).mp hd⟩
  · rw [if_neg hsignalled]
    exact .inl rfl

theorem step_done {s : Session} (h : s.Conserves) :
    s.step .done = .error .waiting ∨ ∃ s', s.step .done = .ok s' ∧ Steps s .done s' := by
  unfold step
  dsimp only
  by_cases hread : s.readout.epics = .read
  · rw [if_pos hread]
    refine .inr ⟨_, rfl, ?_⟩
    have hbusy : s.readout.fifo.epicsBusy = true := h.sound.busy.mpr (by simp [hread])
    have hconserves : Conserves { s with readout := { s.readout with epics := .done } } := by
      refine ⟨⟨h.sound.size, h.sound.buffer, h.sound.readBuffer, h.sound.bufferCount,
        h.sound.readBufferCount, by simp [hbusy]⟩, ?_⟩
      have htaken := h.taken
      unfold pending at htaken ⊢
      rw [if_neg (by simp [hread])] at htaken
      rw [if_neg (by simp)]
      exact htaken
    refine ⟨hconserves, fun _ => ⟨rfl, rfl⟩, fun hd => ?_⟩
    rw [delivered_iff hconserves]
    exact ⟨fun _ => trivial, fun _ => (delivered_iff h).mp hd⟩
  · rw [if_neg hread]
    exact .inl rfl

/-- A step waits for EPICS, or keeps every sample. -/
theorem step_spec {s : Session} (h : s.Conserves) (i : FifoInput) :
    s.step i = .error .waiting ∨ ∃ s', s.step i = .ok s' ∧ Steps s i s' := by
  cases i with
  | enable flushed b => exact step_enable h flushed b
  | disable b => exact step_disable h b
  | reset flushed => exact step_reset h flushed
  | ready b => exact step_ready h b
  | publish => exact step_publish h
  | done => exact step_done h

theorem Steps.of_step {s s' : Session} {i : FifoInput} (h : s.Conserves)
    (hstep : s.step i = .ok s') : Steps s i s' := by
  rcases step_spec h i with hwaiting | ⟨s₁, hstep₁, hsteps⟩
  · rw [hwaiting] at hstep
    cases hstep
  · rw [hstep₁] at hstep
    cases hstep
    exact hsteps

end Session

/-! ### Runs -/

theorem fifoMachine_step {bufferSize : ℕ} {s s' : Session} {a : FifoInput × Unit} :
    (fifoMachine bufferSize).system.Step s a s' ↔ s.step a.1 = .ok s' := by
  rw [Machine.system_step]
  change (match s.step a.1 with | .ok s' => some (s', ()) | .error _ => none) = some (s', a.2) ↔ _
  cases s.step a.1 with
  | error e => simp
  | ok s₁ => simp

/-- The FIFO starts out with nothing to deliver. -/
theorem fifoMachine_starts {bufferSize : ℕ} (hsize : pllFifoSize < bufferSize)
    (hlt : bufferSize < 2 ^ 32) {s : Session} (h : (fifoMachine bufferSize).init s) :
    s.Conserves ∧ s.Delivered := by
  obtain ⟨r, taken, published⟩ := s
  obtain ⟨flushed, hcreate, rfl, rfl⟩ := h
  obtain ⟨r', hreset, hsound, hidle, -, -, hheld⟩ := resetFifo_ok (some flushed) (r := {
    fifo := {
      epicsBusy := false, buffer := List.replicate bufferSize 0, bufferSize, bufferCount := 0
      enabled := false, overflow := false
      readBufferCount := 0, readBuffer := List.replicate pllFifoSize 0 }
    epics := .idle }) ⟨⟨hsize, hlt⟩, List.length_replicate, List.length_replicate,
      Nat.zero_le _, Nat.zero_le _, by simp⟩ rfl
  have heq : r = r' := by
    have h := hcreate.symm.trans hreset
    cases h
    rfl
  subst heq
  have hconserves := Session.conserves_fresh hsound hidle hheld
  refine ⟨hconserves, (Session.delivered_iff hconserves).mpr fun _ => ?_⟩
  have htaken := hconserves.taken
  have hboth : Session.pending ⟨r, [], []⟩ = [] ∧ r.fifo.carried = [] := by simpa using htaken
  exact hboth.2

theorem fifoMachine_keeps {bufferSize : ℕ} (s : Session) (a : FifoInput × Unit) (s' : Session)
    (h : s.Conserves) (hstep : (fifoMachine bufferSize).system.Step s a s') : s'.Conserves :=
  (Session.Steps.of_step h (fifoMachine_step.mp hstep)).conserves

/-- Everything is delivered exactly if every disable takes all there is. -/
theorem always_delivered_iff {bufferSize : ℕ} (hsize : pllFifoSize < bufferSize)
    (hlt : bufferSize < 2 ^ 32) {s₀ s : Session} {l : List (Session × FifoInput × Unit)}
    (h₀ : (fifoMachine bufferSize).init s₀) (hp : Path (fifoMachine bufferSize).system s₀ l s) :
    Always Session.Delivered l s ↔ ∀ x ∈ l, x.1.Fits x.2.1 := by
  obtain ⟨hconserves, hdelivered⟩ := fifoMachine_starts hsize hlt h₀
  have hstep : ∀ (t : Session) (a : FifoInput × Unit) (t' : Session), t.Conserves → t.Delivered →
      (fifoMachine bufferSize).system.Step t a t' → (t'.Delivered ↔ t.Fits a.1) := by
    intro t a t' h hd hstep
    exact (Session.Steps.of_step h (fifoMachine_step.mp hstep)).delivered hd
  exact hp.always_iff fifoMachine_keeps hstep hconserves hdelivered

/-- In every run no access goes past the end of a buffer, the buffer stays as it is while EPICS is
at work on it, and every sample read is delivered, exactly if what is carried over and read at each
disable fits the buffer. -/
theorem readout_delivers {bufferSize : ℕ} (hsize : pllFifoSize < bufferSize)
    (hlt : bufferSize < 2 ^ 32) {s₀ s : Session} {l : List (Session × FifoInput × Unit)}
    (h₀ : (fifoMachine bufferSize).init s₀) (hp : Path (fifoMachine bufferSize).system s₀ l s) :
    (∀ i, s.step i ≠ .error .fault) ∧
    (¬ s.readout.Ready → ∀ i s', s.step i = .ok s' →
      s'.readout.fifo.buffer = s.readout.fifo.buffer ∧
      s'.readout.fifo.bufferCount = s.readout.fifo.bufferCount) ∧
    (Always Session.Delivered l s ↔ ∀ x ∈ l, x.1.Fits x.2.1) := by
  have hconserves := hp.invariant fifoMachine_keeps (fifoMachine_starts hsize hlt h₀).1
  refine ⟨fun i hfault => ?_, fun hbusy i s' hstep => ?_, always_delivered_iff hsize hlt h₀ hp⟩
  · rcases Session.step_spec hconserves i with hwaiting | ⟨s', hok, -⟩
    · rw [hwaiting] at hfault
      cases hfault
    · rw [hok] at hfault
      cases hfault
  · exact (Session.Steps.of_step hconserves hstep).buffer hbusy

/-! ### A disable that loses a sample -/

/-- As many samples as asked for, up to the size of the hardware FIFO. -/
def batchOf (n : ℕ) (hn : n ≤ pllFifoSize) : Batch :=
  ⟨List.replicate n 1, List.length_replicate.trans_le hn, false⟩

/-- The FIFO just after its creation. -/
def fifoStart (bufferSize : ℕ) : Session := {
  readout := {
    fifo := {
      epicsBusy := false, buffer := List.replicate bufferSize 0, bufferSize, bufferCount := 0
      enabled := false, overflow := false
      readBufferCount := 0, readBuffer := List.replicate pllFifoSize 0 }
    epics := .idle }
  taken := []
  published := [] }

theorem fifoStart_init (bufferSize : ℕ) : (fifoMachine bufferSize).init (fifoStart bufferSize) :=
  ⟨batchOf 0 (Nat.zero_le _), rfl, rfl, rfl⟩

/-- Ten samples are read at the start and three at the stop. -/
def shortSession : List FifoInput :=
  [.enable none (batchOf 10 (by decide)), .disable (batchOf 3 (by decide)), .publish, .done]

/-- The samples of the short session are delivered. -/
theorem readout_delivers_short :
    Always Session.Delivered ((fifoMachine 1026).trace (fifoStart 1026) shortSession)
      ((fifoMachine 1026).after (fifoStart 1026) shortSession) := by
  apply (readout_delivers (by decide) (by decide) (fifoStart_init 1026)
    ((fifoMachine 1026).path_trace _ _)).2.2.mpr
  decide +kernel

/-- The buffer of 1026 samples is one short of full when the FIFO is stopped with two more. -/
def fullSession : List FifoInput :=
  [.enable none (batchOf 1025 le_rfl), .disable (batchOf 2 (by decide)), .publish, .done]

theorem readout_delivers_not_always :
    ¬ ∀ bufferSize, pllFifoSize < bufferSize → bufferSize < 2 ^ 32 →
      ∀ (s₀ s : Session) (l : List (Session × FifoInput × Unit)),
        (fifoMachine bufferSize).init s₀ → Path (fifoMachine bufferSize).system s₀ l s →
          Always Session.Delivered l s := by
  intro hall
  have hinit := fifoStart_init 1026
  have hpath := (fifoMachine 1026).path_trace (fifoStart 1026) fullSession
  have halways := hall 1026 (by decide) (by decide) _ _ _ hinit hpath
  have hfits := (always_delivered_iff (by decide) (by decide) hinit hpath).mp halways
  exact absurd hfits (by decide +kernel)

end Mbf.TunePll
