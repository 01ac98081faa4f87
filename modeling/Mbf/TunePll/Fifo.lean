import Mbf.Lib.Runs
import Mathlib.Algebra.Order.Group.Nat

/-! # The readout FIFO of the Tune PLL

`tune_pll_fifo.c` moves what the hardware FIFO holds, through a read buffer, into the buffer that
is published through EPICS.  There is one buffer for both purposes: while EPICS is busy with it,
every call that would change it first waits for EPICS.

A copy is defined only within the bounds of its two buffers, so a call ends in one of three ways:
it returns, it waits for EPICS, or it goes past the end of a buffer (`Stuck.fault`).  The mutex of
the FIFO makes every call one step. -/

namespace Mbf.TunePll

abbrev Sample := BitVec 32

/-- `PLL_FIFO_SIZE`. -/
def pllFifoSize : ℕ := 1025

/-- Why a call has not returned. -/
inductive Stuck where
  /-- EPICS has not finished with the buffer. -/
  | waiting
  /-- An access past the end of a buffer, or a failed assertion. -/
  | fault
  deriving DecidableEq

/-- What one read of the hardware FIFO finds there. -/
structure Batch where
  data : List Sample
  /-- The assertion of `hw_read_pll_readout_fifo`. -/
  fits : data.length ≤ pllFifoSize
  overrun : Bool

/-- `struct readout_fifo`. -/
structure ReadoutFifo where
  epicsBusy : Bool
  buffer : List Sample
  bufferSize : ℕ
  bufferCount : ℕ
  enabled : Bool
  overflow : Bool
  readBufferCount : ℕ
  readBuffer : List Sample

/-- Where EPICS is with the buffer. -/
inductive Epics where
  | idle
  /-- `interlock_signal` has been called. -/
  | signalled
  /-- The waveform has been read from the buffer. -/
  | read
  /-- The processing has ended: `interlock_wait` returns. -/
  | done
  deriving DecidableEq

/-- The FIFO with its interlock. -/
structure Readout where
  fifo : ReadoutFifo
  epics : Epics

/-! ### Buffers -/

/-- `memcpy(&dst[at], &src[start], count)`. -/
def memcpy (dst : List Sample) (pos : ℕ) (src : List Sample) (start count : ℕ) :
    Except Stuck (List Sample) :=
  if pos + count ≤ dst.length ∧ start + count ≤ src.length then
    .ok (dst.take pos ++ (src.drop start).take count ++ dst.drop (pos + count))
  else .error .fault

/-- `a - b` of two unsigned numbers. -/
def unsignedSub (a b : ℕ) : ℕ := (a + (2 ^ 32 - b)) % 2 ^ 32

/-! ### The calls -/

/-- `hw_read_pll_readout_fifo`: the read buffer with the samples at its start, and how many. -/
def hwReadPllReadoutFifo (b : Batch) (readBuffer : List Sample) : Except Stuck (List Sample × ℕ) := do
  let readBuffer ← memcpy readBuffer 0 b.data 0 b.data.length
  return (readBuffer, b.data.length)

/-- `ensure_epics_idle`. -/
def ensureEpicsIdle (r : Readout) : Except Stuck (Bool × Readout) :=
  if r.fifo.epicsBusy then
    if r.epics = .done then .ok (true, ⟨{ r.fifo with epicsBusy := false }, .idle⟩)
    else .error .waiting
  else .ok (false, r)

/-- `enum process_stage`. -/
inductive ProcessStage where
  | start
  | update
  | stop
  deriving DecidableEq

/-- The start of `process_fifo_content`: the residue of the last read starts the new buffer. -/
def takeResidue (r : Readout) : Except Stuck Readout := do
  let (busy, r) ← ensureEpicsIdle r
  if busy then
    let buffer ← memcpy r.fifo.buffer 0 r.fifo.readBuffer 0 r.fifo.readBufferCount
    return { r with fifo := { r.fifo with buffer, bufferCount := r.fifo.readBufferCount } }
  else return r

/-- The rest of `process_fifo_content`: read what there is to read, and emit the buffer if it is
full or the read was the last, or has found an overrun after the first.  The callback of the FIFO
only reads the buffer. -/
def updateBuffer (stage : ProcessStage) (b : Batch) (r : Readout) : Except Stuck Readout := do
  let f := r.fifo
  let (readBuffer, samples) ← hwReadPllReadoutFifo b f.readBuffer
  let overflow := b.overrun
  let toCopy := min samples (unsignedSub f.bufferSize f.bufferCount)
  let buffer ← memcpy f.buffer f.bufferCount readBuffer 0 toCopy
  let bufferCount := (f.bufferCount + toCopy) % 2 ^ 32
  if stage = .stop ∨ bufferCount = f.bufferSize ∨ overflow ∧ stage ≠ .start then
    let readBufferCount := unsignedSub samples toCopy
    let readBuffer ← memcpy readBuffer 0 readBuffer toCopy readBufferCount
    return ⟨{ f with epicsBusy := true, buffer, bufferCount, overflow, readBuffer, readBufferCount },
      .signalled⟩
  else return ⟨{ f with buffer, bufferCount, overflow, readBuffer }, r.epics⟩

/-- `process_fifo_content`. -/
def processFifoContent (stage : ProcessStage) (b : Batch) (r : Readout) : Except Stuck Readout := do
  let r ← takeResidue r
  updateBuffer stage b r

/-- `reset_fifo`; the hardware is read, and what it holds discarded, if there is a batch. -/
def resetFifo (flushed : Option Batch) (r : Readout) : Except Stuck Readout := do
  let f := { r.fifo with bufferCount := 0, overflow := false }
  match flushed with
  | none => return { r with fifo := f }
  | some b =>
      let (readBuffer, _) ← hwReadPllReadoutFifo b f.readBuffer
      return { r with fifo := { f with readBuffer } }

/-- `start_readout_fifo`. -/
def startReadoutFifo (flushed : Option Batch) (b : Batch) (r : Readout) : Except Stuck Readout := do
  let (_, r) ← ensureEpicsIdle r
  let r ← resetFifo flushed { r with fifo := { r.fifo with enabled := true } }
  processFifoContent .start b r

/-- `flush_readout_fifo`. -/
def flushReadoutFifo (flushed : Batch) (r : Readout) : Except Stuck Readout := do
  let (_, r) ← ensureEpicsIdle r
  resetFifo (some flushed) r

/-- `stop_readout_fifo`. -/
def stopReadoutFifo (b : Batch) (r : Readout) : Except Stuck Readout := do
  let r ← processFifoContent .stop b r
  return { r with fifo := { r.fifo with enabled := false } }

/-- `create_readout_fifo`. -/
def createReadoutFifo (bufferSize : ℕ) (flushed : Batch) : Except Stuck Readout :=
  resetFifo (some flushed) {
    fifo := {
      epicsBusy := false, buffer := List.replicate bufferSize 0, bufferSize, bufferCount := 0
      enabled := false, overflow := false
      readBufferCount := 0, readBuffer := List.replicate pllFifoSize 0 }
    epics := .idle }

/-- `read_fifo_buffer`: what EPICS publishes. -/
def readFifoBuffer (f : ReadoutFifo) : Except Stuck (List Sample) :=
  if f.epicsBusy ∧ f.bufferCount ≤ f.buffer.length then .ok (f.buffer.take f.bufferCount)
  else .error .fault

/-! ### Sound buffers -/

/-- The buffers are as long as they were allocated, and the counts are within them; EPICS is at
work exactly while the FIFO takes it to be. -/
structure Readout.Sound (r : Readout) : Prop where
  size : pllFifoSize < r.fifo.bufferSize ∧ r.fifo.bufferSize < 2 ^ 32
  buffer : r.fifo.buffer.length = r.fifo.bufferSize
  readBuffer : r.fifo.readBuffer.length = pllFifoSize
  bufferCount : r.fifo.bufferCount ≤ r.fifo.bufferSize
  readBufferCount : r.fifo.readBufferCount ≤ pllFifoSize
  busy : r.fifo.epicsBusy = true ↔ r.epics ≠ .idle

/-- The samples in the buffer. -/
def ReadoutFifo.held (f : ReadoutFifo) : List Sample := f.buffer.take f.bufferCount

/-- The samples that the next read is added to: the residue if the buffer has been emitted. -/
def ReadoutFifo.carried (f : ReadoutFifo) : List Sample :=
  if f.epicsBusy then f.readBuffer.take f.readBufferCount else f.held

/-- A copy within the bounds succeeds. -/
theorem memcpy_ok {dst src : List Sample} {pos start count : ℕ} (hdst : pos + count ≤ dst.length)
    (hsrc : start + count ≤ src.length) :
    ∃ dst', memcpy dst pos src start count = .ok dst' ∧ dst'.length = dst.length ∧
      dst'.take (pos + count) = dst.take pos ++ (src.drop start).take count := by
  refine ⟨_, if_pos ⟨hdst, hsrc⟩, ?_, ?_⟩
  · simp only [List.length_append, List.length_take, List.length_drop]
    omega
  · apply List.take_left'
    simp only [List.length_append, List.length_take, List.length_drop]
    omega

theorem unsignedSub_eq {a b : ℕ} (hb : b ≤ a) (ha : a < 2 ^ 32) : unsignedSub a b = a - b := by
  unfold unsignedSub
  omega

/-- The samples read are at the start of the read buffer. -/
theorem hwReadPllReadoutFifo_ok (b : Batch) {readBuffer : List Sample}
    (h : readBuffer.length = pllFifoSize) :
    ∃ readBuffer', hwReadPllReadoutFifo b readBuffer = .ok (readBuffer', b.data.length) ∧
      readBuffer'.length = pllFifoSize ∧ readBuffer'.take b.data.length = b.data := by
  have hfits := b.fits
  obtain ⟨readBuffer', hcopy, hlength, htake⟩ := @memcpy_ok readBuffer b.data 0 0 b.data.length
    (by omega) (by omega)
  refine ⟨readBuffer', ?_, hlength.trans h, ?_⟩
  · unfold hwReadPllReadoutFifo
    rw [hcopy]
    rfl
  · simpa using htake

/-! ### What a call does -/

/-- What processing a batch leaves, if `all` is what was carried over with the batch. -/
structure Processed (r r' : Readout) (all : List Sample) : Prop where
  sound : r'.Sound
  size : r'.fifo.bufferSize = r.fifo.bufferSize
  enabled : r'.fifo.enabled = r.fifo.enabled
  held : r'.fifo.held = all.take r.fifo.bufferSize
  epics : r'.epics = .signalled ∧ r'.fifo.carried = all.drop r.fifo.bufferSize ∨
    r'.epics = .idle ∧ all.length < r.fifo.bufferSize

theorem Readout.Sound.held_length {r : Readout} (h : r.Sound) :
    r.fifo.held.length = r.fifo.bufferCount := by
  have hbuffer := h.buffer
  have hcount := h.bufferCount
  unfold ReadoutFifo.held
  rw [List.length_take]
  omega

/-- As much of a batch as there is room for is appended to what is in the buffer. -/
theorem append_take {held data : List Sample} {size : ℕ} (hheld : held.length ≤ size) :
    held ++ data.take (min data.length (size - held.length)) = (held ++ data).take size ∧
      data.drop (min data.length (size - held.length)) = (held ++ data).drop size := by
  rw [List.take_append, List.drop_append, List.take_of_length_le hheld,
    List.drop_eq_nil_of_le hheld, List.nil_append]
  rcases Nat.le_total data.length (size - held.length) with hle | hle
  · rw [min_eq_left hle, List.take_length, List.take_of_length_le hle, List.drop_length,
      List.drop_eq_nil_of_le hle]
    exact ⟨rfl, rfl⟩
  · rw [min_eq_right hle]
    exact ⟨rfl, rfl⟩

theorem updateBuffer_ok (stage : ProcessStage) (b : Batch) {r : Readout} (h : r.Sound)
    (hidle : r.epics = .idle) :
    ∃ r', updateBuffer stage b r = .ok r' ∧ Processed r r' (r.fifo.held ++ b.data) ∧
      (stage = .stop → r'.epics = .signalled) := by
  have hheld := h.held_length
  obtain ⟨⟨hfifo, hsize⟩, hbuffer, hread, hcount, hresidue, hbusy⟩ := h
  have hfits := b.fits
  obtain ⟨htake, hdrop⟩ := @append_take r.fifo.held b.data r.fifo.bufferSize (by omega)
  rw [hheld] at htake hdrop
  obtain ⟨readBuffer, hhw, hlength, hdata⟩ := hwReadPllReadoutFifo_ok b hread
  unfold updateBuffer
  dsimp only
  rw [hhw, unsignedSub_eq hcount hsize]
  simp only [bind, Except.bind, pure, Except.pure]
  generalize hcopy : min b.data.length (r.fifo.bufferSize - r.fifo.bufferCount) = toCopy
    at htake hdrop
  have hle : toCopy ≤ b.data.length := by omega
  have hroom : r.fifo.bufferCount + toCopy ≤ r.fifo.bufferSize := by omega
  have hcopied : (readBuffer.drop 0).take toCopy = b.data.take toCopy := by
    rw [← hdata, List.take_take, min_eq_left hle, List.drop_zero]
  have hleft : (readBuffer.drop toCopy).take (b.data.length - toCopy) = b.data.drop toCopy := by
    rw [← List.drop_take, hdata]
  obtain ⟨buffer, hput, hput_length, hput_take⟩ :=
    @memcpy_ok r.fifo.buffer readBuffer r.fifo.bufferCount 0 toCopy (by omega) (by omega)
  obtain ⟨residue, hmove, hmove_length, hmove_take⟩ :=
    @memcpy_ok readBuffer readBuffer 0 toCopy (b.data.length - toCopy) (by omega) (by omega)
  rw [hcopied] at hput_take
  rw [Nat.zero_add, List.take_zero, List.nil_append, hleft, hdrop] at hmove_take
  rw [hput]
  dsimp only
  rw [Nat.mod_eq_of_lt (by omega), unsignedSub_eq hle (by omega), hmove]
  have hnew : buffer.take (r.fifo.bufferCount + toCopy) =
      (r.fifo.held ++ b.data).take r.fifo.bufferSize := hput_take.trans htake
  have hbuffer' : buffer.length = r.fifo.bufferSize := hput_length.trans hbuffer
  have hresidue' : b.data.length - toCopy ≤ pllFifoSize := by omega
  split_ifs with hemit
  · refine ⟨_, rfl, ?_, fun _ => rfl⟩
    exact ⟨⟨⟨hfifo, hsize⟩, hbuffer', hmove_length.trans hlength, hroom, hresidue', by simp⟩,
      rfl, rfl, hnew, .inl ⟨rfl, hmove_take⟩⟩
  · refine ⟨_, rfl, ?_, fun hstop => absurd (.inl hstop) hemit⟩
    refine ⟨⟨⟨hfifo, hsize⟩, hbuffer', hlength, hroom, hresidue, hbusy⟩, rfl, rfl, hnew,
      .inr ⟨hidle, ?_⟩⟩
    have hnot : r.fifo.bufferCount + toCopy ≠ r.fifo.bufferSize := fun h => hemit (.inr (.inl h))
    rw [List.length_append, hheld]
    omega

/-- EPICS is not at work on the buffer. -/
def Readout.Ready (r : Readout) : Prop := r.epics = .idle ∨ r.epics = .done

/-- Waiting for EPICS ends once it is done, and leaves the buffers alone. -/
theorem ensureEpicsIdle_ok {r : Readout} (h : r.Sound) (hready : r.Ready) :
    ensureEpicsIdle r =
      .ok (r.fifo.epicsBusy, ⟨{ r.fifo with epicsBusy := false }, .idle⟩) := by
  unfold ensureEpicsIdle
  obtain ⟨⟨busy, _⟩, epics⟩ := r
  cases busy with
  | true =>
      rcases hready with hidle | hdone
      · exact absurd hidle (h.busy.mp rfl)
      · rw [if_pos rfl, if_pos hdone]
  | false =>
      have hidle : epics = .idle := by
        by_contra hne
        exact Bool.noConfusion (h.busy.mpr hne)
      rw [hidle, if_neg (by simp)]

/-- A call waits exactly while EPICS is at work. -/
theorem ensureEpicsIdle_waiting {r : Readout} (h : r.Sound) (hready : ¬ r.Ready) :
    ensureEpicsIdle r = .error .waiting := by
  unfold Readout.Ready at hready
  rw [not_or] at hready
  unfold ensureEpicsIdle
  rw [if_pos (h.busy.mpr hready.1), if_neg hready.2]

theorem Readout.Sound.idle {r : Readout} (h : r.Sound) :
    Readout.Sound ⟨{ r.fifo with epicsBusy := false }, .idle⟩ :=
  ⟨h.size, h.buffer, h.readBuffer, h.bufferCount, h.readBufferCount, by simp⟩

/-- What was carried over is in the buffer once the residue has been taken. -/
theorem takeResidue_ok {r : Readout} (h : r.Sound) (hready : r.Ready) :
    ∃ r', takeResidue r = .ok r' ∧ r'.Sound ∧ r'.epics = .idle ∧
      r'.fifo.bufferSize = r.fifo.bufferSize ∧ r'.fifo.enabled = r.fifo.enabled ∧
      r'.fifo.held = r.fifo.carried := by
  unfold takeResidue
  rw [ensureEpicsIdle_ok h hready]
  simp only [bind, Except.bind, pure, Except.pure]
  unfold ReadoutFifo.carried
  have hidle := h.idle
  have hsize := h.size
  have hbuffer := h.buffer
  have hread := h.readBuffer
  have hcount := h.readBufferCount
  split_ifs with hbusy
  · obtain ⟨buffer, hcopy, hlength, htake⟩ :=
      @memcpy_ok r.fifo.buffer r.fifo.readBuffer 0 0 r.fifo.readBufferCount (by omega) (by omega)
    rw [hcopy]
    refine ⟨_, rfl, ?_, rfl, rfl, rfl, ?_⟩
    · exact ⟨hidle.size, hlength.trans hbuffer, hread, by dsimp only; omega, hcount, by simp⟩
    · simpa [ReadoutFifo.held] using htake
  · exact ⟨_, rfl, hidle, rfl, rfl, rfl, rfl⟩

/-- `process_fifo_content` adds the batch to what was carried over. -/
theorem processFifoContent_ok (stage : ProcessStage) (b : Batch) {r : Readout} (h : r.Sound)
    (hready : r.Ready) :
    ∃ r', processFifoContent stage b r = .ok r' ∧ Processed r r' (r.fifo.carried ++ b.data) ∧
      (stage = .stop → r'.epics = .signalled) := by
  obtain ⟨r₁, htake, hsound, hidle, hsize, henabled, hheld⟩ := takeResidue_ok h hready
  obtain ⟨r₂, hupdate, hdone, hstop⟩ := updateBuffer_ok stage b hsound hidle
  rw [hheld] at hdone
  refine ⟨r₂, ?_, ?_, hstop⟩
  · unfold processFifoContent
    rw [htake]
    exact hupdate
  · refine ⟨hdone.sound, hdone.size.trans hsize, hdone.enabled.trans henabled, ?_, ?_⟩
    · rw [← hsize]
      exact hdone.held
    · rw [← hsize]
      exact hdone.epics

theorem processFifoContent_waiting (stage : ProcessStage) (b : Batch) {r : Readout} (h : r.Sound)
    (hready : ¬ r.Ready) : processFifoContent stage b r = .error .waiting := by
  unfold processFifoContent takeResidue
  rw [ensureEpicsIdle_waiting h hready]
  rfl

/-- A reset leaves an empty buffer. -/
theorem resetFifo_ok (flushed : Option Batch) {r : Readout} (h : r.Sound) (hidle : r.epics = .idle) :
    ∃ r', resetFifo flushed r = .ok r' ∧ r'.Sound ∧ r'.epics = .idle ∧
      r'.fifo.bufferSize = r.fifo.bufferSize ∧ r'.fifo.enabled = r.fifo.enabled ∧
      r'.fifo.held = [] := by
  unfold resetFifo
  cases flushed with
  | none =>
      refine ⟨_, rfl, ?_, hidle, rfl, rfl, rfl⟩
      exact ⟨h.size, h.buffer, h.readBuffer, Nat.zero_le _, h.readBufferCount, h.busy⟩
  | some b =>
      obtain ⟨readBuffer, hhw, hlength, -⟩ := hwReadPllReadoutFifo_ok b h.readBuffer
      dsimp only
      rw [hhw]
      refine ⟨_, rfl, ?_, hidle, rfl, rfl, rfl⟩
      exact ⟨h.size, h.buffer, hlength, Nat.zero_le _, h.readBufferCount, h.busy⟩

/-- `start_readout_fifo` starts from the batch alone. -/
theorem startReadoutFifo_ok (flushed : Option Batch) (b : Batch) {r : Readout} (h : r.Sound)
    (hready : r.Ready) :
    ∃ r', startReadoutFifo flushed b r = .ok r' ∧ r'.fifo.enabled = true ∧
      ∃ r₁ : Readout, r₁.Sound ∧ r₁.epics = .idle ∧ r₁.fifo.held = [] ∧
        Processed r₁ r' (r₁.fifo.carried ++ b.data) := by
  have hidle := h.idle
  have henable : Readout.Sound ⟨{ r.fifo with epicsBusy := false, enabled := true }, .idle⟩ :=
    ⟨hidle.size, hidle.buffer, hidle.readBuffer, hidle.bufferCount, hidle.readBufferCount, by simp⟩
  obtain ⟨r₁, hreset, hsound, hepics, -, henabled, hheld⟩ := resetFifo_ok flushed henable rfl
  obtain ⟨r₂, hprocess, hdone, -⟩ := processFifoContent_ok .start b hsound (.inl hepics)
  refine ⟨r₂, ?_, hdone.enabled.trans henabled, r₁, hsound, hepics, hheld, hdone⟩
  unfold startReadoutFifo
  rw [ensureEpicsIdle_ok h hready]
  simp only [bind, Except.bind]
  rw [hreset]
  exact hprocess

theorem flushReadoutFifo_ok (flushed : Batch) {r : Readout} (h : r.Sound) (hready : r.Ready) :
    ∃ r', flushReadoutFifo flushed r = .ok r' ∧ r'.Sound ∧ r'.epics = .idle ∧
      r'.fifo.enabled = r.fifo.enabled ∧ r'.fifo.held = [] := by
  obtain ⟨r₁, hreset, hsound, hepics, -, henabled, hheld⟩ := resetFifo_ok (some flushed) h.idle rfl
  refine ⟨r₁, ?_, hsound, hepics, henabled, hheld⟩
  unfold flushReadoutFifo
  rw [ensureEpicsIdle_ok h hready]
  exact hreset

/-- `stop_readout_fifo` always emits the buffer. -/
theorem stopReadoutFifo_ok (b : Batch) {r : Readout} (h : r.Sound) (hready : r.Ready) :
    ∃ r', stopReadoutFifo b r = .ok ⟨{ r'.fifo with enabled := false }, r'.epics⟩ ∧
      Processed r r' (r.fifo.carried ++ b.data) ∧ r'.epics = .signalled := by
  obtain ⟨r', hprocess, hdone, hstop⟩ := processFifoContent_ok .stop b h hready
  refine ⟨r', ?_, hdone, hstop rfl⟩
  unfold stopReadoutFifo
  rw [hprocess]
  rfl

theorem startReadoutFifo_waiting (flushed : Option Batch) (b : Batch) {r : Readout} (h : r.Sound)
    (hready : ¬ r.Ready) : startReadoutFifo flushed b r = .error .waiting := by
  unfold startReadoutFifo
  rw [ensureEpicsIdle_waiting h hready]
  rfl

theorem flushReadoutFifo_waiting (flushed : Batch) {r : Readout} (h : r.Sound)
    (hready : ¬ r.Ready) : flushReadoutFifo flushed r = .error .waiting := by
  unfold flushReadoutFifo
  rw [ensureEpicsIdle_waiting h hready]
  rfl

theorem stopReadoutFifo_waiting (b : Batch) {r : Readout} (h : r.Sound) (hready : ¬ r.Ready) :
    stopReadoutFifo b r = .error .waiting := by
  unfold stopReadoutFifo
  rw [processFifoContent_waiting _ _ h hready]
  rfl

end Mbf.TunePll
