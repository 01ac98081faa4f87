import Mbf.Sequencer.Schedule

/-! # The published scale

`compute_scale_info` computes, for each point the detector writes, the frequency and the turn at
which it was measured.  The points are listed once and for all by `SeqConfig.points`; the loops
of the software go through them (`computeScaleInfo_holds`), and so does the firmware with what
`hw_write_seq_config` has written to it (`hwWriteSeqConfig_writes`).  Together: the scale is that
of the run (`published_scale_correct`). -/

namespace Mbf.Sequencer

/-! ### The computation of the scale -/

/-- The variables of `compute_scale_info`, and its two buffers. -/
structure Scale where
  ix : BitVec 32 := 0
  totalTime : BitVec 32 := 0
  f0 : BitVec 64 := 0
  frequency : ℕ → BitVec 64
  timebase : ℕ → BitVec 32

namespace Scale

/-- `write_scale_point`. -/
def writeScalePoint (s : Scale) (i : BitVec 32) : Scale :=
  { s with
    frequency := Function.update s.frequency i.toNat s.f0
    timebase := Function.update s.timebase i.toNat s.totalTime }

/-- The body of the loop over the captures of a state. -/
def capture (startOffset endOffset : BitVec 32) (entry : SeqEntry) (s : Scale) : Scale :=
  let t := if startOffset ≤ s.ix ∧ s.ix < endOffset then s.writeScalePoint (s.ix - startOffset)
    else s
  { t with
    f0 := t.f0 + BitVec.ofNat 64 entry.deltaFreq
    totalTime := t.totalTime + BitVec.ofNat 32 (entry.dwellTime + entry.holdoff)
    ix := t.ix + 1 }

/-- The body of the loop over the states. -/
def state (startOffset endOffset : BitVec 32) (superOffset : ℕ) (entry : SeqEntry) (s : Scale) :
    Scale :=
  let t := { s with totalTime := s.totalTime + BitVec.ofNat 32 entry.stateHoldoff }
  if entry.writeEnable then
    (capture startOffset endOffset entry)^[entry.captureCount]
      { t with f0 := BitVec.ofNat 64 entry.startFreq + BitVec.ofNat 64 superOffset }
  else { t with
    totalTime := t.totalTime +
      BitVec.ofNat 32 (entry.dwellTime + entry.holdoff) * BitVec.ofNat 32 entry.captureCount }

/-- The loop over the states, from `seq_count` down to 1. -/
def states (startOffset endOffset : BitVec 32) (superOffset : ℕ) (entries : ℕ → SeqEntry) :
    ℕ → Scale → Scale
  | 0, s => s
  | k + 1, s =>
      states startOffset endOffset superOffset entries k
        (s.state startOffset endOffset superOffset (entries k))

/-- The loop over the super states. -/
def supers (startOffset endOffset : BitVec 32) (config : SeqConfig) (n : ℕ) (s : Scale) : Scale :=
  (List.range n).foldl (fun s super =>
    s.states startOffset endOffset (config.superOffsets super) config.entries config.sequencerPc) s

/-- The loop that fills in the rest of the buffers. -/
def fill (startOffset endOffset : BitVec 32) (s : Scale) : Scale :=
  (List.range (endOffset.toNat - s.ix.toNat)).foldl (fun t k =>
    t.writeScalePoint (s.ix + BitVec.ofNat 32 k - startOffset)) s

end Scale

/-- `compute_scale_info`; what it returns is `ix`. -/
def computeScaleInfo (config : SeqConfig) (frequency : ℕ → BitVec 64) (timebase : ℕ → BitVec 32)
    (startOffset length : BitVec 32) : Scale :=
  (Scale.supers startOffset (startOffset + length) config config.superSeqCount
    { frequency, timebase }).fill startOffset (startOffset + length)

/-! ### What the scale is computed from -/

/-- The part of an entry that `compute_scale_info` reads. -/
def SeqEntry.scalePart (entry : SeqEntry) : SeqEntry where
  startFreq := entry.startFreq
  deltaFreq := entry.deltaFreq
  dwellTime := entry.dwellTime
  captureCount := entry.captureCount
  writeEnable := entry.writeEnable
  holdoff := entry.holdoff
  stateHoldoff := entry.stateHoldoff

/-- The part of a configuration that `compute_scale_info` reads. -/
def SeqConfig.scalePart (config : SeqConfig) : SeqConfig where
  bank0 := 0
  sequencerPc := config.sequencerPc
  superSeqCount := config.superSeqCount
  entries i := (config.entries i).scalePart
  superOffsets := config.superOffsets

theorem Scale.states_scalePart (startOffset endOffset : BitVec 32) (superOffset : ℕ)
    (entries : ℕ → SeqEntry) (k : ℕ) : ∀ s : Scale,
    s.states startOffset endOffset superOffset (fun i => (entries i).scalePart) k =
      s.states startOffset endOffset superOffset entries k := by
  induction k with
  | zero => exact fun _ => rfl
  | succ k ih => exact fun s => ih (s.state startOffset endOffset superOffset (entries k))

theorem computeScaleInfo_scalePart (config : SeqConfig) (frequency : ℕ → BitVec 64)
    (timebase : ℕ → BitVec 32) (startOffset length : BitVec 32) :
    computeScaleInfo config.scalePart frequency timebase startOffset length =
      computeScaleInfo config frequency timebase startOffset length := by
  unfold computeScaleInfo Scale.supers SeqConfig.scalePart
  simp only [Scale.states_scalePart]

/-! ### The points of a configuration -/

/-- The turns of a dwell with its holdoff. -/
def SeqEntry.dwellTurns (entry : SeqEntry) : ℕ := entry.dwellTime + entry.holdoff

/-- The turns of a state. -/
def SeqEntry.turns (entry : SeqEntry) : ℕ :=
  entry.stateHoldoff + entry.captureCount * entry.dwellTurns

/-- The first `k` points of a state that has its first dwell in turn `turn`. -/
def SeqEntry.captures (entry : SeqEntry) (freq turn k : ℕ) : List (ℕ × ℕ) :=
  (List.range k).map fun i => (freq + i * entry.deltaFreq, turn + i * entry.dwellTurns)

/-- The points of a state that starts in turn `turn`. -/
def SeqEntry.points (entry : SeqEntry) (superOffset turn : ℕ) : List (ℕ × ℕ) :=
  if entry.writeEnable then
    entry.captures (entry.startFreq + superOffset) (turn + entry.stateHoldoff) entry.captureCount
  else []

/-- The frequency after a state, which only a state that writes changes. -/
def SeqEntry.lastFreq (entry : SeqEntry) (superOffset freq : ℕ) : ℕ :=
  if entry.writeEnable then
    entry.startFreq + superOffset + entry.captureCount * entry.deltaFreq
  else freq

namespace SeqConfig

/-- The turns of the states from `k` down to 1. -/
def sweepTurns (config : SeqConfig) : ℕ → ℕ
  | 0 => 0
  | k + 1 => (config.entries k).turns + config.sweepTurns k

/-- The points of the states from `k` down to 1. -/
def sweepPoints (config : SeqConfig) (superOffset : ℕ) : ℕ → ℕ → List (ℕ × ℕ)
  | 0, _ => []
  | k + 1, turn =>
      (config.entries k).points superOffset turn ++
        config.sweepPoints superOffset k (turn + (config.entries k).turns)

/-- The points of the first `n` super states. -/
def superPoints (config : SeqConfig) (n : ℕ) : List (ℕ × ℕ) :=
  (List.range n).flatMap fun super =>
    config.sweepPoints (config.superOffsets super) config.sequencerPc
      (super * config.sweepTurns config.sequencerPc)

/-- The frequency after the states from `k` down to 1. -/
def sweepFreq (config : SeqConfig) (superOffset : ℕ) : ℕ → ℕ → ℕ
  | 0, freq => freq
  | k + 1, freq => config.sweepFreq superOffset k ((config.entries k).lastFreq superOffset freq)

/-- The frequency after the first `n` super states. -/
def superFreq (config : SeqConfig) : ℕ → ℕ
  | 0 => 0
  | n + 1 => config.sweepFreq (config.superOffsets n) config.sequencerPc (config.superFreq n)

/-- The points of a configuration: a frequency, and the turn in which the dwell starts. -/
def points (config : SeqConfig) : List (ℕ × ℕ) := config.superPoints config.superSeqCount

end SeqConfig

/-! ### What the software computes -/

/-- What is stored of a point. -/
def frequencyValue (point : ℕ × ℕ) : BitVec 64 := BitVec.ofNat 64 point.1

def timebaseValue (point : ℕ × ℕ) : BitVec 32 := BitVec.ofNat 32 point.2

/-- A buffer with the points of the slice written to it. -/
def sliced {w : ℕ} (startOffset endOffset : ℕ) (value : ℕ × ℕ → BitVec w) (points : List (ℕ × ℕ))
    (old : ℕ → BitVec w) (i : ℕ) : BitVec w :=
  if startOffset + i < endOffset then (points[startOffset + i]?.map value).getD (old i) else old i

/-- The variables and all of the buffers after some points, at a frequency and a turn. -/
structure Scale.Sliced (startOffset endOffset : BitVec 32) (frequency : ℕ → BitVec 64)
    (timebase : ℕ → BitVec 32) (points : List (ℕ × ℕ)) (freq turn : ℕ) (s : Scale) : Prop where
  ix : s.ix = BitVec.ofNat 32 points.length
  totalTime : s.totalTime = BitVec.ofNat 32 turn
  f0 : s.f0 = BitVec.ofNat 64 freq
  frequency :
    s.frequency = sliced startOffset.toNat endOffset.toNat frequencyValue points frequency
  timebase :
    s.timebase = sliced startOffset.toNat endOffset.toNat timebaseValue points timebase

/-- A buffer that starts at index `startOffset` holds the points up to `endOffset`. -/
def InBuffer {w : ℕ} (startOffset endOffset : BitVec 32) (value : ℕ × ℕ → BitVec w)
    (points : List (ℕ × ℕ)) (buffer : ℕ → BitVec w) : Prop :=
  ∀ i point, points[i]? = some point → startOffset.toNat ≤ i → i < endOffset.toNat →
    buffer (i - startOffset.toNat) = value point

/-- The variables and the buffers after some points, at a turn. -/
structure Scale.Holds (startOffset endOffset : BitVec 32) (points : List (ℕ × ℕ)) (turn : ℕ)
    (s : Scale) : Prop where
  ix : s.ix = BitVec.ofNat 32 points.length
  totalTime : s.totalTime = BitVec.ofNat 32 turn
  frequency : InBuffer startOffset endOffset (fun q => BitVec.ofNat 64 q.1) points s.frequency
  timebase : InBuffer startOffset endOffset (fun q => BitVec.ofNat 32 q.2) points s.timebase

section loops
variable {startOffset endOffset : BitVec 32} {frequency : ℕ → BitVec 64} {timebase : ℕ → BitVec 32}
  {points : List (ℕ × ℕ)} {freq turn : ℕ} {s : Scale} {entry : SeqEntry} {config : SeqConfig}

/-- The first capture, and the others. -/
theorem SeqEntry.captures_succ (entry : SeqEntry) (freq turn k : ℕ) :
    entry.captures freq turn (k + 1) =
      (freq, turn) :: entry.captures (freq + entry.deltaFreq) (turn + entry.dwellTurns) k := by
  unfold SeqEntry.captures
  rw [List.range_succ_eq_map, List.map_cons, List.map_map]
  apply congrArg₂ List.cons
  · simp
  · apply List.map_congr_left
    intro i _
    dsimp only [Function.comp]
    rw [Nat.succ_eq_add_one]
    apply Prod.ext
    · dsimp only
      ring
    · dsimp only
      ring

theorem superPoints_succ (config : SeqConfig) (n : ℕ) :
    config.superPoints (n + 1) = config.superPoints n ++
      config.sweepPoints (config.superOffsets n) config.sequencerPc
        (n * config.sweepTurns config.sequencerPc) := by
  unfold SeqConfig.superPoints
  rw [List.range_succ, List.flatMap_append, List.flatMap_singleton]

section buffer
variable {w start stop : ℕ} {value : ℕ × ℕ → BitVec w} {old : ℕ → BitVec w}

/-- A point after the others leaves these. -/
theorem getElem?_concat_of_ne (point : ℕ × ℕ) {i : ℕ} (hi : i ≠ points.length) :
    (points ++ [point])[i]? = points[i]? := by
  obtain hlt | hbeyond := lt_or_gt_of_ne hi
  · exact List.getElem?_append_left hlt
  · have hlength : (points ++ [point]).length = points.length + 1 := List.length_append
    rw [List.getElem?_eq_none (by omega), List.getElem?_eq_none (by omega)]

theorem sliced_nil : sliced start stop value [] old = old := by
  funext i
  unfold sliced
  rw [List.getElem?_nil]
  exact ite_self _

/-- A point in the range is written in its place. -/
theorem sliced_write (point : ℕ × ℕ) (hstart : start ≤ points.length)
    (hstop : points.length < stop) : sliced start stop value (points ++ [point]) old =
      Function.update (sliced start stop value points old) (points.length - start)
        (value point) := by
  funext i
  rw [Function.update_apply]
  unfold sliced
  split_ifs with hin hplace hplace
  · have hat : start + i = points.length := by omega
    rw [hat, List.getElem?_concat_length]
    rfl
  · rw [getElem?_concat_of_ne point (by omega)]
  · omega
  · rfl

/-- A point outside is not. -/
theorem sliced_skip (point : ℕ × ℕ) (hout : points.length < start ∨ stop ≤ points.length) :
    sliced start stop value (points ++ [point]) old = sliced start stop value points old := by
  funext i
  unfold sliced
  split_ifs with hin
  · rw [getElem?_concat_of_ne point (by omega)]
  · rfl

end buffer

/-- A capture adds a point. -/
theorem Scale.Sliced.capture (entry : SeqEntry)
    (h : s.Sliced startOffset endOffset frequency timebase points freq turn)
    (hlength : points.length < 2 ^ 32) :
    (Scale.capture startOffset endOffset entry s).Sliced startOffset endOffset frequency timebase
      (points ++ [(freq, turn)]) (freq + entry.deltaFreq) (turn + entry.dwellTurns) := by
  have hix : s.ix.toNat = points.length := by
    rw [h.ix, BitVec.toNat_ofNat, Nat.mod_eq_of_lt hlength]
  have hnext : s.ix + 1 = BitVec.ofNat 32 (points ++ [(freq, turn)]).length := by
    rw [h.ix, List.length_append, BitVec.ofNat_add]
    rfl
  have htime : s.totalTime + BitVec.ofNat 32 (entry.dwellTime + entry.holdoff) =
      BitVec.ofNat 32 (turn + entry.dwellTurns) := by
    rw [h.totalTime, ← BitVec.ofNat_add]
    rfl
  have hf0 : s.f0 + BitVec.ofNat 64 entry.deltaFreq = BitVec.ofNat 64 (freq + entry.deltaFreq) := by
    rw [h.f0, ← BitVec.ofNat_add]
  unfold Scale.capture
  by_cases hin : startOffset ≤ s.ix ∧ s.ix < endOffset
  · have hstart : startOffset.toNat ≤ points.length := by
      rw [← hix]
      exact hin.1
    have hstop : points.length < endOffset.toNat := by
      rw [← hix]
      exact hin.2
    have hplace : (s.ix - startOffset).toNat = points.length - startOffset.toNat := by
      rw [BitVec.toNat_sub_of_le hin.1, hix]
    rw [if_pos hin]
    refine ⟨hnext, htime, hf0, ?_, ?_⟩
    · rw [sliced_write _ hstart hstop, ← h.frequency, ← hplace]
      change Function.update s.frequency _ s.f0 = _
      rw [h.f0]
      rfl
    · rw [sliced_write _ hstart hstop, ← h.timebase, ← hplace]
      change Function.update s.timebase _ s.totalTime = _
      rw [h.totalTime]
      rfl
  · have hout : points.length < startOffset.toNat ∨ endOffset.toNat ≤ points.length := by
      rw [BitVec.le_def, BitVec.lt_def, hix] at hin
      omega
    rw [if_neg hin]
    exact ⟨hnext, htime, hf0, h.frequency.trans (sliced_skip _ hout).symm,
      h.timebase.trans (sliced_skip _ hout).symm⟩

/-- The loop over the captures of a state. -/
theorem Scale.Sliced.captures (k : ℕ) : ∀ {s points freq turn},
    s.Sliced startOffset endOffset frequency timebase points freq turn →
    points.length + k < 2 ^ 32 →
    ((Scale.capture startOffset endOffset entry)^[k] s).Sliced startOffset endOffset frequency
      timebase (points ++ entry.captures freq turn k) (freq + k * entry.deltaFreq)
      (turn + k * entry.dwellTurns) := by
  induction k with
  | zero =>
      intro s points freq turn h _
      simpa [SeqEntry.captures] using h
  | succ k ih =>
      intro s points freq turn h hlength
      have hrest := ih (h.capture entry (by omega)) (by
        rw [List.length_append, List.length_singleton]
        omega)
      have hpoints : points ++ entry.captures freq turn (k + 1) = points ++ [(freq, turn)] ++
          entry.captures (freq + entry.deltaFreq) (turn + entry.dwellTurns) k := by
        rw [SeqEntry.captures_succ, List.append_assoc, List.singleton_append]
      have hfreq : freq + (k + 1) * entry.deltaFreq =
          freq + entry.deltaFreq + k * entry.deltaFreq := by ring
      have hturn : turn + (k + 1) * entry.dwellTurns =
          turn + entry.dwellTurns + k * entry.dwellTurns := by ring
      rw [Function.iterate_succ_apply, hpoints, hfreq, hturn]
      exact hrest

/-- The loop over the states, one state. -/
theorem Scale.Sliced.state (entry : SeqEntry) (superOffset : ℕ)
    (h : s.Sliced startOffset endOffset frequency timebase points freq turn)
    (hlength : (points ++ entry.points superOffset turn).length < 2 ^ 32) :
    (Scale.state startOffset endOffset superOffset entry s).Sliced startOffset endOffset frequency
      timebase (points ++ entry.points superOffset turn) (entry.lastFreq superOffset freq)
      (turn + entry.turns) := by
  have htime : s.totalTime + BitVec.ofNat 32 entry.stateHoldoff =
      BitVec.ofNat 32 (turn + entry.stateHoldoff) := by
    rw [h.totalTime, ← BitVec.ofNat_add]
  unfold Scale.state SeqEntry.lastFreq
  unfold SeqEntry.points at hlength ⊢
  cases hwrite : entry.writeEnable with
  | true =>
      rw [hwrite, if_pos rfl, List.length_append] at hlength
      unfold SeqEntry.captures at hlength
      rw [List.length_map, List.length_range] at hlength
      have hturns : turn + entry.turns =
          turn + entry.stateHoldoff + entry.captureCount * entry.dwellTurns := by
        unfold SeqEntry.turns
        omega
      rw [if_pos rfl, if_pos rfl, if_pos rfl, hturns]
      refine Scale.Sliced.captures entry.captureCount ?_ hlength
      exact ⟨h.ix, htime, (BitVec.ofNat_add ..).symm, h.frequency, h.timebase⟩
  | false =>
      rw [if_neg Bool.false_ne_true, if_neg Bool.false_ne_true, if_neg Bool.false_ne_true,
        List.append_nil]
      refine ⟨h.ix, ?_, h.f0, h.frequency, h.timebase⟩
      dsimp only
      rw [htime, ← BitVec.ofNat_mul, ← BitVec.ofNat_add]
      unfold SeqEntry.turns SeqEntry.dwellTurns
      congr 1
      ring

/-- The loop over the states. -/
theorem Scale.Sliced.states (superOffset k : ℕ) : ∀ {s points freq turn},
    s.Sliced startOffset endOffset frequency timebase points freq turn →
    (points ++ config.sweepPoints superOffset k turn).length < 2 ^ 32 →
    (Scale.states startOffset endOffset superOffset config.entries k s).Sliced startOffset endOffset
      frequency timebase (points ++ config.sweepPoints superOffset k turn)
      (config.sweepFreq superOffset k freq) (turn + config.sweepTurns k) := by
  induction k with
  | zero =>
      intro s points freq turn h _
      simpa [SeqConfig.sweepPoints, SeqConfig.sweepTurns, SeqConfig.sweepFreq, Scale.states] using h
  | succ k ih =>
      intro s points freq turn h hlength
      unfold SeqConfig.sweepPoints at hlength ⊢
      rw [← List.append_assoc] at hlength ⊢
      have hstate := h.state (config.entries k) superOffset (by
        rw [List.length_append] at hlength
        omega)
      have hrest := ih hstate hlength
      unfold Scale.states SeqConfig.sweepTurns SeqConfig.sweepFreq
      rwa [← Nat.add_assoc]

/-- The loop over the super states. -/
theorem Scale.Sliced.supers (n : ℕ)
    (h : s.Sliced startOffset endOffset frequency timebase [] 0 0)
    (hlength : (config.superPoints n).length < 2 ^ 32) :
    (Scale.supers startOffset endOffset config n s).Sliced startOffset endOffset frequency timebase
      (config.superPoints n) (config.superFreq n) (n * config.sweepTurns config.sequencerPc) := by
  induction n with
  | zero =>
      rw [Nat.zero_mul]
      exact h
  | succ n ih =>
      rw [superPoints_succ] at hlength ⊢
      have hbefore := ih (by
        rw [List.length_append] at hlength
        omega)
      have hsuper := hbefore.states (config.superOffsets n) config.sequencerPc hlength
      unfold Scale.supers at hsuper ⊢
      rw [List.range_succ, List.foldl_append, List.foldl_cons, List.foldl_nil, Nat.succ_mul]
      exact hsuper

end loops

section software
variable {startOffset endOffset : BitVec 32} {points : List (ℕ × ℕ)} {turn freq : ℕ} {s : Scale}
  {entry : SeqEntry} {config : SeqConfig}

theorem Scale.Holds.toNat_ix (h : s.Holds startOffset endOffset points turn)
    (hlength : points.length < 2 ^ 32) : s.ix.toNat = points.length := by
  rw [h.ix, BitVec.toNat_ofNat, Nat.mod_eq_of_lt hlength]

section buffer
variable {w : ℕ} {buffer : ℕ → BitVec w} {value : ℕ × ℕ → BitVec w}

/-- A buffer to which the points of the slice were written holds them. -/
theorem InBuffer.of_sliced {old : ℕ → BitVec w}
    (h : buffer = sliced startOffset.toNat endOffset.toNat value points old) :
    InBuffer startOffset endOffset value points buffer := by
  intro i point hi hle hlt
  have hat : startOffset.toNat + (i - startOffset.toNat) = i := Nat.add_sub_cancel' hle
  rw [h]
  unfold sliced
  rw [hat, if_pos hlt, hi]
  rfl

/-- Writing beyond the points leaves them. -/
theorem InBuffer.write_beyond (h : InBuffer startOffset endOffset value points buffer) {k : ℕ}
    (x : BitVec w)
    (hk : startOffset.toNat ≤ points.length → points.length - startOffset.toNat ≤ k) :
    InBuffer startOffset endOffset value points (Function.update buffer k x) := by
  intro i q hi hle hlt
  have hi' : i < points.length := (List.getElem?_eq_some_iff.mp hi).1
  have hbeyond := hk (by omega)
  rw [Function.update_of_ne (by omega)]
  exact h i q hi hle hlt

end buffer

/-- After the loops the buffers hold the points. -/
theorem Scale.Sliced.holds {frequency : ℕ → BitVec 64} {timebase : ℕ → BitVec 32}
    (h : s.Sliced startOffset endOffset frequency timebase points freq turn) :
    s.Holds startOffset endOffset points turn :=
  ⟨h.ix, h.totalTime, .of_sliced h.frequency, .of_sliced h.timebase⟩

/-- Filling in the rest leaves the points. -/
theorem Scale.Holds.fill (h : s.Holds startOffset endOffset points turn)
    (hlength : points.length < 2 ^ 32) :
    (Scale.fill startOffset endOffset s).Holds startOffset endOffset points turn := by
  have hix := h.toNat_ix hlength
  have hfill : ∀ n ≤ endOffset.toNat - s.ix.toNat,
      ((List.range n).foldl (fun t k =>
        t.writeScalePoint (s.ix + BitVec.ofNat 32 k - startOffset)) s).Holds startOffset endOffset
          points turn := by
    intro n hn
    induction n with
    | zero => exact h
    | succ n ih =>
        have hbefore := ih (by omega)
        have hlt := endOffset.isLt
        have hat : (s.ix + BitVec.ofNat 32 n).toNat = points.length + n := by
          rw [BitVec.toNat_add, BitVec.toNat_ofNat, hix, Nat.mod_eq_of_lt (a := n) (by omega),
            Nat.mod_eq_of_lt (by omega)]
        have hplace : startOffset.toNat ≤ points.length → points.length - startOffset.toNat ≤
            (s.ix + BitVec.ofNat 32 n - startOffset).toNat := by
          intro hstart
          rw [BitVec.toNat_sub_of_le, hat]
          · omega
          · rw [BitVec.le_def, hat]
            omega
        rw [List.range_succ, List.foldl_append, List.foldl_cons, List.foldl_nil]
        exact ⟨hbefore.ix, hbefore.totalTime, hbefore.frequency.write_beyond _ hplace,
          hbefore.timebase.write_beyond _ hplace⟩
  exact hfill _ le_rfl

/-- The software computes the points. -/
theorem computeScaleInfo_holds (frequency : ℕ → BitVec 64) (timebase : ℕ → BitVec 32)
    (startOffset length : BitVec 32) (hlength : config.points.length < 2 ^ 32) :
    (computeScaleInfo config frequency timebase startOffset length).Holds startOffset
      (startOffset + length) config.points
      (config.superSeqCount * config.sweepTurns config.sequencerPc) := by
  have hstart : Scale.Sliced startOffset (startOffset + length) frequency timebase [] 0 0
      { frequency, timebase } := ⟨rfl, rfl, rfl, sliced_nil.symm, sliced_nil.symm⟩
  exact (hstart.supers _ hlength).holds.fill hlength

end software

/-! ### What the firmware runs -/

/-- A word of the program memory, by state and place. -/
theorem hwWriteSeqConfig_memory (config : SeqConfig) (old : BitVec 11 → Angle) (seqPc k : BitVec 3) :
    (hwWriteSeqConfig config old).memory (seqPc ++ k) =
      writeSequencerState (seqPc = 0) (config.entry seqPc.toNat) k.toFin := by
  have hpc : (seqPc ++ k).extractLsb' 3 3 = seqPc := BitVec.extractLsb'_append_eq_left
  have hk : (seqPc ++ k).extractLsb' 0 3 = k := BitVec.extractLsb'_append_eq_right
  unfold hwWriteSeqConfig
  dsimp only
  rw [hpc, hk]

theorem writeSequencerState_flags (state0 : Bool) (entry : SeqEntry) :
    (writeSequencerState state0 entry 4).getLsbD 21 = entry.writeEnable ∧
      (writeSequencerState state0 entry 4).getLsbD 25 = state0 := by
  unfold writeSequencerState
  simp only [BitVec.getLsbD_append]
  simp

/-- The counts, the frequencies and the flags of a loaded state are those of the entry. -/
structure SeqState.Of (state0 : Bool) (entry : SeqEntry) (s : SeqState) : Prop where
  startFreq : s.startFreq = BitVec.ofNat 48 entry.startFreq
  deltaFreq : s.deltaFreq = BitVec.ofNat 48 entry.deltaFreq
  dwellCount : s.dwellCount = BitVec.ofNat 16 (entry.dwellTime - 1)
  captureCount : s.captureCount = BitVec.ofNat 16 (entry.captureCount - 1)
  enableWrite : s.enableWrite = entry.writeEnable
  disableSuper : s.disableSuper = state0
  holdoffCount : s.holdoffCount = BitVec.ofNat 16 entry.holdoff
  stateHoldoff : s.stateHoldoff = BitVec.ofNat 16 entry.stateHoldoff

/-- The firmware loads what the software has written. -/
theorem hwWriteSeqConfig_state (config : SeqConfig) (old : BitVec 11 → Angle) (seqPc : BitVec 3) :
    ((hwWriteSeqConfig config old).state seqPc).Of (seqPc = 0) (config.entry seqPc.toNat) := by
  have hlow : ∀ (a b : BitVec 16), (a ++ b).extractLsb' 0 16 = b :=
    fun a b => BitVec.extractLsb'_append_eq_right
  have hhigh : ∀ (a b : BitVec 16), (a ++ b).extractLsb' 16 16 = a :=
    fun a b => BitVec.extractLsb'_append_eq_left
  have hlow' : ∀ (a : BitVec 16) (b : BitVec 32), (a ++ b).extractLsb' 0 32 = b :=
    fun a b => BitVec.extractLsb'_append_eq_right
  unfold Program.state
  simp only [loadWords, hwWriteSeqConfig_memory]
  constructor
  · simp [SeqState.loadWord, writeSequencerState, hlow, hhigh, hlow', ofNat_parts]
  · simp [SeqState.loadWord, writeSequencerState, hlow, hhigh, hlow', ofNat_parts]
  · simp [SeqState.loadWord, writeSequencerState, hlow, hhigh]
  · simp [SeqState.loadWord, writeSequencerState, hlow, hhigh]
  · exact (writeSequencerState_flags _ _).1
  · exact (writeSequencerState_flags _ _).2
  · simp [SeqState.loadWord, writeSequencerState, hlow, hhigh]
  · simp [SeqState.loadWord, writeSequencerState, hlow, hhigh]

/-- State 0 takes single turns. -/
theorem hwWriteSeqConfig_idles (config : SeqConfig) (old : BitVec 11 → Angle) :
    (hwWriteSeqConfig config old).Idles := by
  have hstate := hwWriteSeqConfig_state config old 0#3
  exact ⟨hstate.dwellCount, hstate.captureCount, hstate.holdoffCount, hstate.stateHoldoff,
    hstate.enableWrite⟩

section firmware
variable {config : SeqConfig} {old : BitVec 11 → Angle} {k : ℕ}

/-- A point as the detector writes it. -/
def asWrite (point : ℕ × ℕ) : Angle × ℕ := (BitVec.ofNat 48 point.1, point.2)

/-- The state that the firmware runs for an entry. -/
theorem hwWriteSeqConfig_entry (config : SeqConfig) (old : BitVec 11 → Angle)
    (hk : k < maxSequencerCount) :
    ((hwWriteSeqConfig config old).state (BitVec.ofNat 3 (k + 1))).Of false (config.entries k) := by
  unfold maxSequencerCount at hk
  have htoNat : (BitVec.ofNat 3 (k + 1)).toNat = k + 1 := by
    rw [BitVec.toNat_ofNat, Nat.mod_eq_of_lt (by omega)]
  have hne : BitVec.ofNat 3 (k + 1) ≠ 0 := ofNat_ne (by omega) (Nat.succ_ne_zero k)
  have hentry : config.entry (k + 1) = config.entries k := by
    unfold SeqConfig.entry
    rw [if_neg (Nat.succ_ne_zero k), Nat.add_sub_cancel]
  have hstate := hwWriteSeqConfig_state config old (BitVec.ofNat 3 (k + 1))
  rwa [htoNat, hentry, decide_eq_false hne] at hstate

/-- A count that is written less one, and counted down to zero. -/
theorem count_toNat {x : BitVec 16} {n : ℕ} (hx : x = BitVec.ofNat 16 (n - 1))
    (hn : 1 ≤ n ∧ n ≤ 2 ^ 16) : x.toNat + 1 = n := by
  rw [hx, BitVec.toNat_ofNat, Nat.mod_eq_of_lt (by omega)]
  omega

theorem holdoff_toNat {x : BitVec 16} {n : ℕ} (hx : x = BitVec.ofNat 16 n) (hn : n < 2 ^ 16) :
    x.toNat = n := by
  rw [hx, BitVec.toNat_ofNat, Nat.mod_eq_of_lt hn]

variable (hconfig : config.Admitted)
include hconfig

/-- The counts of a state are those of its entry. -/
theorem hwWriteSeqConfig_counts (old : BitVec 11 → Angle) (hk : k < maxSequencerCount) :
    (hwWriteSeqConfig config old).captures (BitVec.ofNat 3 (k + 1)) =
        (config.entries k).captureCount ∧
      (hwWriteSeqConfig config old).dwellTurns (BitVec.ofNat 3 (k + 1)) =
        (config.entries k).dwellTurns ∧
      (hwWriteSeqConfig config old).stateTurns (BitVec.ofNat 3 (k + 1)) =
        (config.entries k).turns := by
  have hstate := hwWriteSeqConfig_entry config old hk
  have hentry := hconfig.entries k hk
  have hcaptures := count_toNat hstate.captureCount hentry.captureCount
  have hdwell := count_toNat hstate.dwellCount hentry.dwellTime
  have hholdoff := holdoff_toNat hstate.holdoffCount hentry.holdoff
  have hstateHoldoff := holdoff_toNat hstate.stateHoldoff hentry.stateHoldoff
  unfold Program.stateTurns Program.captures Program.dwellTurns SeqEntry.turns SeqEntry.dwellTurns
  rw [hcaptures, hdwell, hholdoff, hstateHoldoff]
  exact ⟨rfl, Nat.add_comm _ _, by rw [Nat.add_comm (config.entries k).holdoff]⟩

/-- A state writes the points of its entry. -/
theorem hwWriteSeqConfig_stateWrites (hk : k < maxSequencerCount) {superCount : BitVec 11}
    {superOffset : ℕ}
    (hsuper : (hwWriteSeqConfig config old).superMemory superCount = BitVec.ofNat 48 superOffset)
    (turn : ℕ) :
    (hwWriteSeqConfig config old).stateWrites superCount (BitVec.ofNat 3 (k + 1)) turn =
      ((config.entries k).points superOffset turn).map asWrite := by
  have hstate := hwWriteSeqConfig_entry config old hk
  obtain ⟨hcaptures, hdwell, -⟩ := hwWriteSeqConfig_counts hconfig old hk
  have hholdoff := holdoff_toNat hstate.stateHoldoff (hconfig.entries k hk).stateHoldoff
  unfold Program.stateWrites SeqEntry.points SeqEntry.captures Program.startFreq
  rw [hstate.enableWrite, hcaptures, hdwell, hholdoff, hstate.disableSuper, hstate.startFreq,
    hstate.deltaFreq, hsuper]
  cases (config.entries k).writeEnable with
  | false => rfl
  | true =>
      rw [if_pos rfl, if_pos rfl, List.map_map]
      apply List.map_congr_left
      intro i _
      unfold asWrite
      dsimp only [Function.comp]
      rw [if_neg Bool.false_ne_true, BitVec.ofNat_add, BitVec.ofNat_add, BitVec.ofNat_mul]

/-- The states write their points, and take their turns. -/
theorem hwWriteSeqConfig_sweepWrites {superCount : BitVec 11} {superOffset : ℕ}
    (hsuper : (hwWriteSeqConfig config old).superMemory superCount = BitVec.ofNat 48 superOffset)
    (hk : k ≤ maxSequencerCount) : ∀ turn,
    (hwWriteSeqConfig config old).sweepWrites superCount k turn =
      (config.sweepPoints superOffset k turn).map asWrite := by
  induction k with
  | zero => exact fun turn => rfl
  | succ k ih =>
      intro turn
      unfold Program.sweepWrites SeqConfig.sweepPoints
      rw [List.map_append, hwWriteSeqConfig_stateWrites hconfig hk hsuper,
        (hwWriteSeqConfig_counts hconfig old hk).2.2, ih (by omega)]

theorem hwWriteSeqConfig_sweepTurns (hk : k ≤ maxSequencerCount) :
    (hwWriteSeqConfig config old).sweepTurns k = config.sweepTurns k := by
  induction k with
  | zero => rfl
  | succ k ih =>
      unfold Program.sweepTurns SeqConfig.sweepTurns
      rw [(hwWriteSeqConfig_counts hconfig old hk).2.2, ih (by omega)]

end firmware

/-- The super states in order. -/
theorem superWrites_flatMap (p : Program) (n : ℕ) : ∀ turn,
    p.superWrites n turn = (List.range n).flatMap fun super =>
      p.sweepWrites (BitVec.ofNat 11 (n - 1 - super)) p.seqPc.toNat
        (turn + super * p.sweepTurns p.seqPc.toNat) := by
  induction n with
  | zero => exact fun turn => rfl
  | succ n ih =>
      intro turn
      unfold Program.superWrites
      rw [List.range_succ_eq_map, List.flatMap_cons, List.flatMap_map, ih]
      have hfirst : turn + 0 * p.sweepTurns p.seqPc.toNat = turn := by omega
      rw [hfirst]
      apply congrArg
      apply List.flatMap_congr
      intro super _
      have hplace : n + 1 - 1 - super.succ = n - 1 - super := by omega
      have hturn : turn + super.succ * p.sweepTurns p.seqPc.toNat =
          turn + p.sweepTurns p.seqPc.toNat + super * p.sweepTurns p.seqPc.toNat := by
        rw [Nat.succ_mul]
        omega
      rw [hplace, hturn]

section firmware
variable {config : SeqConfig} (hconfig : config.Admitted) (old : BitVec 11 → Angle)
include hconfig

/-- The firmware goes through the points. -/
theorem hwWriteSeqConfig_writes :
    (hwWriteSeqConfig config old).writes = config.points.map asWrite := by
  have hpc : (hwWriteSeqConfig config old).seqPc.toNat = config.sequencerPc := by
    have hle := hconfig.sequencerPc.2
    unfold maxSequencerCount at hle
    change (BitVec.ofNat 3 config.sequencerPc).toNat = _
    rw [BitVec.toNat_ofNat, Nat.mod_eq_of_lt (by omega)]
  have hcount : (hwWriteSeqConfig config old).superCount.toNat + 1 = config.superSeqCount := by
    obtain ⟨hlo, hhi⟩ := hconfig.superSeqCount
    unfold superSeqStates at hhi
    change (BitVec.ofNat 11 (config.superSeqCount - 1)).toNat + 1 = _
    rw [BitVec.toNat_ofNat, Nat.mod_eq_of_lt (by omega)]
    omega
  unfold Program.writes SeqConfig.points SeqConfig.superPoints
  rw [superWrites_flatMap, hcount, hpc, List.map_flatMap]
  apply List.flatMap_congr
  intro super hsuper
  rw [List.mem_range] at hsuper
  have hhi := hconfig.superSeqCount.2
  unfold superSeqStates at hhi
  have hoffset : (hwWriteSeqConfig config old).superMemory
      (BitVec.ofNat 11 (config.superSeqCount - 1 - super)) =
        BitVec.ofNat 48 (config.superOffsets super) := by
    unfold hwWriteSeqConfig
    dsimp only
    rw [BitVec.toNat_ofNat, Nat.mod_eq_of_lt (by omega), if_pos (by omega)]
    congr 2
    omega
  rw [hwWriteSeqConfig_sweepWrites hconfig hoffset hconfig.sequencerPc.2,
    hwWriteSeqConfig_sweepTurns hconfig hconfig.sequencerPc.2, Nat.zero_add]

end firmware

/-! ### The number of points -/

section number
variable {config : SeqConfig} (hconfig : config.Admitted)
include hconfig

theorem sweepPoints_length (superOffset : ℕ) {k : ℕ} (hk : k ≤ maxSequencerCount) : ∀ turn,
    (config.sweepPoints superOffset k turn).length ≤ k * 2 ^ 16 := by
  induction k with
  | zero => exact fun turn => le_rfl
  | succ k ih =>
      intro turn
      have hcapture := (hconfig.entries k hk).captureCount.2
      have hrest := ih (by omega) (turn + (config.entries k).turns)
      unfold SeqConfig.sweepPoints SeqEntry.points SeqEntry.captures
      rw [List.length_append]
      split_ifs
      · rw [List.length_map, List.length_range]
        omega
      · rw [List.length_nil]
        omega

theorem superPoints_length (n : ℕ) :
    (config.superPoints n).length ≤ n * (maxSequencerCount * 2 ^ 16) := by
  induction n with
  | zero => exact Nat.zero_le _
  | succ n ih =>
      have hsweep := sweepPoints_length hconfig (config.superOffsets n) hconfig.sequencerPc.2
        (n * config.sweepTurns config.sequencerPc)
      have hstates : config.sequencerPc * 2 ^ 16 ≤ maxSequencerCount * 2 ^ 16 :=
        Nat.mul_le_mul_right _ hconfig.sequencerPc.2
      rw [superPoints_succ, List.length_append, Nat.succ_mul]
      omega

/-- The index of the points does not overflow. -/
theorem points_length : config.points.length < 2 ^ 32 := by
  have hlength := superPoints_length hconfig config.superSeqCount
  have hcount := hconfig.superSeqCount.2
  unfold superSeqStates at hcount
  unfold maxSequencerCount at hlength
  unfold SeqConfig.points
  omega

end number

/-! ### The scale of a run -/

section scale
variable {config : SeqConfig} {old : BitVec 11 → Angle} {input : ℕ → Input} {times : ℕ → ℕ}
  {s : SequencerTop} {T : Turn} {superCount : BitVec 11} {n : ℕ}

/-- What the detector is told to write from the trigger to the end of the sequence. -/
theorem run_writes (hconfig : config.Admitted) (hclock : TurnClocks input times)
    (hsettled : Settled (hwWriteSeqConfig config old) T s) (hidle : T.Idle superCount)
    (hbefore : ∀ i < n, triggerSeen (hwWriteSeqConfig config old) input times s i = false)
    (htrigger : triggerSeen (hwWriteSeqConfig config old) input times s n = true)
    (hquiet : Undisturbed input (times (n + 1 + (hwWriteSeqConfig config old).turns + 1))) :
    (run (hwWriteSeqConfig config old) input s
      (times (n + 1 + (hwWriteSeqConfig config old).turns + 1))).2.writes =
        config.points.map asWrite := by
  have hrun := (run_settled hclock hsettled _ hquiet).2
  have hne : (hwWriteSeqConfig config old).seqPc ≠ 0#3 := by
    obtain ⟨hlo, hhi⟩ := hconfig.sequencerPc
    unfold maxSequencerCount at hhi
    apply ofNat_ne (by omega)
    exact Nat.ne_of_gt hlo
  have hprogram := program_run (turnRun_isRun _ _ T) (hwWriteSeqConfig_idles config old) hne rfl
    hidle hbefore htrigger
  rw [hrun, hprogram]
  exact hwWriteSeqConfig_writes hconfig old

/-- The scale has a point for each dwell that is written from the trigger to the end of the
sequence, with its frequency and with the turn in which it began. -/
theorem published_scale_correct (hconfig : config.Admitted) (hclock : TurnClocks input times)
    (hsettled : Settled (hwWriteSeqConfig config old) T s) (hidle : T.Idle superCount)
    (hbefore : ∀ i < n, triggerSeen (hwWriteSeqConfig config old) input times s i = false)
    (htrigger : triggerSeen (hwWriteSeqConfig config old) input times s n = true)
    (hquiet : Undisturbed input (times (n + 1 + (hwWriteSeqConfig config old).turns + 1)))
    (frequency : ℕ → BitVec 64) (timebase : ℕ → BitVec 32) (length : BitVec 32) :
    let writes := (run (hwWriteSeqConfig config old) input s
      (times (n + 1 + (hwWriteSeqConfig config old).turns + 1))).2.writes
    let scale := computeScaleInfo config frequency timebase 0 length
    scale.ix.toNat = writes.length ∧
      ∀ i (h : i < writes.length), i < length.toNat →
        (scale.frequency i).setWidth 48 = writes[i].1 ∧
          scale.timebase i = BitVec.ofNat 32 writes[i].2 := by
  intro writes scale
  have hwrites : writes = config.points.map asWrite :=
    run_writes hconfig hclock hsettled hidle hbefore htrigger hquiet
  have hholds := computeScaleInfo_holds frequency timebase 0 length (points_length hconfig)
  have hend : 0 + length = length := BitVec.zero_add length
  rw [hend] at hholds
  have hlength : writes.length = config.points.length := by rw [hwrites, List.length_map]
  refine ⟨?_, ?_⟩
  · rw [hlength]
    exact hholds.toNat_ix (points_length hconfig)
  · intro i h hi
    have hpoint : config.points[i]? = some config.points[i] := List.getElem?_eq_getElem _
    have hwrite : writes[i] = asWrite config.points[i] := by
      simp only [hwrites, List.getElem_map]
    have hfrequency : scale.frequency i = BitVec.ofNat 64 config.points[i].1 :=
      hholds.frequency i _ hpoint (Nat.zero_le i) hi
    have htimebase : scale.timebase i = BitVec.ofNat 32 config.points[i].2 :=
      hholds.timebase i _ hpoint (Nat.zero_le i) hi
    rw [hwrite, hfrequency, htimebase]
    exact ⟨BitVec.setWidth_ofNat_of_le (by decide) _, rfl⟩

/-- A turn in which the sequencer is idle. -/
def idleTurn : Turn where
  seqPc := 0
  superCount := 0
  inHoldoff := false
  inStateHoldoff := false
  holdoffCtr := 0
  dwellCtr := 0
  captureCntr := 0
  ncoFreq := 0
  writeEnable := false

/-- The registers at the end of that turn. -/
def idleTop (p : Program) : SequencerTop where
  pc := { loading := true }
  load := { seqState := p.state 0 }
  super := { readData := p.superMemory 0, ncoFreqBase := p.superMemory 0 }
  dwell := { lastTurn := true }
  counter :=
    { captureCntrZero := true
      nextCaptureCntr := (p.state 0).captureCount
      nextNcoFreq := idleTurn.nextNcoFreq p
      stateEnd := true }

theorem idleTop_settled (p : Program) : Settled p idleTurn (idleTop p) := by
  constructor
  case load => exact ⟨fun _ => rfl, rfl, rfl, fun _ => rfl, rfl⟩
  case resets => exact ⟨rfl, rfl⟩
  case windowDly => exact fun _ => rfl
  all_goals rfl

theorem idleTurn_idle : idleTurn.Idle 0 := ⟨⟨rfl, rfl, rfl, rfl⟩, rfl⟩

/-- Two states, twice; each is measured three times. -/
def sweepConfig : SeqConfig where
  bank0 := 0
  sequencerPc := 2
  superSeqCount := 2
  entries i := {
    startFreq := 1000 * i
    deltaFreq := 10
    dwellTime := 2
    captureCount := 3
    writeEnable := true
    holdoff := 1
    stateHoldoff := 4 }
  superOffsets super := 100000 * super

theorem sweepConfig_admitted : sweepConfig.Admitted := by
  refine ⟨by decide, by decide, fun i _ => ⟨?_, ?_, ?_, ?_⟩⟩ <;> simp [sweepConfig]

/-- The fastest turns, with a trigger in the first. -/
def sweepInput (t : ℕ) : Input where
  turnClock := t % settlingTime == 0
  trigger := t == 3
  reset := false
  blanking := false

theorem sweepInput_turnClocks : TurnClocks sweepInput (settlingTime * ·) := by
  refine ⟨rfl, fun n => le_rfl, fun t => ?_⟩
  unfold sweepInput
  rw [beq_iff_eq, ← Nat.dvd_iff_mod_eq_zero]
  rfl

theorem published_scale_correct_sweep :
    let p := hwWriteSeqConfig sweepConfig fun _ => 0
    let writes := (run p sweepInput (idleTop p) (settlingTime * (0 + 1 + p.turns + 1))).2.writes
    let scale := computeScaleInfo sweepConfig (fun _ => 0) (fun _ => 0) 0 12
    scale.ix.toNat = writes.length ∧
      ∀ i (h : i < writes.length), i < 12 →
        (scale.frequency i).setWidth 48 = writes[i].1 ∧
          scale.timebase i = BitVec.ofNat 32 writes[i].2 := by
  have htrigger : triggerSeen (hwWriteSeqConfig sweepConfig fun _ => 0) sweepInput
      (settlingTime * ·) (idleTop (hwWriteSeqConfig sweepConfig fun _ => 0)) 0 = true := rfl
  exact published_scale_correct sweepConfig_admitted sweepInput_turnClocks (idleTop_settled _)
    idleTurn_idle (fun i hi => absurd hi i.not_lt_zero) htrigger (fun t _ => ⟨rfl, rfl⟩) _ _ _

end scale

end Mbf.Sequencer
