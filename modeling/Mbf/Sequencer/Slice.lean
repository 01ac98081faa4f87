import Mbf.Sequencer.Scale

/-! # Slices of the scale

`compute_scale_info` from an offset on: the sequence it computes is that of the points followed by
a constant tail (`SeqConfig.scaleAt`).  The loops write the points of the slice and nothing else
(`Scale.Sliced`), but the loop that fills in the rest starts at the number of points, also where
that is before the offset: its index is then negative as an `unsigned int`.  So a call writes its
slice, and only that, exactly if it starts among the points or right after them and does not run
past `2 ^ 32` (`sliceLaw_iff`), and consecutive reads are one long read exactly if each of them
does (`scale_slices_iff`). -/

namespace Mbf.Sequencer

/-! ### The sequence -/

namespace SeqConfig

/-- The frequency and the turn after all points. -/
def tail (config : SeqConfig) : ℕ × ℕ :=
  (config.superFreq config.superSeqCount,
    config.superSeqCount * config.sweepTurns config.sequencerPc)

/-- The points, and then the tail. -/
def scaleAt (config : SeqConfig) (i : ℕ) : ℕ × ℕ := config.points[i]?.getD config.tail

end SeqConfig

/-- A buffer holds the `length` values from `startOffset` on, and is otherwise as it was. -/
def HoldsSlice {w : ℕ} (value : ℕ × ℕ → BitVec w) (config : SeqConfig) (startOffset length : ℕ)
    (old buffer : ℕ → BitVec w) : Prop :=
  (∀ i < length, buffer i = value (config.scaleAt (startOffset + i))) ∧
    ∀ i, length ≤ i → buffer i = old i

/-- A call writes its slice into both buffers, whatever is in them, and nothing else. -/
def SliceLaw (config : SeqConfig) (startOffset length : BitVec 32) : Prop :=
  ∀ frequency timebase,
    HoldsSlice frequencyValue config startOffset.toNat length.toNat frequency
        (computeScaleInfo config frequency timebase startOffset length).frequency ∧
      HoldsSlice timebaseValue config startOffset.toNat length.toNat timebase
        (computeScaleInfo config frequency timebase startOffset length).timebase

/-! ### Reading in chunks -/

/-- The values of one call, read from its buffers. -/
def readChunk (config : SeqConfig) (frequency : ℕ → BitVec 64) (timebase : ℕ → BitVec 32)
    (startOffset length : BitVec 32) : List (BitVec 64 × BitVec 32) :=
  let s := computeScaleInfo config frequency timebase startOffset length
  (List.range length.toNat).map fun i => (s.frequency i, s.timebase i)

/-- The values of consecutive calls; the offset is an `unsigned int`. -/
def readChunks (config : SeqConfig) (frequency : ℕ → BitVec 64) (timebase : ℕ → BitVec 32) :
    BitVec 32 → List (BitVec 32) → List (BitVec 64 × BitVec 32)
  | _, [] => []
  | startOffset, length :: sizes =>
      readChunk config frequency timebase startOffset length ++
        readChunks config frequency timebase (startOffset + length) sizes

/-- Each of the calls obeys the law of the slice. -/
def ChunksLaw (config : SeqConfig) : BitVec 32 → List (BitVec 32) → Prop
  | _, [] => True
  | startOffset, length :: sizes =>
      SliceLaw config startOffset length ∧ ChunksLaw config (startOffset + length) sizes

/-- The sum of some sizes, as an `unsigned int`. -/
def totalSize (sizes : List (BitVec 32)) : BitVec 32 := BitVec.ofNat 32 (sizes.map BitVec.toNat).sum

/-- The calls obey the law, and read what one call reads. -/
def StreamLaw (config : SeqConfig) (sizes : List (BitVec 32)) : Prop :=
  ChunksLaw config 0 sizes ∧ ∀ frequency timebase,
    readChunks config frequency timebase 0 sizes =
      readChunk config frequency timebase 0 (totalSize sizes)

/-! ### Filling in the rest -/

/-- The indices that filling in the rest writes: they are negative before the offset. -/
def Filled (startOffset endOffset : BitVec 32) (count i : ℕ) : Prop :=
  ∃ k, count + k < endOffset.toNat ∧ i = (BitVec.ofNat 32 (count + k) - startOffset).toNat

section fill
variable {startOffset endOffset : BitVec 32} {frequency : ℕ → BitVec 64} {timebase : ℕ → BitVec 32}
  {points : List (ℕ × ℕ)} {freq turn : ℕ} {s : Scale}

/-- Filling in the rest writes the tail. -/
theorem Scale.Sliced.fill (h : s.Sliced startOffset endOffset frequency timebase points freq turn)
    (hlength : points.length < 2 ^ 32) (i : ℕ) :
    (Filled startOffset endOffset points.length i →
      (s.fill startOffset endOffset).frequency i = BitVec.ofNat 64 freq ∧
      (s.fill startOffset endOffset).timebase i = BitVec.ofNat 32 turn) ∧
    (¬ Filled startOffset endOffset points.length i →
      (s.fill startOffset endOffset).frequency i = s.frequency i ∧
      (s.fill startOffset endOffset).timebase i = s.timebase i) := by
  have hix : s.ix.toNat = points.length := by
    rw [h.ix, BitVec.toNat_ofNat, Nat.mod_eq_of_lt hlength]
  have hplace : ∀ k, s.ix + BitVec.ofNat 32 k = BitVec.ofNat 32 (points.length + k) := by
    intro k
    rw [h.ix, BitVec.ofNat_add]
  have hfill : ∀ n, ∀ t : Scale, t = (List.range n).foldl (fun t k =>
        t.writeScalePoint (s.ix + BitVec.ofNat 32 k - startOffset)) s →
      (t.f0 = s.f0 ∧ t.totalTime = s.totalTime) ∧
      ((∃ k < n, i = (BitVec.ofNat 32 (points.length + k) - startOffset).toNat) →
        t.frequency i = s.f0 ∧ t.timebase i = s.totalTime) ∧
      ((¬ ∃ k < n, i = (BitVec.ofNat 32 (points.length + k) - startOffset).toNat) →
        t.frequency i = s.frequency i ∧ t.timebase i = s.timebase i) := by
    intro n
    induction n with
    | zero =>
        rintro t rfl
        refine ⟨⟨rfl, rfl⟩, ?_, fun _ => ⟨rfl, rfl⟩⟩
        rintro ⟨k, hk, -⟩
        cases hk
    | succ n ih =>
        rintro t rfl
        rw [List.range_succ, List.foldl_append, List.foldl_cons, List.foldl_nil]
        obtain ⟨⟨hf0, htotal⟩, hin, hout⟩ := ih _ rfl
        refine ⟨⟨hf0, htotal⟩, ?_, fun hnot => ?_⟩
        · rintro ⟨k, hk, hi⟩
          unfold Scale.writeScalePoint
          simp only [Function.update_apply, hplace n]
          split_ifs with hlast
          · exact ⟨hf0, htotal⟩
          · refine hin ⟨k, lt_of_le_of_ne (Nat.le_of_lt_succ hk) ?_, hi⟩
            rintro rfl
            exact hlast hi
        · have hlast : i ≠ (BitVec.ofNat 32 (points.length + n) - startOffset).toNat :=
            fun hi => hnot ⟨n, Nat.lt_succ_self n, hi⟩
          unfold Scale.writeScalePoint
          simp only [Function.update_apply, hplace n]
          rw [if_neg hlast, if_neg hlast]
          exact hout fun ⟨k, hk, hi⟩ => hnot ⟨k, Nat.lt_succ_of_lt hk, hi⟩
  have hcount : ∀ k, k < endOffset.toNat - s.ix.toNat ↔ points.length + k < endOffset.toNat := by
    intro k
    rw [hix]
    omega
  obtain ⟨-, hin, hout⟩ := hfill (endOffset.toNat - s.ix.toNat) _ rfl
  constructor
  · rintro ⟨k, hk, hi⟩
    obtain ⟨hf, ht⟩ := hin ⟨k, (hcount k).mpr hk, hi⟩
    exact ⟨hf.trans h.f0, ht.trans h.totalTime⟩
  · intro hnot
    exact hout fun ⟨k, hk, hi⟩ => hnot ⟨k, (hcount k).mp hk, hi⟩

end fill

/-! ### The law of the slice -/

section law
variable {config : SeqConfig} {startOffset length : BitVec 32} {frequency : ℕ → BitVec 64}
  {timebase : ℕ → BitVec 32} {sizes : List (BitVec 32)}

/-- What is in the buffers in the end: the tail where the rest is filled in, else the points. -/
theorem computeScaleInfo_buffers (hlength : config.points.length < 2 ^ 32) (i : ℕ) :
    (Filled startOffset (startOffset + length) config.points.length i →
      (computeScaleInfo config frequency timebase startOffset length).frequency i =
        frequencyValue config.tail ∧
      (computeScaleInfo config frequency timebase startOffset length).timebase i =
        timebaseValue config.tail) ∧
    (¬ Filled startOffset (startOffset + length) config.points.length i →
      (computeScaleInfo config frequency timebase startOffset length).frequency i =
        sliced startOffset.toNat (startOffset + length).toNat frequencyValue config.points
          frequency i ∧
      (computeScaleInfo config frequency timebase startOffset length).timebase i =
        sliced startOffset.toNat (startOffset + length).toNat timebaseValue config.points
          timebase i) := by
  have hstart : Scale.Sliced startOffset (startOffset + length) frequency timebase [] 0 0
      { frequency, timebase } := ⟨rfl, rfl, rfl, sliced_nil.symm, sliced_nil.symm⟩
  have hsupers := hstart.supers config.superSeqCount hlength
  obtain ⟨hin, hout⟩ := hsupers.fill hlength i
  refine ⟨hin, fun hnot => ?_⟩
  obtain ⟨hf, ht⟩ := hout hnot
  exact ⟨hf.trans (congrFun hsupers.frequency i), ht.trans (congrFun hsupers.timebase i)⟩

/-- Where the call starts among the points and does not run round, the rest is what is left. -/
theorem filled_iff (hstart : startOffset.toNat ≤ config.points.length)
    (hend : startOffset.toNat + length.toNat < 2 ^ 32) (i : ℕ) :
    Filled startOffset (startOffset + length) config.points.length i ↔
      config.points.length ≤ startOffset.toNat + i ∧ i < length.toNat := by
  have hstop : (startOffset + length).toNat = startOffset.toNat + length.toNat := by
    rw [BitVec.toNat_add, Nat.mod_eq_of_lt hend]
  unfold Filled
  rw [hstop]
  have hplace : ∀ k, config.points.length + k < startOffset.toNat + length.toNat →
      (BitVec.ofNat 32 (config.points.length + k) - startOffset).toNat =
        config.points.length + k - startOffset.toNat := by
    intro k hk
    rw [BitVec.toNat_sub, BitVec.toNat_ofNat]
    omega
  constructor
  · rintro ⟨k, hk, rfl⟩
    rw [hplace k hk]
    omega
  · rintro ⟨hbeyond, hi⟩
    refine ⟨startOffset.toNat + i - config.points.length, by omega, ?_⟩
    rw [hplace _ (by omega)]
    omega

theorem scaleAt_point {i : ℕ} (h : i < config.points.length) :
    config.points[i]? = some (config.scaleAt i) := by
  unfold SeqConfig.scaleAt
  rw [List.getElem?_eq_getElem h]
  rfl

theorem scaleAt_tail {i : ℕ} (h : config.points.length ≤ i) : config.scaleAt i = config.tail := by
  unfold SeqConfig.scaleAt
  rw [List.getElem?_eq_none h]
  rfl

/-- One buffer, where the call starts among the points and does not run round. -/
theorem holdsSlice {w : ℕ} {value : ℕ × ℕ → BitVec w} {old buffer : ℕ → BitVec w}
    (hend : startOffset.toNat + length.toNat < 2 ^ 32)
    (hin : ∀ i, config.points.length ≤ startOffset.toNat + i ∧ i < length.toNat →
      buffer i = value config.tail)
    (hout : ∀ i, ¬ (config.points.length ≤ startOffset.toNat + i ∧ i < length.toNat) →
      buffer i = sliced startOffset.toNat (startOffset + length).toNat value config.points old i) :
    HoldsSlice value config startOffset.toNat length.toNat old buffer := by
  have hstop : (startOffset + length).toNat = startOffset.toNat + length.toNat := by
    rw [BitVec.toNat_add, Nat.mod_eq_of_lt hend]
  refine ⟨fun i hi => ?_, fun i hi => ?_⟩
  · by_cases hpoint : startOffset.toNat + i < config.points.length
    · rw [hout i (by omega), hstop]
      unfold sliced
      rw [if_pos (by omega), scaleAt_point hpoint]
      rfl
    · rw [hin i (by omega), scaleAt_tail (by omega)]
  · rw [hout i (by omega), hstop]
    exact if_neg (by omega)

/-- The law of the slice holds where the call starts among the points, or right after them, and does
not run round. -/
theorem sliceLaw_iff (hlength : config.points.length < 2 ^ 32) :
    SliceLaw config startOffset length ↔
      startOffset.toNat ≤ config.points.length ∧ startOffset.toNat + length.toNat < 2 ^ 32 := by
  have hstartlt := startOffset.isLt
  have hlengthlt := length.isLt
  constructor
  · intro h
    by_cases hend : startOffset.toNat + length.toNat < 2 ^ 32
    · refine ⟨?_, hend⟩
      by_contra hbeyond
      have hstop : (startOffset + length).toNat = startOffset.toNat + length.toNat := by
        rw [BitVec.toNat_add, Nat.mod_eq_of_lt hend]
      -- The first element before the offset has the greatest index of all.
      have hfilled : Filled startOffset (startOffset + length) config.points.length (2 ^ 32 - 1) := by
        refine ⟨startOffset.toNat - 1 - config.points.length, by omega, ?_⟩
        rw [BitVec.toNat_sub, BitVec.toNat_ofNat]
        omega
      obtain ⟨⟨-, hframe⟩, -⟩ := h (fun _ => frequencyValue config.tail + 1) fun _ => 0
      have hkept := hframe (2 ^ 32 - 1) (by omega)
      rw [((computeScaleInfo_buffers hlength _).1 hfilled).1] at hkept
      exact absurd hkept (by simp)
    · exfalso
      have hstop : (startOffset + length).toNat = startOffset.toNat + length.toNat - 2 ^ 32 := by
        rw [BitVec.toNat_add]
        omega
      -- The first element of the slice is not written at all.
      have hnot : ¬ Filled startOffset (startOffset + length) config.points.length 0 := by
        rintro ⟨k, hk, hplace⟩
        rw [BitVec.toNat_sub, BitVec.toNat_ofNat] at hplace
        omega
      obtain ⟨⟨hslice, -⟩, -⟩ :=
        h (fun _ => frequencyValue (config.scaleAt startOffset.toNat) + 1) fun _ => 0
      have hfirst := hslice 0 (by omega)
      have hold : ∀ old, sliced startOffset.toNat (startOffset + length).toNat frequencyValue
          config.points old 0 = old 0 := by
        intro old
        exact if_neg (by omega)
      rw [((computeScaleInfo_buffers hlength _).2 hnot).1, hold] at hfirst
      exact absurd hfirst (by simp)
  · rintro ⟨hstart, hend⟩ frequency timebase
    refine ⟨holdsSlice hend (fun i hi => ?_) fun i hi => ?_,
      holdsSlice hend (fun i hi => ?_) fun i hi => ?_⟩
    · exact ((computeScaleInfo_buffers hlength i).1 ((filled_iff hstart hend i).mpr hi)).1
    · exact ((computeScaleInfo_buffers hlength i).2 (mt (filled_iff hstart hend i).mp hi)).1
    · exact ((computeScaleInfo_buffers hlength i).1 ((filled_iff hstart hend i).mpr hi)).2
    · exact ((computeScaleInfo_buffers hlength i).2 (mt (filled_iff hstart hend i).mp hi)).2

/-! ### Consecutive calls -/

/-- What is stored of the sequence. -/
def SeqConfig.storedAt (config : SeqConfig) (i : ℕ) : BitVec 64 × BitVec 32 :=
  (frequencyValue (config.scaleAt i), timebaseValue (config.scaleAt i))

theorem readChunk_eq (h : SliceLaw config startOffset length) :
    readChunk config frequency timebase startOffset length =
      (List.range length.toNat).map fun i => config.storedAt (startOffset.toNat + i) := by
  obtain ⟨⟨hf, -⟩, ⟨ht, -⟩⟩ := h frequency timebase
  apply List.map_congr_left
  intro i hi
  have hlt := List.mem_range.mp hi
  exact Prod.ext (hf i hlt) (ht i hlt)

/-- The next call starts where the last one ended. -/
theorem SliceLaw.next (hlength : config.points.length < 2 ^ 32)
    (h : SliceLaw config startOffset length) :
    (startOffset + length).toNat = startOffset.toNat + length.toNat := by
  rw [BitVec.toNat_add, Nat.mod_eq_of_lt ((sliceLaw_iff hlength).mp h).2]

theorem ChunksLaw.total_lt (hlength : config.points.length < 2 ^ 32) :
    ∀ {sizes : List (BitVec 32)} {startOffset : BitVec 32}, ChunksLaw config startOffset sizes →
      startOffset.toNat + (sizes.map BitVec.toNat).sum < 2 ^ 32
  | [], startOffset, _ => startOffset.isLt
  | length :: sizes, startOffset, ⟨hslice, hrest⟩ => by
      have htotal := ChunksLaw.total_lt hlength hrest
      rw [hslice.next hlength] at htotal
      rw [List.map_cons, List.sum_cons]
      omega

/-- Consecutive calls read the sequence. -/
theorem readChunks_eq (hlength : config.points.length < 2 ^ 32) :
    ∀ {sizes : List (BitVec 32)} {startOffset : BitVec 32}, ChunksLaw config startOffset sizes →
      readChunks config frequency timebase startOffset sizes =
        (List.range (sizes.map BitVec.toNat).sum).map fun i =>
          config.storedAt (startOffset.toNat + i)
  | [], _, _ => rfl
  | length :: sizes, startOffset, ⟨hslice, hrest⟩ => by
      have hnext := readChunks_eq hlength hrest
      unfold readChunks
      rw [readChunk_eq hslice, hnext, hslice.next hlength, List.map_cons, List.sum_cons,
        List.range_add, List.map_append, List.map_map]
      apply congrArg
      apply List.map_congr_left
      intro i _
      dsimp only [Function.comp]
      rw [Nat.add_assoc]

/-- Each call starts among the points, or right after them, and does not run round. -/
def InReach (config : SeqConfig) (startOffset : ℕ) (sizes : List (BitVec 32)) : Prop :=
  ∀ before length after, sizes = before ++ length :: after →
    startOffset + (before.map BitVec.toNat).sum ≤ config.points.length ∧
    startOffset + (before.map BitVec.toNat).sum + length.toNat < 2 ^ 32

theorem inReach_cons : InReach config startOffset.toNat (length :: sizes) ↔
    (startOffset.toNat ≤ config.points.length ∧ startOffset.toNat + length.toNat < 2 ^ 32) ∧
      InReach config (startOffset.toNat + length.toNat) sizes := by
  constructor
  · intro h
    refine ⟨h [] length sizes rfl, fun before next after hsizes => ?_⟩
    have hnext := h (length :: before) next after (by rw [hsizes, List.cons_append])
    rwa [List.map_cons, List.sum_cons, ← Nat.add_assoc] at hnext
  · rintro ⟨hfirst, hrest⟩ before next after hsizes
    cases before with
    | nil =>
        obtain ⟨rfl, -⟩ := List.cons_eq_cons.mp hsizes
        exact hfirst
    | cons size before =>
        obtain ⟨rfl, htail⟩ := List.cons_eq_cons.mp hsizes
        rw [List.map_cons, List.sum_cons, ← Nat.add_assoc]
        exact hrest before next after htail

theorem chunksLaw_iff (hlength : config.points.length < 2 ^ 32) :
    ∀ {sizes : List (BitVec 32)} {startOffset : BitVec 32},
      ChunksLaw config startOffset sizes ↔ InReach config startOffset.toNat sizes
  | [], _ => iff_of_true trivial fun before _ _ h => by
      cases before <;> cases h
  | length :: sizes, startOffset => by
      rw [inReach_cons, ← sliceLaw_iff hlength]
      refine and_congr_right fun hslice => ?_
      rw [← hslice.next hlength]
      exact chunksLaw_iff hlength

/-- Consecutive calls that obey the law read what one call reads. -/
theorem streamLaw_iff (hlength : config.points.length < 2 ^ 32) :
    StreamLaw config sizes ↔ InReach config 0 sizes := by
  have hzero : BitVec.toNat (0 : BitVec 32) = 0 := rfl
  have hchunks := @chunksLaw_iff config hlength sizes 0
  rw [hzero] at hchunks
  rw [← hchunks]
  refine ⟨And.left, fun h => ⟨h, fun frequency timebase => ?_⟩⟩
  have htotal := h.total_lt hlength
  rw [hzero, Nat.zero_add] at htotal
  have hsize : (totalSize sizes).toNat = (sizes.map BitVec.toNat).sum := by
    unfold totalSize
    rw [BitVec.toNat_ofNat, Nat.mod_eq_of_lt htotal]
  have hwhole : SliceLaw config 0 (totalSize sizes) := by
    refine (sliceLaw_iff hlength).mpr ⟨?_, ?_⟩
    · rw [hzero]
      exact Nat.zero_le _
    · rw [hzero, hsize, Nat.zero_add]
      exact htotal
  rw [readChunks_eq hlength h, readChunk_eq hwhole, hsize]

/-- A call writes exactly its slice, and consecutive calls read the whole, as long as no call starts
beyond the points or runs round. -/
theorem scale_slices_iff (config : SeqConfig) (hlength : config.points.length < 2 ^ 32) :
    (∀ startOffset length, SliceLaw config startOffset length ↔
      startOffset.toNat ≤ config.points.length ∧ startOffset.toNat + length.toNat < 2 ^ 32) ∧
    ∀ sizes, StreamLaw config sizes ↔ InReach config 0 sizes :=
  ⟨fun _ _ => sliceLaw_iff hlength, fun _ => streamLaw_iff hlength⟩

theorem scale_slices_sweep :
    (∀ startOffset length, SliceLaw sweepConfig startOffset length ↔
      startOffset.toNat ≤ sweepConfig.points.length ∧
        startOffset.toNat + length.toNat < 2 ^ 32) ∧
    ∀ sizes, StreamLaw sweepConfig sizes ↔ InReach sweepConfig 0 sizes :=
  scale_slices_iff sweepConfig (points_length sweepConfig_admitted)

/-- A read that starts beyond the points writes outside its buffers. -/
theorem scale_slices_beyond : ¬ SliceLaw sweepConfig 100 1 := by
  rw [sliceLaw_iff (points_length sweepConfig_admitted)]
  decide

end law

end Mbf.Sequencer
