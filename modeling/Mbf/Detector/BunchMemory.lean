import Mbf.Bunch.Offset
import Mbf.Detector.Context
import Mbf.Lib.Bus
import Mbf.Lib.Clocked
import Mbf.Util

/-! # The bunch enables of the detectors

`write_det_bunch_enable_array` of `hardware.c` packs an array of enables, one for each bunch, into
words of 32 bits, from the offset of the bunches on, and `hw_write_det_config` writes the words of
the four detectors one after the other.  In the firmware `detector_registers` passes the words on to
the detector that is selected, and `detector_bunch_select` fills its memory with them, from the start
of the memory at each `DSP.DET.COMMAND.WRITE`.

The memory is read a bit at a time.  The read address starts again with every turn clock; the word
and the place of the bit in it come out of their delays at the same time.

So the bit that is read for a bunch of the turn is its own enable, if the number of bunches is one
that the bunch counter can hold (`detector_bunch_enables`).  Beyond that the addresses wrap, and the
first words are written over (`detector_bunch_enables_wrap`). -/

namespace Mbf.Detector

open Mbf.Bunch (forBunchesOffset)

abbrev Word := BitVec 32

/-! ### The program -/

/-- `struct detector_config`. -/
structure DetectorConfig where
  enable : Bool
  scaling : BitVec 16
  bunchEnables : ℕ → Bool

/-- The loop of `write_det_bunch_enable_array`: the words written, and the bits gathered. -/
structure Packing where
  written : List Word
  enableMask : Word

/-- An iteration, at `i` and `j`. -/
def Packing.step (enables : ℕ → Bool) (s : Packing) (p : ℕ × ℕ) : Packing :=
  let enableMask := s.enableMask ||| (BitVec.ofBool (enables p.2)).setWidth 32 <<< (p.1 &&& 0x1F)
  if p.1 &&& 0x1F = 0x1F then ⟨s.written ++ [enableMask], 0⟩ else ⟨s.written, enableMask⟩

/-- `write_det_bunch_enable_array`: the words written to the register. -/
def writeDetBunchEnableArray (bunches delay : BitVec 32) (enables : ℕ → Bool) : List Word :=
  let s := (forBunchesOffset bunches delay).foldl (Packing.step enables) ⟨[], 0⟩
  if bunches &&& 0x1F ≠ 0 then s.written ++ [s.enableMask] else s.written

/-- A write to `DSP.DET.CONFIG`, `DSP.DET.COMMAND` or `DSP.DET.BUNCH`. -/
inductive DetWrite where
  | config (data : Word)
  | command (data : Word)
  | bunch (data : Word)

/-- `struct dsp_det_config`, with the detector whose bunches are written. -/
def detConfigWord (inputSelect : BitVec 16) (config : DetectorId → DetectorConfig)
    (bank : DetectorId) : Word :=
  let field := fun d => BitVec.ofBool (config d).enable ++ (config d).scaling.setWidth 1
  BitVec.ofFin bank ++
    (0#20 ++ field 3 ++ field 2 ++ field 1 ++ field 0 ++ inputSelect.setWidth 2 : BitVec 30)

/-- `write_det_bunch_enable`. -/
def writeDetBunchEnable (inputSelect : BitVec 16) (bunches delay : BitVec 32)
    (config : DetectorId → DetectorConfig) (det : DetectorId) : List DetWrite :=
  .config (detConfigWord inputSelect config det) :: .command 1 ::
    (writeDetBunchEnableArray bunches delay (config det).bunchEnables).map .bunch

/-- `hw_write_det_config`. -/
def hwWriteDetConfig (inputSelect : BitVec 16) (bunches delay : BitVec 32)
    (config : DetectorId → DetectorConfig) : List DetWrite :=
  (List.finRange 4).flatMap (writeDetBunchEnable inputSelect bunches delay config)

/-! ### The circuit -/

/-- The address of a word in the memory of a detector. -/
abbrev BunchWordAddress := BitVec 6

/-- The write side of `detector_bunch_select`, with the memory of `detector_bunch_mem`. -/
structure BunchWriter where
  writeAddress : BunchWordAddress
  writeStrobeIn : Bool
  writeAddrIn : BunchWordAddress
  writeDataIn : Word
  memory : BunchWordAddress → Word

/-- The registers of `detector_registers`, and the write sides of the detectors. -/
structure DetPort where
  strobedBits : Word
  strobedDly : Fin 2 → Word
  configRegister : Word
  writer : DetectorId → BunchWriter

/-- A clock of the write side, with a word for it if there is one. -/
def BunchWriter.clock (startWrite : Bool) (word : Option Word) (w : BunchWriter) : BunchWriter where
  writeAddress :=
    if startWrite then 0
    else if word.isSome then w.writeAddress + 1
    else w.writeAddress
  writeStrobeIn := word.isSome
  writeAddrIn := w.writeAddress
  writeDataIn := word.getD w.writeDataIn
  memory :=
    if w.writeStrobeIn then Function.update w.memory w.writeAddrIn w.writeDataIn else w.memory

namespace DetPort

/-- `start_write`. -/
def startWrite (s : DetPort) : Bool := (s.strobedDly 1).getLsbD 0

/-- `bunch_write_index`. -/
def bunchWriteIndex (s : DetPort) : BitVec 2 := s.configRegister.extractLsb' 30 2

/-- A clock, with the write to one of the registers, if there is one. -/
def clock (s : DetPort) (input : Option DetWrite) : DetPort where
  strobedBits :=
    match input with
    | some (.command data) => data
    | _ => 0
  strobedDly := dlyline s.strobedDly s.strobedBits
  configRegister :=
    match input with
    | some (.config data) => data
    | _ => s.configRegister
  writer d :=
    match input with
    | some (.bunch data) =>
        (s.writer d).clock s.startWrite
          (if s.bunchWriteIndex.toNat = d.val then some data else none)
    | _ => (s.writer d).clock s.startWrite none

end DetPort

/-- The read side of `detector_bunch_select` and of the memory. -/
structure BunchReader where
  readAddress : BitVec 11
  /-- The registers of `block_memory`. -/
  readData : Word
  readWord : Word
  readWordBits : Word
  /-- The delay of the place of the bit. -/
  readAddrBit : Fin 3 → BitVec 5
  /-- `read_data_o` of `detector_bunch_mem`. -/
  readDataO : Bool

/-- A clock of the read side. -/
def BunchReader.clock (memory : BunchWordAddress → Word) (turnClock : Bool) (r : BunchReader) :
    BunchReader where
  readAddress := if turnClock then 0 else r.readAddress + 1
  readData := memory (r.readAddress.extractLsb' 5 6)
  readWord := r.readData
  readWordBits := r.readWord
  readAddrBit := dlyline r.readAddrBit (r.readAddress.extractLsb' 0 5)
  readDataO := r.readWordBits.getLsbD (r.readAddrBit 2).toNat

/-! ### Packing -/

/-- What has been packed after the bits below `k`. -/
structure Packed (e : ℕ → Bool) (k : ℕ) (s : Packing) : Prop where
  length : s.written.length = k / 32
  written : ∀ m, m / 32 < k / 32 → ∃ w, s.written[m / 32]? = some w ∧ w.getLsbD (m % 32) = e m
  mask : ∀ b, s.enableMask.getLsbD b = (decide (b < k % 32) && e (32 * (k / 32) + b))

theorem getLsbD_shifted_bit (v : Bool) {q : ℕ} (hq : q < 32) (b : ℕ) :
    ((BitVec.ofBool v).setWidth 32 <<< q).getLsbD b = (decide (b = q) && v) := by
  rw [BitVec.getLsbD_shiftLeft, BitVec.getLsbD_setWidth, BitVec.getLsbD_ofBool]
  by_cases hb : b = q
  · subst hb
    simp [hq]
  · by_cases hlt : b < q
    · simp [hb, hlt]
    · have hne : b - q ≠ 0 := by omega
      simp [hb, hne]

theorem and_31 (i : ℕ) : i &&& 0x1F = i % 32 := Nat.and_two_pow_sub_one_eq_mod i 5

/-- An iteration packs the next bit. -/
theorem Packed.step {enables e : ℕ → Bool} {k j : ℕ} {s : Packing} (h : Packed e k s)
    (hj : enables j = e k) : Packed e (k + 1) (s.step enables (k, j)) := by
  have hmask : ∀ b, (s.enableMask |||
      (BitVec.ofBool (enables j)).setWidth 32 <<< (k &&& 0x1F)).getLsbD b =
        (decide (b < k % 32 + 1) && e (32 * (k / 32) + b)) := by
    intro b
    rw [BitVec.getLsbD_or, h.mask, and_31, getLsbD_shifted_bit _ (by omega), hj]
    by_cases hb : b = k % 32
    · have hk : 32 * (k / 32) + b = k := by omega
      rw [hk]
      simp [hb]
    · by_cases hlt : b < k % 32
      · simp [hb, hlt, Nat.lt_succ_of_lt hlt]
      · have hge : ¬ b < k % 32 + 1 := by omega
        simp [hb, hlt, hge]
  unfold Packing.step
  dsimp only
  by_cases hlast : k &&& 0x1F = 0x1F
  · -- the word is full
    rw [if_pos hlast]
    rw [and_31] at hlast
    have hdiv : (k + 1) / 32 = k / 32 + 1 := by omega
    refine ⟨by rw [List.length_append, h.length, hdiv]; rfl, ?_, ?_⟩
    · intro m hm
      rw [hdiv] at hm
      by_cases hword : m / 32 = k / 32
      · refine ⟨_, by rw [hword, ← h.length]; exact List.getElem?_concat_length, ?_⟩
        rw [hmask]
        have hm' : 32 * (k / 32) + m % 32 = m := by omega
        rw [hm', decide_eq_true (by omega), Bool.true_and]
      · obtain ⟨w, hw, hbit⟩ := h.written m (by omega)
        refine ⟨w, ?_, hbit⟩
        rw [List.getElem?_append_left (by rw [h.length]; omega), hw]
    · intro b
      have hzero : (k + 1) % 32 = 0 := by omega
      simp [hzero]
  · rw [if_neg hlast]
    rw [and_31] at hlast
    have hdiv : (k + 1) / 32 = k / 32 := by omega
    have hmod : (k + 1) % 32 = k % 32 + 1 := by omega
    refine ⟨by rw [hdiv]; exact h.length, by rw [hdiv]; exact h.written, ?_⟩
    rw [hdiv, hmod]
    exact hmask

theorem Packed.loop {enables : ℕ → Bool} (e : ℕ → Bool) {f : ℕ → ℕ}
    (hf : ∀ i, enables (f i) = e i) (n : ℕ) :
    Packed e n (((List.range n).map fun i => (i, f i)).foldl (Packing.step enables) ⟨[], 0⟩) := by
  induction n with
  | zero => exact ⟨rfl, fun m hm => absurd hm (by omega), fun b => by simp⟩
  | succ n ih =>
      rw [List.range_succ, List.map_append, List.foldl_append]
      exact ih.step (hf n)

/-- The words have the bits in order, and there are as many as it takes. -/
theorem writeDetBunchEnableArray_spec {bunches delay : BitVec 32} (h : delay < bunches)
    (enables : ℕ → Bool) :
    (writeDetBunchEnableArray bunches delay enables).length = (bunches.toNat + 31) / 32 ∧
      ∀ m < bunches.toNat, ∃ w,
        (writeDetBunchEnableArray bunches delay enables)[m / 32]? = some w ∧
          w.getLsbD (m % 32) = enables ((m + delay.toNat) % bunches.toNat) := by
  have hpacked := Packed.loop
    (fun i => enables ((i + delay.toNat) % bunches.toNat)) (fun _ => rfl) bunches.toNat
  rw [← Mbf.Bunch.forBunchesOffset_eq h] at hpacked
  have hmod : bunches &&& 0x1F ≠ 0 ↔ bunches.toNat % 32 ≠ 0 := by
    rw [not_iff_not, ← BitVec.toNat_inj, BitVec.toNat_and]
    exact Eq.congr_left (and_31 _)
  unfold writeDetBunchEnableArray
  dsimp only
  by_cases hrest : bunches &&& 0x1F ≠ 0
  · -- a last word with the bits gathered
    rw [if_pos hrest]
    rw [hmod] at hrest
    refine ⟨by rw [List.length_append, hpacked.length, List.length_singleton]; omega, ?_⟩
    intro m hm
    by_cases hword : m / 32 < bunches.toNat / 32
    · obtain ⟨w, hw, hbit⟩ := hpacked.written m hword
      refine ⟨w, ?_, hbit⟩
      rw [List.getElem?_append_left (by rw [hpacked.length]; exact hword), hw]
    · have heq : m / 32 = bunches.toNat / 32 := by omega
      refine ⟨_, by rw [heq, ← hpacked.length]; exact List.getElem?_concat_length, ?_⟩
      have hm' : 32 * (bunches.toNat / 32) + m % 32 = m := by omega
      rw [hpacked.mask, hm', decide_eq_true (by omega), Bool.true_and]
  · rw [if_neg hrest]
    rw [hmod, not_not] at hrest
    exact ⟨by rw [hpacked.length]; omega, fun m hm => hpacked.written m (by omega)⟩

/-! ### The writes -/

/-- The clocks from one write to the next, see `SeqWrite.settle`. -/
def DetWrite.settle (_ : DetWrite) : ℕ := 3

/-- What the port holds. -/
@[ext] structure DetContents where
  configRegister : Word
  writeAddress : DetectorId → BunchWordAddress
  memory : DetectorId → BunchWordAddress → Word

def DetPort.contents (s : DetPort) : DetContents where
  configRegister := s.configRegister
  writeAddress d := (s.writer d).writeAddress
  memory d := (s.writer d).memory

/-- What a write does. -/
def DetContents.step (c : DetContents) : DetWrite → DetContents
  | .config data => { c with configRegister := data }
  | .command data => if data.getLsbD 0 then { c with writeAddress := fun _ => 0 } else c
  | .bunch data =>
      { c with
        writeAddress := fun d =>
          if (c.configRegister.extractLsb' 30 2).toNat = d.val then c.writeAddress d + 1
          else c.writeAddress d
        memory := fun d =>
          if (c.configRegister.extractLsb' 30 2).toNat = d.val then
            Function.update (c.memory d) (c.writeAddress d) data
          else c.memory d }

/-- No write is on its way. -/
structure DetPort.Quiet (s : DetPort) : Prop where
  strobedBits : s.strobedBits = 0
  strobedDly : ∀ i, s.strobedDly i = 0
  writeStrobeIn : ∀ d, (s.writer d).writeStrobeIn = false

section port
variable {s : DetPort}

/-- After three clocks without a write the port is quiet. -/
theorem DetPort.quiet_of_idle (s : DetPort) :
    ((List.replicate 3 none).foldl DetPort.clock s).Quiet := by
  constructor
  · rfl
  · intro i
    match i with
    | 0 => rfl
    | 1 => rfl
  · intro d
    rfl

theorem DetPort.Quiet.startWrite (h : s.Quiet) : s.startWrite = false := by
  unfold DetPort.startWrite
  rw [h.strobedDly]
  rfl

/-- Nothing that the port holds changes on a clock without a write. -/
theorem DetPort.Quiet.idle (h : s.Quiet) :
    (s.clock none).Quiet ∧ (s.clock none).contents = s.contents := by
  constructor
  · constructor
    · rfl
    · intro i
      show dlyline s.strobedDly s.strobedBits i = 0
      unfold dlyline
      split_ifs
      · exact h.strobedBits
      · exact h.strobedDly _
    · intro d
      rfl
  · simp [DetPort.contents, DetPort.clock, BunchWriter.clock, h.startWrite, h.writeStrobeIn]

/-- Between the writes the port is quiet, and a write is a step. -/
theorem DetPort.Quiet.settled (h : s.Quiet) (w : DetWrite) :
    ((Bus.settled DetWrite.settle w).foldl DetPort.clock s).Quiet ∧
      ((Bus.settled DetWrite.settle w).foldl DetPort.clock s).contents = s.contents.step w := by
  refine ⟨DetPort.quiet_of_idle (s.clock (some w)), ?_⟩
  have hdly0 := h.strobedDly 0
  have hdly1 := h.strobedDly 1
  show ((((s.clock (some w)).clock none).clock none).clock none).contents = _
  cases w with
  | config data =>
      simp [DetContents.step, DetPort.contents, DetPort.clock, BunchWriter.clock,
        DetPort.startWrite, dlyline, h.strobedBits, hdly0, hdly1, h.writeStrobeIn]
  | command data =>
      have hbit : data.getLsbD 0 = data[0] := rfl
      unfold DetContents.step
      dsimp only
      rw [hbit]
      cases hwrite : data[0] <;>
        simp [DetPort.contents, DetPort.clock, BunchWriter.clock, DetPort.startWrite, dlyline,
          h.strobedBits, hdly0, hdly1, h.writeStrobeIn, hwrite]
  | bunch data =>
      have hindex : s.contents.configRegister.extractLsb' 30 2 = s.bunchWriteIndex := rfl
      unfold DetContents.step
      dsimp only
      rw [hindex]
      ext1
      · simp [DetPort.contents, DetPort.clock]
      · funext d
        by_cases hd : s.bunchWriteIndex.toNat = d.val <;>
          simp [DetPort.contents, DetPort.clock, BunchWriter.clock, DetPort.startWrite, dlyline,
            h.strobedBits, hdly0, hdly1, hd]
      · funext d
        by_cases hd : s.bunchWriteIndex.toNat = d.val <;>
          simp [DetPort.contents, DetPort.clock, BunchWriter.clock, DetPort.startWrite, dlyline,
            h.strobedBits, hdly0, hdly1, hd, h.writeStrobeIn]

/-- What the port holds after some writes. -/
theorem DetPort.Quiet.paced (h : s.Quiet) {clocks : List (Option DetWrite)}
    {writes : List DetWrite} (hpaced : Bus.Paced DetWrite.settle clocks writes) :
    (clocks.foldl DetPort.clock s).contents = writes.foldl DetContents.step s.contents :=
  (hpaced.foldl (fun _ ht => ht.idle) (fun _ w ht => ht.settled w) h).2

end port

/-! ### The memories -/

/-- The place of a word. -/
abbrev wordAddr (k : ℕ) : BunchWordAddress := BitVec.ofNat 6 k

theorem bank_detConfigWord (inputSelect : BitVec 16) (config : DetectorId → DetectorConfig)
    (bank : DetectorId) :
    ((detConfigWord inputSelect config bank).extractLsb' 30 2).toNat = bank.val := by
  have hbank : (detConfigWord inputSelect config bank).extractLsb' 30 2 = BitVec.ofFin bank := by
    exact BitVec.extractLsb'_append_eq_left
  rw [hbank]
  rfl

/-- A detector is being written, from the place `k` on, and the memories of the others are left
alone. -/
structure Filling (det : DetectorId) (others : DetectorId → BunchWordAddress → Word) (k : ℕ)
    (memory : BunchWordAddress → Word) (c : DetContents) : Prop where
  selected : (c.configRegister.extractLsb' 30 2).toNat = det.val
  writeAddress : c.writeAddress det = wordAddr k
  memory : c.memory det = memory
  others : ∀ d, d ≠ det → c.memory d = others d

theorem Filling.step {det : DetectorId} {others : DetectorId → BunchWordAddress → Word} {k : ℕ}
    {memory : BunchWordAddress → Word} {c : DetContents} (h : Filling det others k memory c)
    (word : Word) :
    Filling det others (k + 1) (Function.update memory (wordAddr k) word) (c.step (.bunch word)) where
  selected := h.selected
  writeAddress := by
    show (if _ then c.writeAddress det + 1 else c.writeAddress det) = _
    rw [if_pos h.selected, h.writeAddress]
    exact (BitVec.ofNat_add k 1).symm
  memory := by
    show (if _ then Function.update (c.memory det) (c.writeAddress det) word else c.memory det) = _
    rw [if_pos h.selected, h.writeAddress, h.memory]
  others d hd := by
    show (if _ then Function.update (c.memory d) (c.writeAddress d) word else c.memory d) = _
    rw [if_neg (fun heq => hd (Fin.ext (heq.symm.trans h.selected))), h.others d hd]

section config
variable (inputSelect : BitVec 16) (bunches delay : BitVec 32) (config : DetectorId → DetectorConfig)

/-- The words of a detector fill its memory from the start. -/
theorem filling_writeDetBunchEnable (det : DetectorId) (c : DetContents) :
    Filling det c.memory
      (0 + (writeDetBunchEnableArray bunches delay (config det).bunchEnables).length)
      (Bus.store wordAddr 0 (writeDetBunchEnableArray bunches delay (config det).bunchEnables)
        (c.memory det))
      ((writeDetBunchEnable inputSelect bunches delay config det).foldl DetContents.step c) := by
  have hstart : Filling det c.memory 0 (c.memory det)
      ((c.step (.config (detConfigWord inputSelect config det))).step (.command 1)) :=
    ⟨bank_detConfigWord inputSelect config det, rfl, rfl, fun _ _ => rfl⟩
  have hstep : ∀ k memory (word : Word) (c' : DetContents), Filling det c.memory k memory c' →
      Filling det c.memory (k + 1) (Function.update memory (wordAddr k) (id word))
        ([DetWrite.bunch word].foldl DetContents.step c') := fun _ _ word _ h => h.step word
  have hfill := Bus.foldl_store hstep
    (writeDetBunchEnableArray bunches delay (config det).bunchEnables) hstart
  rw [List.map_id, ← List.map_eq_flatMap] at hfill
  exact hfill

/-- Each detector gets its own words. -/
theorem memory_hwWriteDetConfig (c : DetContents) (d : DetectorId) :
    ((hwWriteDetConfig inputSelect bunches delay config).foldl DetContents.step c).memory d =
      Bus.store wordAddr 0 (writeDetBunchEnableArray bunches delay (config d).bunchEnables)
        (c.memory d) := by
  have hloop : ∀ (l : List DetectorId), l.Nodup → ∀ c : DetContents,
      ((l.flatMap (writeDetBunchEnable inputSelect bunches delay config)).foldl
          DetContents.step c).memory d =
        if d ∈ l then
          Bus.store wordAddr 0 (writeDetBunchEnableArray bunches delay (config d).bunchEnables)
            (c.memory d)
        else c.memory d := by
    intro l
    induction l with
    | nil => intro _ c; rfl
    | cons det l ih =>
        intro hnodup c
        rw [List.nodup_cons] at hnodup
        have hfill := filling_writeDetBunchEnable inputSelect bunches delay config det c
        rw [List.flatMap_cons, List.foldl_append, ih hnodup.2]
        by_cases hd : d = det
        · subst hd
          rw [if_neg hnodup.1, if_pos List.mem_cons_self, hfill.memory]
        · simp only [List.mem_cons, hd, false_or, hfill.others d hd]
  exact (hloop _ (List.nodup_finRange 4) c).trans (if_pos (List.mem_finRange d))

/-- A word is at its place, if the memory can hold all of them. -/
theorem word_hwWriteDetConfig (hfits : bunches.toNat ≤ 2 ^ 11) (hdelay : delay < bunches)
    (c : DetContents) (d : DetectorId) {m : ℕ} (hm : m < bunches.toNat) :
    (((hwWriteDetConfig inputSelect bunches delay config).foldl DetContents.step c).memory d
        (wordAddr (m / 32))).getLsbD (m % 32) =
      (config d).bunchEnables ((m + delay.toNat) % bunches.toNat) := by
  obtain ⟨hlength, hbits⟩ := writeDetBunchEnableArray_spec hdelay (config d).bunchEnables
  obtain ⟨w, hw, hbit⟩ := hbits m hm
  have hinj : Set.InjOn wordAddr (Set.Iio (2 ^ 6)) := by
    intro i hi k hk heq
    rw [Set.mem_Iio] at hi hk
    have hnat := congrArg BitVec.toNat heq
    rwa [BitVec.toNat_ofNat, BitVec.toNat_ofNat, Nat.mod_eq_of_lt hi, Nat.mod_eq_of_lt hk] at hnat
  have hplace := @Bus.store_place _ _ _ wordAddr 0 _ (c.memory d) _ _ _ hinj
    (by rw [hlength]; omega) hw
  rw [Nat.zero_add] at hplace
  rw [memory_hwWriteDetConfig, hplace, hbit]

end config

/-! ### Reading -/

section read
variable {turn start : ℕ} {turnClock : ℕ → Bool} {memory : BunchWordAddress → Word}
  {r : BunchReader}

/-- The reader before the clock `t`. -/
abbrev reading (memory : BunchWordAddress → Word) (turnClock : ℕ → Bool) (r : BunchReader)
    (t : ℕ) : BunchReader :=
  Clocked.run (BunchReader.clock memory) r turnClock t

theorem reading_address (memory : BunchWordAddress → Word) (r : BunchReader)
    (hturn : TurnClock turn start turnClock) (k : ℕ) :
    (reading memory turnClock r (start + 1 + k)).readAddress = BitVec.ofNat 11 (k % turn) :=
  @TurnMemory.counter_eq 11 turn start (fun t => (reading memory turnClock r t).readAddress)
    turnClock (fun _ => rfl) hturn k

/-- The word and the bit of an address come out together, four clocks later. -/
theorem reading_data (t : ℕ) :
    (reading memory turnClock r (t + 4)).readDataO =
      (memory ((reading memory turnClock r t).readAddress.extractLsb' 5 6)).getLsbD
        ((reading memory turnClock r t).readAddress.extractLsb' 0 5).toNat := by
  have hbit := dlyline_out (fun t => (reading memory turnClock r t).readAddrBit)
    (fun t => (reading memory turnClock r t).readAddress.extractLsb' 0 5) (fun _ => rfl) 2 t
  have hbit' : (reading memory turnClock r (t + 3)).readAddrBit 2 =
      (reading memory turnClock r t).readAddress.extractLsb' 0 5 := hbit
  rw [← hbit']
  rfl

theorem address_word {m : ℕ} (h : m < 2 ^ 11) :
    (BitVec.ofNat 11 m).extractLsb' 5 6 = wordAddr (m / 32) := by
  apply BitVec.eq_of_toNat_eq
  rw [BitVec.extractLsb'_toNat, BitVec.toNat_ofNat, BitVec.toNat_ofNat, Nat.mod_eq_of_lt h,
    Nat.shiftRight_eq_div_pow]

theorem address_bit {m : ℕ} (h : m < 2 ^ 11) :
    ((BitVec.ofNat 11 m).extractLsb' 0 5).toNat = m % 32 := by
  rw [BitVec.extractLsb'_toNat, BitVec.toNat_ofNat, Nat.mod_eq_of_lt h, Nat.shiftRight_zero]

end read

/-- Enough words are written and no more, only the bits of the bunches are read, and what is read
for a bunch is its own enable: in each detector, whatever was in its memory, and from the first turn
clock on. -/
theorem detector_bunch_enables {bunches delay : BitVec 32} (hdelay : delay < bunches)
    (hfits : bunches.toNat ≤ 2 ^ 11) (inputSelect : BitVec 16) (config : DetectorId → DetectorConfig)
    {port : DetPort} (hquiet : port.Quiet) {clocks : List (Option DetWrite)}
    (hclocks : Bus.Paced DetWrite.settle clocks (hwWriteDetConfig inputSelect bunches delay config))
    (d : DetectorId) (reader : BunchReader) {start : ℕ} {turnClock : ℕ → Bool}
    (hturn : TurnClock bunches.toNat start turnClock) :
    let words := writeDetBunchEnableArray bunches delay (config d).bunchEnables
    let memory := ((clocks.foldl DetPort.clock port).writer d).memory
    bunches.toNat ≤ 32 * words.length ∧ 32 * words.length < bunches.toNat + 32 ∧
      ∀ k, (reading memory turnClock reader (start + 1 + k)).readAddress.toNat =
          k % bunches.toNat ∧
        (reading memory turnClock reader (start + 1 + k + 4)).readDataO =
          (config d).bunchEnables ((k % bunches.toNat + delay.toNat) % bunches.toNat) := by
  intro words memory
  have hlength : words.length = (bunches.toNat + 31) / 32 :=
    (writeDetBunchEnableArray_spec hdelay _).1
  have hpos : 0 < bunches.toNat := by
    rw [BitVec.lt_def] at hdelay
    omega
  refine ⟨by omega, by omega, fun k => ?_⟩
  have hlt := Nat.mod_lt k hpos
  have haddress := reading_address memory reader hturn k
  constructor
  · rw [haddress, BitVec.toNat_ofNat, Nat.mod_eq_of_lt (by omega)]
  · have hmemory : memory =
        ((hwWriteDetConfig inputSelect bunches delay config).foldl DetContents.step
          port.contents).memory d := by
      rw [← hquiet.paced hclocks]
      rfl
    rw [reading_data, haddress, address_word (by omega), address_bit (by omega), hmemory]
    exact word_hwWriteDetConfig _ _ _ _ hfits hdelay _ d hlt

/-- Nothing written yet. -/
def idlePort : DetPort := ⟨0, fun _ => 0, 0, fun _ => ⟨0, false, 0, 0, fun _ => 0⟩⟩

theorem idlePort_quiet : idlePort.Quiet := ⟨rfl, fun _ => rfl, fun _ => rfl⟩

def idleReader : BunchReader := ⟨0, 0, 0, 0, fun _ => 0, false⟩

/-- The bunches that satisfy `p` in all detectors. -/
def enableAll (p : ℕ → Bool) : DetectorId → DetectorConfig := fun _ => ⟨true, 0, p⟩

/-- The writes as fast as they can be made. -/
abbrev configClocks (bunches delay : BitVec 32) (config : DetectorId → DetectorConfig) :
    List (Option DetWrite) :=
  (hwWriteDetConfig 0 bunches delay config).flatMap (Bus.settled DetWrite.settle)

/-- Every third of forty bunches, five on: the bunch 22 of a turn has the enable of 27. -/
theorem detector_bunch_enables_forty :
    (reading (((configClocks 40 5 (enableAll fun i => i % 3 = 0)).foldl DetPort.clock
        idlePort).writer 2).memory (fun t => decide ((t - 0) % 40 = 0)) idleReader
      (0 + 1 + 102 + 4)).readDataO = true :=
  ((@detector_bunch_enables 40 5 (by decide) (by decide) 0 (enableAll fun i => i % 3 = 0) idlePort
    idlePort_quiet _ (Bus.Paced.flatMap_settled _ _) 2 idleReader 0 _
    (turnClock_mod 40 0)).2.2 102).2

theorem memory_configClocks (bunches delay : BitVec 32) (config : DetectorId → DetectorConfig)
    (d : DetectorId) :
    (((configClocks bunches delay config).foldl DetPort.clock idlePort).writer d).memory =
      ((hwWriteDetConfig 0 bunches delay config).foldl DetContents.step
        idlePort.contents).memory d := by
  rw [← idlePort_quiet.paced (Bus.Paced.flatMap_settled DetWrite.settle _)]
  rfl

/-- A turn starts with the first bit. -/
theorem reading_first {turn start : ℕ} {turnClock : ℕ → Bool}
    (hturn : TurnClock turn start turnClock) (memory : BunchWordAddress → Word) (r : BunchReader) :
    (reading memory turnClock r (start + 1 + 0 + 4)).readDataO = (memory 0).getLsbD 0 := by
  rw [reading_data, reading_address memory r hturn 0, Nat.zero_mod]
  rfl

/-- The word for the place 64 is the last one at the place 0. -/
theorem word_wraps (config : DetectorId → DetectorConfig) (c : DetContents) (d : DetectorId) :
    (((hwWriteDetConfig 0 2049 0 config).foldl DetContents.step c).memory d 0).getLsbD 0 =
      (config d).bunchEnables 2048 := by
  obtain ⟨hlength, hbits⟩ := writeDetBunchEnableArray_spec
    (by decide : (0 : BitVec 32) < 2049) (config d).bunchEnables
  obtain ⟨w, hw, hbit⟩ := hbits 2048 (by decide)
  generalize hwords : writeDetBunchEnableArray 2049 0 (config d).bunchEnables = words at hlength hw
  have hlength' : words.length = 65 := hlength
  have hsplit : words = words.take 64 ++ [w] := by
    obtain ⟨hlt, hget⟩ := List.getElem?_eq_some_iff.mp (show words[64]? = some w from hw)
    rw [← hget, List.take_append_getElem hlt, List.take_of_length_le (by omega)]
  have htake : (words.take 64).length = 64 := by
    rw [List.length_take, hlength']
    rfl
  rw [memory_hwWriteDetConfig, hwords, hsplit, Bus.store_concat, htake]
  exact hbit

/-- With one bunch more than the memory has bits, the last word is written over the first. -/
theorem detector_bunch_enables_wrap :
    ¬ ∀ (bunches delay : BitVec 32) (config : DetectorId → DetectorConfig), delay < bunches →
      ∀ (d : DetectorId) (k : ℕ),
        (reading (((configClocks bunches delay config).foldl DetPort.clock idlePort).writer d).memory
            (fun t => decide ((t - 0) % bunches.toNat = 0)) idleReader
            (0 + 1 + k + 4)).readDataO =
          (config d).bunchEnables ((k % bunches.toNat + delay.toNat) % bunches.toNat) := by
  intro h
  have hread := h 2049 0 (enableAll fun i => i = 0) (by decide) 0 0
  rw [reading_first (turnClock_mod _ 0), memory_configClocks, word_wraps] at hread
  exact Bool.false_ne_true hread

end Mbf.Detector
