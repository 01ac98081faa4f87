import Mbf.Sequencer.Port

/-! # Writing the sequencer memories

The register writes of `hw_write_seq_config` and `hw_write_seq_bank0`, in their order, with the
mirror of `DSP.SEQ.CONFIG` that the software keeps, and what the port holds after them.  What the
sequencer then runs is the program of the configuration (`hwWriteSeqConfigWrites_program`). -/

namespace Mbf.Sequencer

/-! ### The software -/

/-- `DET_WINDOW_LENGTH`. -/
def detWindowLength : ℕ := 1024

/-- `struct seq_config` with its window. -/
structure WindowedConfig extends SeqConfig where
  window : ℕ → ℤ

/-- The values that the PVs admit in an entry, all fields included. -/
structure SeqEntry.Fits (entry : SeqEntry) : Prop extends entry.Admitted where
  bunchBank : entry.bunchBank < 4
  ncoGain : entry.ncoGain < 2 ^ 18
  windowRate : entry.windowRate < 2 ^ 32

/-- The configurations that the PVs admit; the values of the window have 16 bits. -/
structure WindowedConfig.Fits (config : WindowedConfig) : Prop
    extends config.toSeqConfig.Admitted where
  bank0 : config.bank0 < 4
  fits : ∀ i < maxSequencerCount, (config.entries i).Fits
  window : ∀ i < detWindowLength, -2 ^ 15 ≤ config.window i ∧ config.window i < 2 ^ 15

/-- `dsp_mirror[axis].seq_config`. -/
structure SeqMirror where
  pc : BitVec 3
  trigger : BitVec 3
  superCount : BitVec 11
  target : BitVec 2

/-- The mirror as it is written. -/
def SeqMirror.word (m : SeqMirror) : Word :=
  (0 : BitVec 13) ++ m.target ++ m.superCount ++ m.trigger ++ m.pc

/-- `WRITE_FIELDS(seq_command, .write = 1)`. -/
def commandWrite : SeqWrite := .command 2

/-- `write_sequencer_state`. -/
def stateWrites (state0 : Bool) (entry : SeqEntry) : List SeqWrite :=
  (List.finRange 8).map fun k => .write (writeSequencerState state0 entry k)

/-- `write_sequencer_entries`. -/
def writeSequencerEntries (bank0 : ℕ) (entries : Option (ℕ → SeqEntry)) (m : SeqMirror) :
    SeqMirror × List SeqWrite :=
  let m := { m with target := 0 }
  (m, commandWrite :: .config m.word :: stateWrites true (state0Entry bank0) ++
    match entries with
    | none => []
    | some entries =>
        (List.range maxSequencerCount).flatMap fun i => stateWrites false (entries i))

/-- `write_sequencer_window`. -/
def writeSequencerWindow (window : ℕ → ℤ) (m : SeqMirror) : SeqMirror × List SeqWrite :=
  let m := { m with target := 1 }
  (m, commandWrite :: .config m.word ::
    (List.range detWindowLength).map fun i => .write (BitVec.ofInt 32 (window i)))

/-- The two words of an offset. -/
def offsetWrites (offset : ℕ) : List SeqWrite :=
  [.write (BitVec.ofNat 32 offset), .write (BitVec.ofNat 32 (offset >>> 32))]

/-- `write_sequencer_super_entries`. -/
def writeSequencerSuperEntries (superCount : ℕ) (offsets : ℕ → ℕ) (m : SeqMirror) :
    SeqMirror × List SeqWrite :=
  let m := { m with target := 2, superCount := BitVec.ofNat 11 (superCount - 1) }
  (m, commandWrite :: .config m.word ::
    (List.range superCount).flatMap fun i => offsetWrites (offsets (superCount - 1 - i)))

/-- The mirror and the writes of `hw_write_seq_config`. -/
def hwWriteSeqConfigWrites (config : WindowedConfig) (m : SeqMirror) :
    SeqMirror × List SeqWrite :=
  let (m, entries) := writeSequencerEntries config.bank0 (some config.entries) m
  let (m, window) := writeSequencerWindow config.window m
  let (m, supers) := writeSequencerSuperEntries config.superSeqCount config.superOffsets m
  let m := { m with pc := BitVec.ofNat 3 config.sequencerPc }
  (m, entries ++ window ++ supers ++ [.config m.word])

/-- The mirror and the writes of `hw_write_seq_bank0`. -/
def hwWriteSeqBank0Writes (bank0 : ℕ) (m : SeqMirror) : SeqMirror × List SeqWrite :=
  writeSequencerEntries bank0 none m

/-! ### The fields of the configuration register -/

section mirror
variable (m : SeqMirror)

theorem SeqMirror.word_pc : m.word.extractLsb' 0 3 = m.pc := BitVec.extractLsb'_append_eq_right

theorem SeqMirror.word_superCount : m.word.extractLsb' 6 11 = m.superCount := by
  apply BitVec.eq_of_getLsbD_eq
  unfold SeqMirror.word
  grind

theorem SeqMirror.word_target : m.word.extractLsb' 17 2 = m.target := by
  apply BitVec.eq_of_getLsbD_eq
  unfold SeqMirror.word
  grind

end mirror

/-! ### The words of a block -/

/-- The place of a word of the program, of the window, and of an offset. -/
def programAddr (n : ℕ) : BitVec 6 := (BitVec.ofNat 12 n).extractLsb' 0 6
def windowAddr (n : ℕ) : BitVec 10 := (BitVec.ofNat 12 n).extractLsb' 0 10
def superAddr (n : ℕ) : BitVec 11 := (BitVec.ofNat 12 (2 * n)).extractLsb' 1 11

theorem programAddr_toNat {n : ℕ} (hn : n < 64) : (programAddr n).toNat = n := by
  unfold programAddr
  rw [BitVec.extractLsb'_toNat, BitVec.toNat_ofNat, Nat.shiftRight_zero]
  omega

theorem windowAddr_toNat {n : ℕ} (hn : n < detWindowLength) : (windowAddr n).toNat = n := by
  unfold windowAddr
  unfold detWindowLength at hn
  rw [BitVec.extractLsb'_toNat, BitVec.toNat_ofNat, Nat.shiftRight_zero]
  omega

theorem superAddr_toNat {n : ℕ} (hn : n < superSeqStates) : (superAddr n).toNat = n := by
  unfold superAddr
  unfold superSeqStates at hn
  rw [BitVec.extractLsb'_toNat, BitVec.toNat_ofNat, Nat.shiftRight_eq_div_pow]
  omega

/-- A memory with a block written to its first places. -/
theorem store_range {w bound n : ℕ} {addr : ℕ → BitVec w} {α : Type}
    (h : ∀ {k}, k < bound → (addr k).toNat = k) (hfits : n ≤ bound) (f : ℕ → α)
    (memory : BitVec w → α) (a : BitVec w) :
    Bus.store addr 0 ((List.range n).map f) memory a =
      if a.toNat < n then f a.toNat else memory a := by
  have hlength : ((List.range n).map f).length = n := by rw [List.length_map, List.length_range]
  split_ifs with ha
  · have hinj : Set.InjOn addr (Set.Iio bound) := by
      intro i hi j hj heq
      rw [← h hi, ← h hj, heq]
    have hplace : addr (0 + a.toNat) = a := by
      rw [Nat.zero_add]
      exact BitVec.eq_of_toNat_eq (h (ha.trans_le hfits))
    have hvalue : ((List.range n).map f)[a.toNat]? = some (f a.toNat) := by
      rw [List.getElem?_map, List.getElem?_range ha, Option.map_some]
    have hstored : Bus.store addr 0 _ memory (addr (0 + a.toNat)) = f a.toNat :=
      Bus.store_place hinj (by rwa [hlength, Nat.zero_add]) hvalue
    rwa [hplace] at hstored
  · apply Bus.store_other
    intro j _ hj heq
    rw [hlength, Nat.zero_add] at hj
    rw [← heq, h (hj.trans_le hfits)] at ha
    exact ha hj

/-! ### What a block writes -/

/-- What the port holds, with the part that a block writes. -/
def SeqContents.inBlock (c : SeqContents) (m : SeqMirror) (address : ℕ) : SeqContents :=
  { c with configRegister := m.word, writeAddress := BitVec.ofNat 12 address }

section blocks
variable (c : SeqContents) (m : SeqMirror)

/-- The start of a block. -/
theorem step_start (writes : List SeqWrite) :
    (commandWrite :: .config m.word :: writes).foldl SeqContents.step c =
      writes.foldl SeqContents.step (c.inBlock m 0) := rfl

theorem ofNat_succ (k : ℕ) : BitVec.ofNat 12 k + 1 = BitVec.ofNat 12 (k + 1) := by
  rw [BitVec.ofNat_add]
  rfl

/-- Words for the program memory. -/
theorem step_program (htarget : m.target = 0) (l : List Word) :
    (l.map SeqWrite.write).foldl SeqContents.step (c.inBlock m 0) =
      { c.inBlock m (0 + l.length) with
        programMemory := Bus.store programAddr 0 (l.map id) c.programMemory } := by
  rw [← List.flatMap_pure_eq_map]
  refine Bus.foldl_store (P := fun k memory t => t = { c.inBlock m k with programMemory := memory })
    ?_ l rfl
  rintro k memory word t rfl
  show SeqContents.step _ (.write word) = _
  unfold SeqContents.step SeqContents.writeWord SeqContents.inBlock
  dsimp only
  rw [m.word_target, htarget, ofNat_succ]
  rfl

/-- Words for the window. -/
theorem step_window (htarget : m.target = 1) (l : List Word) :
    (l.map SeqWrite.write).foldl SeqContents.step (c.inBlock m 0) =
      { c.inBlock m (0 + l.length) with
        windowMemory := Bus.store windowAddr 0 (l.map (·.extractLsb' 0 16)) c.windowMemory } := by
  rw [← List.flatMap_pure_eq_map]
  refine Bus.foldl_store (P := fun k memory t => t = { c.inBlock m k with windowMemory := memory })
    ?_ l rfl
  rintro k memory word t rfl
  show SeqContents.step _ (.write word) = _
  unfold SeqContents.step SeqContents.writeWord SeqContents.inBlock
  dsimp only
  rw [m.word_target, htarget, ofNat_succ]
  rfl

/-- The two words of an offset, from an even address. -/
theorem superAddr_words (k : ℕ) :
    (BitVec.ofNat 12 (2 * k)).getLsbD 0 = false ∧ (BitVec.ofNat 12 (2 * k + 1)).getLsbD 0 = true ∧
      (BitVec.ofNat 12 (2 * k + 1)).extractLsb' 1 11 = superAddr k := by
  refine ⟨?_, ?_, ?_⟩
  · rw [BitVec.getLsbD_ofNat, Nat.testBit_zero]
    simp
  · rw [BitVec.getLsbD_ofNat, Nat.testBit_zero]
    simp
  · apply BitVec.eq_of_toNat_eq
    unfold superAddr
    rw [BitVec.extractLsb'_toNat, BitVec.extractLsb'_toNat, BitVec.toNat_ofNat, BitVec.toNat_ofNat,
      Nat.shiftRight_eq_div_pow, Nat.shiftRight_eq_div_pow]
    omega

/-- An offset is gathered from its two words. -/
theorem gatherAngle_offset (data : Angle) (offset : ℕ) :
    gatherAngle (gatherAngle data false (BitVec.ofNat 32 offset)) true
      (BitVec.ofNat 32 (offset >>> 32)) = BitVec.ofNat 48 offset := by
  have hlow : gatherAngle data false (BitVec.ofNat 32 offset) =
      data.extractLsb' 32 16 ++ BitVec.ofNat 32 offset := rfl
  have hword : (data.extractLsb' 32 16 ++ BitVec.ofNat 32 offset).extractLsb' 0 32 =
      BitVec.ofNat 32 offset := BitVec.extractLsb'_append_eq_right
  have hhigh : (BitVec.ofNat 32 (offset >>> 32)).extractLsb' 0 16 =
      BitVec.ofNat 16 (offset >>> 32) := by
    apply BitVec.eq_of_toNat_eq
    rw [BitVec.extractLsb'_toNat, BitVec.toNat_ofNat, BitVec.toNat_ofNat, Nat.shiftRight_zero]
    omega
  rw [hlow]
  show (BitVec.ofNat 32 (offset >>> 32)).extractLsb' 0 16 ++
    (data.extractLsb' 32 16 ++ BitVec.ofNat 32 offset).extractLsb' 0 32 = _
  rw [hword, hhigh, ofNat_parts]

/-- Offsets for the super sequencer. -/
theorem step_super (htarget : m.target = 2) (l : List ℕ) :
    ∃ data, (l.flatMap offsetWrites).foldl SeqContents.step (c.inBlock m 0) =
      { c.inBlock m (2 * (0 + l.length)) with
        superWriteData := data
        superMemory := Bus.store superAddr 0 (l.map (BitVec.ofNat 48)) c.superMemory } := by
  refine Bus.foldl_store (P := fun k memory t => ∃ data, t = { c.inBlock m (2 * k) with
    superWriteData := data, superMemory := memory }) (k := 0) (t := c.inBlock m 0) ?_
    l ⟨c.superWriteData, rfl⟩
  rintro k memory offset t ⟨data, rfl⟩
  obtain ⟨heven, hodd, hplace⟩ := superAddr_words k
  have hword : ∀ (t : SeqContents) (word : Word), t.configRegister = m.word →
      t.step (.write word) = { t.writeSuper word with writeAddress := t.writeAddress + 1 } := by
    intro t word hregister
    unfold SeqContents.step SeqContents.writeWord
    dsimp only
    rw [hregister, m.word_target, htarget]
    rfl
  refine ⟨BitVec.ofNat 48 offset, ?_⟩
  show SeqContents.step (SeqContents.step _ (.write (BitVec.ofNat 32 offset)))
    (.write (BitVec.ofNat 32 (offset >>> 32))) = _
  rw [hword _ (BitVec.ofNat 32 offset) rfl, hword _ (BitVec.ofNat 32 (offset >>> 32)) rfl]
  unfold SeqContents.writeSuper SeqContents.inBlock
  dsimp only
  rw [heven, ofNat_succ, hodd, gatherAngle_offset, hplace, ofNat_succ]
  rfl

end blocks

/-! ### The configuration in the memories -/

/-- The words of states, one after the other. -/
theorem flatMap_words (word : ℕ → Fin 8 → Word) (n : ℕ) :
    ((List.range n).flatMap fun i => (List.finRange 8).map (word i)) =
      (List.range (8 * n)).map fun j => word (j / 8) (Fin.ofNat 8 j) := by
  induction n with
  | zero => rfl
  | succ n ih =>
      have hblock : (List.finRange 8).map (word n) =
          (List.range 8).map fun j => word ((8 * n + j) / 8) (Fin.ofNat 8 (8 * n + j)) := by
        rw [← List.map_coe_finRange_eq_range, List.map_map]
        apply List.map_congr_left
        intro k _
        have hk := k.isLt
        have hplace : Fin.ofNat 8 (8 * n + k.val) = k := by
          apply Fin.ext
          show (8 * n + k.val) % 8 = k.val
          omega
        show word n k = word ((8 * n + k.val) / 8) (Fin.ofNat 8 (8 * n + k.val))
        rw [hplace, show (8 * n + k.val) / 8 = n by omega]
      rw [List.range_succ, List.flatMap_append, ih, show 8 * (n + 1) = 8 * n + 8 by omega,
        List.range_add, List.map_append, List.flatMap_singleton, hblock, List.map_map]
      rfl

/-- The words of the first `n` states of a configuration. -/
def SeqConfig.words (config : SeqConfig) (n : ℕ) : List Word :=
  (List.range (8 * n)).map fun j =>
    writeSequencerState (decide (j / 8 = 0)) (config.entry (j / 8)) (Fin.ofNat 8 j)

theorem SeqConfig.words_writes (config : SeqConfig) (n : ℕ) :
    ((List.range n).flatMap fun i => stateWrites (decide (i = 0)) (config.entry i)) =
      (config.words n).map SeqWrite.write := by
  have hwords := flatMap_words (fun i => writeSequencerState (decide (i = 0)) (config.entry i)) n
  unfold SeqConfig.words
  rw [← hwords, List.map_flatMap]
  unfold stateWrites
  simp only [List.map_map, Function.comp_def]

section contents
variable (c : SeqContents) (m : SeqMirror)

theorem SeqConfig.words_length (config : SeqConfig) (n : ℕ) : (config.words n).length = 8 * n := by
  unfold SeqConfig.words
  rw [List.length_map, List.length_range]

/-- The port after the entries of the first `n` states. -/
theorem step_words (config : SeqConfig) (n : ℕ) :
    (commandWrite :: .config { m with target := 0 : SeqMirror }.word ::
        (config.words n).map SeqWrite.write).foldl SeqContents.step c =
      { c.inBlock { m with target := 0 } (8 * n) with
        programMemory := Bus.store programAddr 0 (config.words n) c.programMemory } := by
  rw [step_start, step_program _ _ rfl, config.words_length, List.map_id, Nat.zero_add]

/-- The entries of all states. -/
theorem writeSequencerEntries_all (config : SeqConfig) :
    (writeSequencerEntries config.bank0 (some config.entries) m).2 =
      commandWrite :: .config { m with target := 0 : SeqMirror }.word ::
        (config.words 8).map SeqWrite.write := by
  rw [← config.words_writes]
  rfl

/-- The entry of state 0. -/
theorem hwWriteSeqBank0Writes_words (config : SeqConfig) :
    (hwWriteSeqBank0Writes config.bank0 m).2 =
      commandWrite :: .config { m with target := 0 : SeqMirror }.word ::
        (config.words 1).map SeqWrite.write := by
  rw [← config.words_writes]
  rfl

/-- The words of a window. -/
@[irreducible] def windowWords (window : ℕ → ℤ) : List Word :=
  (List.range detWindowLength).map fun i => BitVec.ofInt 32 (window i)

/-- The offsets in the order of their states in the memory. -/
@[irreducible] def offsetList (superCount : ℕ) (offsets : ℕ → ℕ) : List ℕ :=
  (List.range superCount).map fun i => offsets (superCount - 1 - i)

/-- The port after `hw_write_seq_config`. -/
theorem step_config (config : WindowedConfig) :
    ∃ address data, (hwWriteSeqConfigWrites config m).2.foldl SeqContents.step c =
      { configRegister := (hwWriteSeqConfigWrites config m).1.word
        writeAddress := address
        programMemory := Bus.store programAddr 0 (config.words 8) c.programMemory
        windowMemory := Bus.store windowAddr 0
          ((windowWords config.window).map (·.extractLsb' 0 16)) c.windowMemory
        superWriteData := data
        superMemory := Bus.store superAddr 0
          ((offsetList config.superSeqCount config.superOffsets).map (BitVec.ofNat 48))
          c.superMemory } := by
  have hwindow : (writeSequencerWindow config.window { m with target := 0 }).2 =
      commandWrite :: .config { m with target := 1 : SeqMirror }.word ::
        (windowWords config.window).map SeqWrite.write := by
    unfold windowWords
    rw [List.map_map]
    rfl
  have hsuper : (writeSequencerSuperEntries config.superSeqCount config.superOffsets
      { m with target := 1 }).2 =
      commandWrite ::
        .config { m with target := 2, superCount := BitVec.ofNat 11 (config.superSeqCount - 1) :
          SeqMirror }.word ::
        (offsetList config.superSeqCount config.superOffsets).flatMap offsetWrites := by
    unfold offsetList
    rw [List.flatMap_map]
    rfl
  have hwrites : (hwWriteSeqConfigWrites config m).2 =
      (writeSequencerEntries config.bank0 (some config.entries) m).2 ++
        (writeSequencerWindow config.window { m with target := 0 }).2 ++
        (writeSequencerSuperEntries config.superSeqCount config.superOffsets
          { m with target := 1 }).2 ++ [.config (hwWriteSeqConfigWrites config m).1.word] := rfl
  obtain ⟨data, hdata⟩ := step_super
    { c.inBlock { m with target := 1 } (0 + (windowWords config.window).length) with
      programMemory := Bus.store programAddr 0 (config.words 8) c.programMemory
      windowMemory := Bus.store windowAddr 0
        ((windowWords config.window).map (·.extractLsb' 0 16)) c.windowMemory }
    { m with target := 2, superCount := BitVec.ofNat 11 (config.superSeqCount - 1) } rfl
    (offsetList config.superSeqCount config.superOffsets)
  refine ⟨BitVec.ofNat 12 (2 * (0 + (offsetList config.superSeqCount config.superOffsets).length)),
    data, ?_⟩
  rw [hwrites, List.foldl_append, List.foldl_append, List.foldl_append, writeSequencerEntries_all,
    step_words, hwindow, step_start, hsuper, step_start]
  have hblock := step_window
    { c.inBlock { m with target := 0 } (8 * 8) with
      programMemory := Bus.store programAddr 0 (config.words 8) c.programMemory }
    { m with target := 1 } rfl (windowWords config.window)
  rw [hblock]
  exact congrArg (·.step (.config (hwWriteSeqConfigWrites config m).1.word)) hdata

/-! ### The memories -/

/-- A word of the program memory. -/
theorem store_words (config : SeqConfig) {n : ℕ} (hn : n ≤ 8) (memory : BitVec 6 → Word)
    (a : BitVec 6) :
    Bus.store programAddr 0 (config.words n) memory a =
      if a.toNat < 8 * n then
        writeSequencerState (decide (a.toNat / 8 = 0)) (config.entry (a.toNat / 8))
          (Fin.ofNat 8 a.toNat)
      else memory a :=
  store_range programAddr_toNat (by omega) _ memory a

theorem hwWriteSeqConfig_words (config : SeqConfig) (old : BitVec 11 → Angle)
    (memory : BitVec 6 → Word) :
    Bus.store programAddr 0 (config.words 8) memory = (hwWriteSeqConfig config old).memory := by
  funext a
  have ha := a.isLt
  have hstate : (a.extractLsb' 3 3).toNat = a.toNat / 8 := by
    rw [BitVec.extractLsb'_toNat, Nat.shiftRight_eq_div_pow]
    omega
  have hplace : (a.extractLsb' 0 3).toFin = Fin.ofNat 8 a.toNat := by
    apply Fin.ext
    show (a.extractLsb' 0 3).toNat = a.toNat % 8
    rw [BitVec.extractLsb'_toNat, Nat.shiftRight_zero]
  have hzero : a.extractLsb' 3 3 = 0 ↔ a.toNat / 8 = 0 := by
    rw [← hstate]
    exact BitVec.toNat_inj.symm
  rw [store_words config le_rfl, if_pos (by omega)]
  unfold hwWriteSeqConfig
  dsimp only
  rw [hstate, hplace, decide_eq_decide.mpr hzero]

theorem hwWriteSeqConfig_offsets (config : SeqConfig) (old : BitVec 11 → Angle)
    (hcount : config.superSeqCount ≤ superSeqStates) :
    Bus.store superAddr 0
        ((offsetList config.superSeqCount config.superOffsets).map (BitVec.ofNat 48)) old =
      (hwWriteSeqConfig config old).superMemory := by
  funext a
  unfold offsetList
  rw [List.map_map, store_range superAddr_toNat hcount]
  rfl

/-- The firmware runs the program of the configuration. -/
theorem hwWriteSeqConfigWrites_program (config : WindowedConfig)
    (hcount : config.superSeqCount ≤ superSeqStates) :
    ((hwWriteSeqConfigWrites config m).2.foldl SeqContents.step c).program =
      hwWriteSeqConfig config.toSeqConfig c.superMemory := by
  obtain ⟨address, data, hcontents⟩ := step_config c m config
  rw [hcontents]
  unfold SeqContents.program
  dsimp only
  rw [SeqMirror.word_pc, SeqMirror.word_superCount,
    hwWriteSeqConfig_words config.toSeqConfig c.superMemory,
    hwWriteSeqConfig_offsets config.toSeqConfig c.superMemory hcount]
  rfl

theorem ofInt_extract (x : ℤ) : (BitVec.ofInt 32 x).extractLsb' 0 16 = BitVec.ofInt 16 x := by
  apply BitVec.eq_of_toNat_eq
  rw [BitVec.extractLsb'_toNat, BitVec.toNat_ofInt, BitVec.toNat_ofInt, Nat.shiftRight_zero]
  omega

/-- The window is that of the configuration. -/
theorem hwWriteSeqConfigWrites_window (config : WindowedConfig) {a : BitVec 10} :
    ((hwWriteSeqConfigWrites config m).2.foldl SeqContents.step c).windowMemory a =
      BitVec.ofInt 16 (config.window a.toNat) := by
  obtain ⟨address, data, hcontents⟩ := step_config c m config
  rw [hcontents]
  show Bus.store _ _ _ _ _ = _
  unfold windowWords
  rw [List.map_map, store_range windowAddr_toNat le_rfl, if_pos (show _ < detWindowLength from a.isLt)]
  exact ofInt_extract _

/-- `hw_write_seq_bank0` writes the words of state 0, and nothing else. -/
theorem hwWriteSeqBank0Writes_contents (config : SeqConfig) :
    (hwWriteSeqBank0Writes config.bank0 m).2.foldl SeqContents.step c =
      { c.inBlock { m with target := 0 } 8 with
        programMemory := Bus.store programAddr 0 (config.words 1) c.programMemory } := by
  rw [hwWriteSeqBank0Writes_words, step_words]

end contents

end Mbf.Sequencer
