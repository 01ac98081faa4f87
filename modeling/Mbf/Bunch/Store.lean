import Mathlib.Data.BitVec
import Mathlib.Logic.Function.Basic
import Mathlib.Data.List.FinRange
import Mathlib.Tactic.Ring
import Mbf.Lib.Bus
import Mbf.Lib.Literals

/-! # The bunch memory

`bunch_store` with the bank register of `bunch_select`: three writes to the bank register make an
entry, which is written to the memory on the clock after the last of them, and
`to_bunch_config_t` takes an entry apart again.  On the other side is `hw_write_bunch_config`,
which writes the configuration of all bunches of a bank.

The gains have 18 bits, their upper bits in the first two words, and the lower bits, with the rest
of the configuration, in the third. -/

namespace Mbf.Bunch

/-- `BUNCH_BANKS`. -/
abbrev BankId := Fin 4

/-! ### The circuit -/

/-- A write to `DSP.BUNCH.CONFIG` or to `DSP.BUNCH.BANK`. -/
inductive BunchWrite where
  | config (data : BitVec 32)
  | bank (data : BitVec 32)

/-- `write_phase_t`. -/
inductive WritePhase where
  | word0 | word1 | word2
deriving DecidableEq

/-- The address of an entry: the bank and the bunch. -/
abbrev BunchAddress := BitVec 13

/-- The bits of an entry, `BUNCH_CONFIG_BITS`. -/
abbrev BunchBits := BitVec 93

/-- The registers of `bunch_store`, the bank register, and the memory. -/
structure BunchStore where
  configRegister : BitVec 32
  writeWord0 : BitVec 32
  writeWord1 : BitVec 32
  writeWord2 : BitVec 29
  writePhase : WritePhase
  writeBunch : BitVec 11
  writeStrobe : Bool
  writeAddr : BunchAddress
  memory : BunchAddress → BunchBits

namespace BunchStore

/-- `write_bank`. -/
def writeBank (s : BunchStore) : BitVec 2 := s.configRegister.setWidth 2

/-- The memory after the write that is on its way. -/
def stored (s : BunchStore) : BunchAddress → BunchBits :=
  if s.writeStrobe then
    Function.update s.memory s.writeAddr (s.writeWord2 ++ s.writeWord1 ++ s.writeWord0)
  else s.memory

/-- A clock of `bunch_store`, with the write to one of its registers, if there is one. -/
def clock (s : BunchStore) (input : Option BunchWrite) : BunchStore :=
  let s' := { s with writeStrobe := false, memory := s.stored }
  match input with
  | none => s'
  | some (.config data) =>
      { s' with configRegister := data, writeBunch := 0, writePhase := .word0 }
  | some (.bank data) =>
      match s.writePhase with
      | .word0 => { s' with writeWord0 := data, writePhase := .word1 }
      | .word1 => { s' with writeWord1 := data, writePhase := .word2 }
      | .word2 =>
          { s' with
            writeWord2 := data.setWidth 29
            writePhase := .word0
            writeAddr := s.writeBank ++ s.writeBunch
            writeBunch := s.writeBunch + 1
            writeStrobe := true }

end BunchStore

/-- `bunch_config_t`. -/
structure BunchConfigT where
  firSelect : BitVec 2
  firEnable : Bool
  firGain : BitVec 18
  nco0Gain : BitVec 18
  nco1Gain : BitVec 18
  nco2Gain : BitVec 18
  nco3Gain : BitVec 18
deriving DecidableEq

/-- `to_bunch_config_t`. -/
def toBunchConfigT (bits : BunchBits) : BunchConfigT :=
  let word0 := bits.extractLsb' 0 32
  let word1 := bits.extractLsb' 32 32
  let word2 := bits.extractLsb' 64 29
  { firSelect := word2.extractLsb' 0 2
    firEnable := word2.getLsbD 20
    firGain := word2.extractLsb' 2 18
    nco0Gain := word0.extractLsb' 0 16 ++ word2.extractLsb' 21 2
    nco1Gain := word0.extractLsb' 16 16 ++ word2.extractLsb' 23 2
    nco2Gain := word1.extractLsb' 0 16 ++ word2.extractLsb' 25 2
    nco3Gain := word1.extractLsb' 16 16 ++ word2.extractLsb' 27 2 }

/-! ### The program -/

/-- `struct bunch_config`. -/
structure BunchConfig (bunches : ℕ) where
  firSelect : Fin bunches → BitVec 8
  firEnable : Fin bunches → Bool
  firGains : Fin bunches → ℤ
  nco0Gains : Fin bunches → ℤ
  nco1Gains : Fin bunches → ℤ
  nco2Gains : Fin bunches → ℤ
  nco3Gains : Fin bunches → ℤ

namespace BunchConfig
variable {bunches : ℕ} (config : BunchConfig bunches) (i : Fin bunches)

/-- The upper bits of a gain. -/
def high (gain : ℤ) : BitVec 16 := (BitVec.ofInt 32 gain >>> 2).setWidth 16

/-- The lower bits of a gain. -/
def low (gain : ℤ) : BitVec 2 := (BitVec.ofInt 32 gain).setWidth 2

/-- `NCO01`. -/
def nco01 : BitVec 32 := high (config.nco1Gains i) ++ high (config.nco0Gains i)

/-- `NCO23`. -/
def nco23 : BitVec 32 := high (config.nco3Gains i) ++ high (config.nco2Gains i)

/-- `EXTRA`. -/
def extra : BitVec 32 :=
  (0 : BitVec 3) ++ low (config.nco3Gains i) ++ low (config.nco2Gains i) ++
    low (config.nco1Gains i) ++ low (config.nco0Gains i) ++
    BitVec.ofBool (config.firEnable i) ++ (BitVec.ofInt 32 (config.firGains i)).setWidth 18 ++
    (config.firSelect i).setWidth 2

end BunchConfig

/-- `hw_write_bunch_config`. -/
def hwWriteBunchConfig {bunches : ℕ} (bank : BankId) (config : BunchConfig bunches) :
    List BunchWrite :=
  .config (BitVec.ofNat 32 bank.val) :: (List.finRange bunches).flatMap fun i =>
    [.bank (config.nco01 i), .bank (config.nco23 i), .bank (config.extra i)]

/-! ### The writes -/

/-- What the writes depend on, with the memory as it will be. -/
structure Port where
  writeBank : BitVec 2
  writeWord0 : BitVec 32
  writeWord1 : BitVec 32
  writePhase : WritePhase
  writeBunch : BitVec 11
  stored : BunchAddress → BunchBits

def BunchStore.port (s : BunchStore) : Port where
  writeBank := s.writeBank
  writeWord0 := s.writeWord0
  writeWord1 := s.writeWord1
  writePhase := s.writePhase
  writeBunch := s.writeBunch
  stored := s.stored

/-- What a write does. -/
def Port.step (p : Port) : BunchWrite → Port
  | .config data =>
      { p with writeBank := data.setWidth 2, writeBunch := 0, writePhase := .word0 }
  | .bank data =>
      match p.writePhase with
      | .word0 => { p with writeWord0 := data, writePhase := .word1 }
      | .word1 => { p with writeWord1 := data, writePhase := .word2 }
      | .word2 =>
          { p with
            writePhase := .word0
            writeBunch := p.writeBunch + 1
            stored := Function.update p.stored (p.writeBank ++ p.writeBunch)
              (data.setWidth 29 ++ p.writeWord1 ++ p.writeWord0) }

theorem BunchStore.port_idle (s : BunchStore) : (s.clock none).port = s.port := rfl

theorem BunchStore.port_write (s : BunchStore) (w : BunchWrite) :
    (s.clock (some w)).port = s.port.step w := by
  cases w with
  | config data => rfl
  | bank data =>
      obtain ⟨configRegister, word0, word1, word2, phase, bunch, strobe, addr, memory⟩ := s
      cases phase <;> rfl

/-- The memory a clock after some writes. -/
theorem BunchStore.memory_foldl (s : BunchStore) (clocks : List (Option BunchWrite)) :
    ((clocks ++ [none]).foldl BunchStore.clock s).memory =
      (clocks.reduceOption.foldl Port.step s.port).stored := by
  have hview := Bus.view_foldl BunchStore.port_idle BunchStore.port_write clocks s
  rw [List.foldl_append]
  exact congrArg Port.stored hview

/-! ### A bank -/

/-- Entries at successive bunches of a bank. -/
def storeEntries (bank : BitVec 2) : BitVec 11 → List BunchBits → (BunchAddress → BunchBits) →
    BunchAddress → BunchBits
  | _, [], memory => memory
  | bunch, entry :: rest, memory =>
      storeEntries bank (bunch + 1) rest (Function.update memory (bank ++ bunch) entry)

theorem address_inj {bank bank' : BitVec 2} {bunch bunch' : BitVec 11} :
    (bank ++ bunch : BunchAddress) = bank' ++ bunch' ↔ bank = bank' ∧ bunch = bunch' := by
  refine ⟨?_, fun h => by rw [h.1, h.2]⟩
  intro h
  have hnat := congrArg BitVec.toNat h
  rw [BitVec.toNat_append, BitVec.toNat_append, ← Nat.shiftLeft_add_eq_or_of_lt bunch.isLt,
    ← Nat.shiftLeft_add_eq_or_of_lt bunch'.isLt, Nat.shiftLeft_eq, Nat.shiftLeft_eq] at hnat
  have hlt := bunch.isLt
  have hlt' := bunch'.isLt
  exact ⟨BitVec.eq_of_toNat_eq (by omega), BitVec.eq_of_toNat_eq (by omega)⟩

/-- Other banks are left alone. -/
theorem storeEntries_other {bank bank' : BitVec 2} (h : bank' ≠ bank) (bunch bunch' : BitVec 11)
    (entries : List BunchBits) (memory : BunchAddress → BunchBits) :
    storeEntries bank bunch entries memory (bank' ++ bunch') = memory (bank' ++ bunch') := by
  induction entries generalizing bunch memory with
  | nil => rfl
  | cons entry rest ih =>
      rw [storeEntries, ih, Function.update_of_ne]
      intro heq
      exact h (address_inj.mp heq).1

/-- Bunches below the first one are left alone, if the address does not wrap. -/
theorem storeEntries_below (bank : BitVec 2) {first k : ℕ} (entries : List BunchBits)
    (memory : BunchAddress → BunchBits) (hk : k < first) (hfits : first + entries.length ≤ 2 ^ 11) :
    storeEntries bank (BitVec.ofNat 11 first) entries memory (bank ++ BitVec.ofNat 11 k) =
      memory (bank ++ BitVec.ofNat 11 k) := by
  induction entries generalizing first memory with
  | nil => rfl
  | cons entry rest ih =>
      rw [List.length_cons] at hfits
      have hnext : BitVec.ofNat 11 first + 1 = BitVec.ofNat 11 (first + 1) := by
        rw [BitVec.ofNat_add]
        rfl
      rw [storeEntries, hnext, ih _ (by omega) (by omega), Function.update_of_ne]
      intro heq
      have hnat := congrArg BitVec.toNat (address_inj.mp heq).2
      rw [BitVec.toNat_ofNat, BitVec.toNat_ofNat, Nat.mod_eq_of_lt (by omega),
        Nat.mod_eq_of_lt (by omega)] at hnat
      omega

/-- Each bunch gets its own entry, if the address does not wrap. -/
theorem storeEntries_getElem (bank : BitVec 2) {first k : ℕ} {entries : List BunchBits}
    {entry : BunchBits} (memory : BunchAddress → BunchBits) (hk : entries[k]? = some entry)
    (hfits : first + entries.length ≤ 2 ^ 11) :
    storeEntries bank (BitVec.ofNat 11 first) entries memory
      (bank ++ BitVec.ofNat 11 (first + k)) = entry := by
  induction entries generalizing first k memory with
  | nil => simp at hk
  | cons e rest ih =>
      rw [List.length_cons] at hfits
      have hnext : BitVec.ofNat 11 first + 1 = BitVec.ofNat 11 (first + 1) := by
        rw [BitVec.ofNat_add]
        rfl
      rw [storeEntries, hnext]
      cases k with
      | zero =>
          rw [List.getElem?_cons_zero, Option.some.injEq] at hk
          have hbelow := storeEntries_below bank rest
            (Function.update memory (bank ++ BitVec.ofNat 11 first) e)
            (Nat.lt_succ_self first) (by omega)
          rw [Nat.add_zero]
          exact hbelow.trans ((Function.update_self _ _ _).trans hk)
      | succ k =>
          have hplace : first + (k + 1) = first + 1 + k := by omega
          rw [hplace]
          exact ih _ hk (by omega)

section config
variable {bunches : ℕ}

/-- The entry of a bunch. -/
def BunchConfig.entry (config : BunchConfig bunches) (i : Fin bunches) : BunchBits :=
  (config.extra i).setWidth 29 ++ config.nco23 i ++ config.nco01 i

/-- The parts of a gain make the gain. -/
theorem high_append_low (gain : ℤ) :
    BunchConfig.high gain ++ BunchConfig.low gain = (BitVec.ofInt 32 gain).setWidth 18 := by
  unfold BunchConfig.high BunchConfig.low
  generalize BitVec.ofInt 32 gain = x
  apply BitVec.eq_of_getLsbD_eq
  grind

/-- The words of an entry. -/
theorem entry_words (word2 : BitVec 29) (word1 word0 : BitVec 32) :
    (word2 ++ word1 ++ word0).extractLsb' 0 32 = word0 ∧
    (word2 ++ word1 ++ word0).extractLsb' 32 32 = word1 ∧
    (word2 ++ word1 ++ word0).extractLsb' 64 29 = word2 := by
  refine ⟨BitVec.extractLsb'_append_eq_right, ?_, ?_⟩
  · rw [BitVec.extractLsb'_append_eq_of_le (by decide)]
    exact BitVec.extractLsb'_append_eq_right
  · rw [BitVec.extractLsb'_append_eq_of_le (by decide)]
    exact BitVec.extractLsb'_append_eq_left

/-- The fields of the third word. -/
theorem extra_fields (low3 low2 low1 low0 : BitVec 2) (enable : Bool) (gain : BitVec 18)
    (select : BitVec 2) :
    let word2 := ((0 : BitVec 3) ++ low3 ++ low2 ++ low1 ++ low0 ++ BitVec.ofBool enable ++ gain ++
      select : BitVec 32).setWidth 29
    word2.extractLsb' 0 2 = select ∧ word2.getLsbD 20 = enable ∧ word2.extractLsb' 2 18 = gain ∧
      word2.extractLsb' 21 2 = low0 ∧ word2.extractLsb' 23 2 = low1 ∧
      word2.extractLsb' 25 2 = low2 ∧ word2.extractLsb' 27 2 = low3 := by
  intro word2
  have hfield : ∀ {x : BitVec 32} {start : ℕ}, start + 2 ≤ 29 →
      (x.setWidth 29).extractLsb' start 2 = x.extractLsb' start 2 :=
    fun h => BitVec.extractLsb'_setWidth_of_le h
  refine ⟨?_, ?_, ?_, ?_, ?_, ?_, ?_⟩
  · rw [hfield (by decide)]
    exact BitVec.extractLsb'_append_eq_right
  · cases enable <;> grind
  · rw [BitVec.extractLsb'_setWidth_of_le (by decide), BitVec.extractLsb'_append_eq_of_le (by decide)]
    exact BitVec.extractLsb'_append_eq_right
  · rw [hfield (by decide), BitVec.extractLsb'_append_eq_of_le (by decide),
      BitVec.extractLsb'_append_eq_of_le (by decide), BitVec.extractLsb'_append_eq_of_le (by decide)]
    exact BitVec.extractLsb'_append_eq_right
  · rw [hfield (by decide), BitVec.extractLsb'_append_eq_of_le (by decide),
      BitVec.extractLsb'_append_eq_of_le (by decide), BitVec.extractLsb'_append_eq_of_le (by decide),
      BitVec.extractLsb'_append_eq_of_le (by decide)]
    exact BitVec.extractLsb'_append_eq_right
  · rw [hfield (by decide), BitVec.extractLsb'_append_eq_of_le (by decide),
      BitVec.extractLsb'_append_eq_of_le (by decide), BitVec.extractLsb'_append_eq_of_le (by decide),
      BitVec.extractLsb'_append_eq_of_le (by decide), BitVec.extractLsb'_append_eq_of_le (by decide)]
    exact BitVec.extractLsb'_append_eq_right
  · rw [hfield (by decide), BitVec.extractLsb'_append_eq_of_le (by decide),
      BitVec.extractLsb'_append_eq_of_le (by decide), BitVec.extractLsb'_append_eq_of_le (by decide),
      BitVec.extractLsb'_append_eq_of_le (by decide), BitVec.extractLsb'_append_eq_of_le (by decide),
      BitVec.extractLsb'_append_eq_of_le (by decide)]
    exact BitVec.extractLsb'_append_eq_right

/-- What becomes of an entry. -/
theorem toBunchConfigT_entry (config : BunchConfig bunches) (i : Fin bunches) :
    toBunchConfigT (config.entry i) =
      { firSelect := (config.firSelect i).setWidth 2
        firEnable := config.firEnable i
        firGain := (BitVec.ofInt 32 (config.firGains i)).setWidth 18
        nco0Gain := (BitVec.ofInt 32 (config.nco0Gains i)).setWidth 18
        nco1Gain := (BitVec.ofInt 32 (config.nco1Gains i)).setWidth 18
        nco2Gain := (BitVec.ofInt 32 (config.nco2Gains i)).setWidth 18
        nco3Gain := (BitVec.ofInt 32 (config.nco3Gains i)).setWidth 18 } := by
  obtain ⟨hword0, hword1, hword2⟩ :=
    entry_words ((config.extra i).setWidth 29) (config.nco23 i) (config.nco01 i)
  obtain ⟨hselect, henable, hgain, h0, h1, h2, h3⟩ := extra_fields
    (BunchConfig.low (config.nco3Gains i)) (BunchConfig.low (config.nco2Gains i))
    (BunchConfig.low (config.nco1Gains i)) (BunchConfig.low (config.nco0Gains i))
    (config.firEnable i) ((BitVec.ofInt 32 (config.firGains i)).setWidth 18)
    ((config.firSelect i).setWidth 2)
  unfold toBunchConfigT BunchConfig.entry
  dsimp only
  rw [hword0, hword1, hword2]
  unfold BunchConfig.extra BunchConfig.nco01 BunchConfig.nco23
  simp only [BitVec.extractLsb'_append_eq_right, BitVec.extractLsb'_append_eq_left, hselect,
    henable, hgain, h0, h1, h2, h3, high_append_low]

/-- The writes of some bunches. -/
theorem step_bunches (config : BunchConfig bunches) (l : List (Fin bunches)) (p : Port)
    (hphase : p.writePhase = .word0) :
    ((l.flatMap fun i => [BunchWrite.bank (config.nco01 i), .bank (config.nco23 i),
        .bank (config.extra i)]).foldl Port.step p).stored =
      storeEntries p.writeBank p.writeBunch (l.map config.entry) p.stored := by
  induction l generalizing p with
  | nil => rfl
  | cons i l ih =>
      obtain ⟨bank, word0, word1, phase, bunch, stored⟩ := p
      obtain rfl : phase = .word0 := hphase
      rw [List.flatMap_cons, List.foldl_append]
      exact ih _ rfl

/-- The memory after the configuration of a bank. -/
theorem step_hwWriteBunchConfig (bank : BankId) (config : BunchConfig bunches) (p : Port) :
    ((hwWriteBunchConfig bank config).foldl Port.step p).stored =
      storeEntries (BitVec.ofFin bank) 0 ((List.finRange bunches).map config.entry) p.stored := by
  have hbank : (BitVec.ofNat 32 bank.val).setWidth 2 = BitVec.ofFin bank := by
    revert bank
    decide
  unfold hwWriteBunchConfig
  rw [List.foldl_cons, step_bunches _ _ _ rfl]
  show storeEntries ((BitVec.ofNat 32 bank.val).setWidth 2) _ _ _ = _
  rw [hbank]
  rfl

end config

end Mbf.Bunch
