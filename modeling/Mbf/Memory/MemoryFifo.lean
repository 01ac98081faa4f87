import Mathlib.Data.Bool.Basic
import Mbf.Lib.Clocked
import Mbf.Lib.RingBuffer
import Mbf.TunePll.Fifo

/-! # The FIFO in block memory

`memory_fifo.vhd` keeps a queue in three places: a register for the word that has been written last,
the memory, and a register for the word that is to be read next.  A word goes on from one place to
the next as soon as there is room for it, so that the FIFO can hold two words more than its memory,
one more than the depth that it reports.

The pointers have at least one bit.  What is not initialised in the source is arbitrary here. -/

namespace Mbf.Memory

/-- The registers of `memory_fifo`, where `n` is `FIFO_BITS`. -/
structure MemoryFifo (n : ℕ) (W : Type) where
  inPtr : BitVec n
  outPtr : BitVec n
  fifo : BitVec n → W
  full : Bool
  writeDataValid : Bool
  writeReady : Bool
  writeData : W
  readValid : Bool
  readData : W
  fifoDepth : BitVec (n + 1)

/-- What the circuit sees on a clock. -/
structure FifoInput (W : Type) where
  writeValid : Bool
  writeData : W
  readReady : Bool
  resetFifo : Bool

namespace MemoryFifo

variable {n : ℕ} {W : Type}

/-- The registers after power up. -/
def powerUp (fifo : BitVec n → W) (writeData readData : W) : MemoryFifo n W where
  inPtr := 0
  outPtr := 0
  fifo
  full := false
  writeDataValid := false
  writeReady := true
  writeData
  readValid := false
  readData
  fifoDepth := 0

/-! ### The signals -/

def nearlyFull (s : MemoryFifo n W) : Bool := s.inPtr + 1 = s.outPtr

def empty (s : MemoryFifo n W) : Bool := s.inPtr = s.outPtr && !s.full

def writeEnable (s : MemoryFifo n W) (i : FifoInput W) : Bool := s.writeReady && i.writeValid

def doWrite (s : MemoryFifo n W) : Bool := s.writeDataValid && !s.full

def doRead (s : MemoryFifo n W) (i : FifoInput W) : Bool :=
  !s.empty && (i.readReady || !s.readValid)

/-- The process of `memory_fifo`. -/
def clock (i : FifoInput W) (s : MemoryFifo n W) : MemoryFifo n W where
  fifo :=
    if i.resetFifo then s.fifo
    else if s.doWrite then Function.update s.fifo s.inPtr s.writeData
    else s.fifo
  inPtr := if i.resetFifo then 0 else if s.doWrite then s.inPtr + 1 else s.inPtr
  readData := if i.resetFifo then s.readData else if s.doRead i then s.fifo s.outPtr else s.readData
  outPtr := if i.resetFifo then 0 else if s.doRead i then s.outPtr + 1 else s.outPtr
  full :=
    if i.resetFifo then false
    else if s.nearlyFull && s.doWrite && !s.doRead i then true
    else if s.doRead i then false
    else s.full
  writeReady := if i.resetFifo then false else !(s.full || s.nearlyFull)
  writeDataValid :=
    if i.resetFifo then false
    else if s.writeEnable i then true
    else if s.doWrite then false
    else s.writeDataValid
  writeData :=
    if i.resetFifo then s.writeData else if s.writeEnable i then i.writeData else s.writeData
  readValid :=
    if i.resetFifo then false
    else if s.doRead i then true
    else if i.readReady && !s.doRead i then false
    else s.readValid
  fifoDepth := (BitVec.ofBool s.full ++ (s.inPtr - s.outPtr)).cast (Nat.add_comm 1 n) +
    BitVec.ofNat (n + 1) s.readValid.toNat

/-! ### What is written and what is read -/

/-- The word that a clock takes from the writer. -/
def written (s : MemoryFifo n W) (i : FifoInput W) : List W :=
  if s.writeEnable i then [i.writeData] else []

/-- The word that a clock gives to the reader. -/
def read (s : MemoryFifo n W) (i : FifoInput W) : List W :=
  if s.readValid && i.readReady then [s.readData] else []

/-- The words that have been written since the last reset, before the clock `k`. -/
def accepted (s : MemoryFifo n W) (i : ℕ → FifoInput W) : ℕ → List W
  | 0 => []
  | k + 1 => if (i k).resetFifo then [] else accepted s i k ++ (Clocked.run clock s i k).written (i k)

/-- The words that have been read since the last reset, before the clock `k`. -/
def transferred (s : MemoryFifo n W) (i : ℕ → FifoInput W) : ℕ → List W
  | 0 => []
  | k + 1 => if (i k).resetFifo then [] else transferred s i k ++ (Clocked.run clock s i k).read (i k)

/-! ### The queue -/

/-- The words in the FIFO, the oldest first, with those in the memory given. -/
def held (s : MemoryFifo n W) (store : List W) : List W :=
  (if s.readValid then [s.readData] else []) ++ store ++
    (if s.writeDataValid then [s.writeData] else [])

/-- The memory holds the words of the list, and the FIFO knows whether it is full. -/
structure Holds (s : MemoryFifo n W) (store : List W) : Prop where
  stores : RingBuffer.Stores s.fifo s.outPtr store
  inPtr : s.inPtr = s.outPtr + BitVec.ofNat n store.length
  length : store.length ≤ 2 ^ n
  full : s.full = true ↔ store.length = 2 ^ n
  writeReady : s.writeReady = true → s.full = false

theorem holds_powerUp (fifo : BitVec n → W) (writeData readData : W) :
    (powerUp fifo writeData readData).Holds [] where
  stores := trivial
  inPtr := by simp [powerUp]
  length := Nat.zero_le _
  full := by simp [powerUp, (Nat.two_pow_pos n).ne]
  writeReady _ := rfl

section

variable {s : MemoryFifo n W} {store : List W} (i : FifoInput W)

theorem Holds.empty_iff (h : s.Holds store) : s.empty = true ↔ store = [] := by
  have hlength := h.length
  have hfull := h.full
  have hpos := Nat.two_pow_pos n
  unfold empty
  rw [Bool.and_eq_true, decide_eq_true_iff, h.inPtr, RingBuffer.add_ofNat_eq_iff, Bool.not_eq_true',
    ← List.length_eq_zero_iff, ← Bool.not_eq_true, hfull]
  constructor
  · rintro ⟨hdvd, hne⟩
    exact Nat.eq_zero_of_dvd_of_lt hdvd (by omega)
  · intro hzero
    rw [hzero]
    exact ⟨dvd_zero _, by omega⟩

theorem Holds.nearlyFull_iff (h : s.Holds store) :
    s.nearlyFull = true ↔ 2 ^ n ∣ store.length + 1 := by
  unfold nearlyFull
  rw [decide_eq_true_iff, h.inPtr, ← RingBuffer.add_ofNat_succ, RingBuffer.add_ofNat_eq_iff]

/-- The words in the memory after a clock. -/
def nextStore (s : MemoryFifo n W) (store : List W) (i : FifoInput W) : List W :=
  if i.resetFifo then []
  else (if s.doRead i then store.tail else store) ++ (if s.doWrite then [s.writeData] else [])

/-- A word can be stored if the memory is not full. -/
theorem Holds.doWrite_lt (h : s.Holds store) (hwrite : s.doWrite = true) :
    store.length < 2 ^ n := by
  have hlength := h.length
  have hfull := h.full
  unfold doWrite at hwrite
  rw [Bool.and_eq_true, Bool.not_eq_true', ← Bool.not_eq_true, hfull] at hwrite
  omega

/-- What is read is the oldest word in the memory. -/
theorem Holds.doRead_cons (h : s.Holds store) (hread : s.doRead i = true) :
    ∃ rest, store = s.fifo s.outPtr :: rest := by
  unfold doRead at hread
  rw [Bool.and_eq_true, Bool.not_eq_true', ← Bool.not_eq_true, h.empty_iff] at hread
  cases store with
  | nil => exact absurd rfl hread.1
  | cons x rest => exact ⟨rest, congrArg (· :: rest) h.stores.1.symm⟩

/-- The memory once a word has been read or not. -/
theorem Holds.taken (h : s.Holds store) :
    let outPtr := if s.doRead i then s.outPtr + 1 else s.outPtr
    let store' := if s.doRead i then store.tail else store
    RingBuffer.Stores s.fifo outPtr store' ∧ s.inPtr = outPtr + BitVec.ofNat n store'.length ∧
      store'.length + (s.doRead i).toNat = store.length := by
  cases hread : s.doRead i with
  | false => exact ⟨h.stores, h.inPtr, rfl⟩
  | true =>
      obtain ⟨rest, rfl⟩ := h.doRead_cons i hread
      refine ⟨h.stores.2, ?_, rfl⟩
      simp only [if_true, List.tail_cons]
      rw [RingBuffer.add_one_add_ofNat]
      exact h.inPtr

theorem Holds.nextStore_length (h : s.Holds store) (hreset : i.resetFifo = false) :
    (nextStore s store i).length + (s.doRead i).toNat = store.length + s.doWrite.toNat := by
  obtain ⟨-, -, hlength⟩ := h.taken i
  unfold nextStore
  rw [hreset, if_neg Bool.false_ne_true, List.length_append, Nat.add_right_comm, hlength]
  cases s.doWrite <;> rfl

/-- A write that fills the memory finds it nearly full. -/
theorem Holds.fills_iff (h : s.Holds store) (hwrite : s.doWrite = true) :
    s.nearlyFull = true ↔ store.length + 1 = 2 ^ n := by
  have hlt := h.doWrite_lt hwrite
  rw [h.nearlyFull_iff]
  constructor
  · intro hdvd
    exact le_antisymm hlt (Nat.le_of_dvd (Nat.succ_pos _) hdvd)
  · intro heq
    rw [heq]

theorem Holds.full_clock (h : s.Holds store) (hreset : i.resetFifo = false) :
    (clock i s).full = true ↔ (nextStore s store i).length = 2 ^ n := by
  have hlength := h.nextStore_length i hreset
  have hle := h.length
  have hpos := Nat.two_pow_pos n
  simp only [clock, hreset, Bool.false_eq_true, if_false]
  cases hread : s.doRead i with
  | true =>
      have hlt := h.doWrite_lt
      cases hwrite : s.doWrite <;> simp_all <;> omega
  | false =>
      cases hwrite : s.doWrite with
      | false =>
          have hfull := h.full
          simp_all
      | true =>
          have hnearly := h.fills_iff hwrite
          have hlt := h.doWrite_lt hwrite
          have hfull := h.full
          have hnext : (nextStore s store i).length = store.length + 1 := by
            simpa [hread, hwrite] using hlength
          rw [hnext, ← hnearly]
          cases hfills : s.nearlyFull with
          | true => simp
          | false =>
              have hnot : s.full ≠ true := fun hf => absurd (hfull.mp hf) hlt.ne
              simp [hnot]

/-- What a clock does to the memory. -/
theorem holds_clock (h : s.Holds store) : (clock i s).Holds (nextStore s store i) := by
  cases hreset : i.resetFifo with
  | true =>
      have hpos := Nat.two_pow_pos n
      refine ⟨?_, ?_, ?_, ?_, ?_⟩ <;>
        simp [MemoryFifo.clock, nextStore, hreset, RingBuffer.Stores, hpos.ne]
  | false =>
      obtain ⟨hstores, hin, htaken⟩ := h.taken i
      have hlength := h.nextStore_length i hreset
      have hle := h.length
      have hlt := h.doWrite_lt
      refine ⟨?_, ?_, ?_, h.full_clock i hreset, ?_⟩
      · simp only [MemoryFifo.clock, nextStore, hreset, Bool.false_eq_true, if_false]
        cases hwrite : s.doWrite with
        | false => simpa using hstores
        | true =>
            simp only [if_true]
            have hfits := hlt hwrite
            have hpush := hstores.push (by omega) s.writeData
            rwa [← hin] at hpush
      · simp only [MemoryFifo.clock, nextStore, hreset, Bool.false_eq_true, if_false]
        cases hwrite : s.doWrite with
        | false => simpa using hin
        | true =>
            simp only [if_true, List.length_append, List.length_singleton]
            rw [RingBuffer.add_ofNat_succ, ← hin]
      · cases hwrite : s.doWrite with
        | false => simp [hwrite] at hlength; omega
        | true =>
            have hfits := hlt hwrite
            simp [hwrite] at hlength; omega
      · intro hready
        simp only [MemoryFifo.clock, hreset, Bool.false_eq_true, if_false] at hready ⊢
        rw [Bool.not_eq_true', Bool.or_eq_false_iff] at hready
        simp [hready.1, hready.2]

/-- The word to be read next is given away if the reader is ready, and replaced from the memory. -/
theorem Holds.front_clock (h : s.Holds store) (hreset : i.resetFifo = false) :
    (if s.readValid then [s.readData] else []) ++ store =
      s.read i ++ (if (clock i s).readValid then [(clock i s).readData] else []) ++
        (if s.doRead i then store.tail else store) := by
  have hdoRead : s.doRead i = (!s.empty && (i.readReady || !s.readValid)) := rfl
  simp only [read, MemoryFifo.clock, hreset, Bool.false_eq_true, if_false]
  cases hread : s.doRead i with
  | true =>
      obtain ⟨rest, rfl⟩ := h.doRead_cons i hread
      rw [hread] at hdoRead
      cases hvalid : s.readValid with
      | false => simp
      | true =>
          rw [hvalid] at hdoRead
          cases hready : i.readReady with
          | false => simp [hready] at hdoRead
          | true => simp
  | false =>
      cases hvalid : s.readValid with
      | false => simp
      | true => cases i.readReady <;> simp

/-- The word that was written last is stored if the memory is not full, and only replaced then. -/
theorem Holds.back_clock (h : s.Holds store) (hreset : i.resetFifo = false) :
    (if s.writeDataValid then [s.writeData] else []) ++ s.written i =
      (if s.doWrite then [s.writeData] else []) ++
        (if (clock i s).writeDataValid then [(clock i s).writeData] else []) := by
  have hdoWrite : s.doWrite = (s.writeDataValid && !s.full) := rfl
  have henable : s.writeEnable i = (s.writeReady && i.writeValid) := rfl
  have hready := h.writeReady
  simp only [written, MemoryFifo.clock, hreset, Bool.false_eq_true, if_false]
  cases hwrite : s.writeEnable i with
  | true =>
      have hfull : s.full = false := by
        refine hready ?_
        rw [hwrite] at henable
        exact (Bool.and_eq_true_iff.mp henable.symm).1
      rw [hdoWrite, hfull]
      cases s.writeDataValid <;> rfl
  | false => cases hvalid : s.writeDataValid <;> cases hfull : s.full <;> simp_all

/-- On each clock the FIFO gives its oldest word to the reader if it is ready, and takes a word from
the writer, and nothing else changes. -/
theorem Holds.held_clock (h : s.Holds store) (hreset : i.resetFifo = false) :
    s.held store ++ s.written i = s.read i ++ (clock i s).held (nextStore s store i) := by
  have hfront := h.front_clock i hreset
  have hback := h.back_clock i hreset
  unfold held nextStore
  rw [List.append_assoc _ _ (s.written i), hback, hfront, hreset, if_neg Bool.false_ne_true]
  simp only [List.append_assoc]

/-- What is held after a reset. -/
theorem held_reset (hreset : i.resetFifo = true) : (clock i s).held (nextStore s store i) = [] := by
  simp [held, clock, nextStore, hreset]

theorem Holds.held_length (h : s.Holds store) : (s.held store).length ≤ 2 ^ n + 2 := by
  have hle := h.length
  unfold held
  rw [List.length_append, List.length_append]
  split_ifs <;> simp <;> omega

/-- A word that is not read stays. -/
theorem read_waits (hreset : i.resetFifo = false) (hvalid : s.readValid = true)
    (hready : i.readReady = false) :
    (clock i s).readValid = true ∧ (clock i s).readData = s.readData := by
  simp [clock, doRead, hreset, hvalid, hready]

/-- The depth that is reported: the words in the memory and the one to be read next. -/
theorem Holds.fifoDepth_clock (h : s.Holds store) :
    (clock i s).fifoDepth.toNat = (store.length + s.readValid.toNat) % 2 ^ (n + 1) := by
  have hle := h.length
  have hpos := Nat.two_pow_pos n
  have hstored : (BitVec.ofBool s.full ++ (s.inPtr - s.outPtr)).toNat = store.length := by
    rw [BitVec.toNat_append, ← Nat.shiftLeft_add_eq_or_of_lt (BitVec.isLt _), Nat.shiftLeft_eq]
    cases hfull : s.full with
    | true =>
        have hlength := h.full.mp hfull
        have hround : s.inPtr = s.outPtr := by
          rw [h.inPtr, RingBuffer.add_ofNat_eq_iff, hlength]
        rw [hround, BitVec.sub_self, hlength]
        simp
    | false =>
        have hlt : store.length < 2 ^ n :=
          lt_of_le_of_ne hle fun heq => by simpa [hfull] using h.full.mpr heq
        rw [h.inPtr, RingBuffer.add_ofNat_sub _ hlt]
        simp
  unfold clock
  rw [BitVec.toNat_add, BitVec.toNat_cast, BitVec.toNat_ofNat, hstored, Nat.add_mod_mod]

theorem Holds.fifoDepth_le (h : s.Holds store) : (clock i s).fifoDepth.toNat ≤ 2 ^ n + 1 := by
  rw [h.fifoDepth_clock]
  exact (Nat.mod_le _ _).trans (Nat.add_le_add h.length (Bool.toNat_le _))

/-! ### Progress -/

/-- A bound on the clocks before the oldest `left` words have been read, if the reader is ready. -/
def rank (s : MemoryFifo n W) (store : List W) (left : ℕ) : ℕ :=
  2 * left + if s.readValid then 0 else if store = [] then 2 else 1

/-- A clock on which the reader is ready brings the words nearer to it. -/
theorem Holds.rank_clock (h : s.Holds store) (hreset : i.resetFifo = false)
    (hready : i.readReady = true) {left : ℕ} (hpos : 0 < left)
    (hleft : left ≤ (s.held store).length) :
    left - (s.read i).length = 0 ∨
      (clock i s).rank (nextStore s store i) (left - (s.read i).length) < s.rank store left := by
  have hempty := h.empty_iff
  have hstores : store = [] → s.writeDataValid = true → nextStore s store i ≠ [] := by
    intro hnil hvalid
    have hfull : s.full = false := by
      cases hfull : s.full with
      | false => rfl
      | true =>
          have hlength := h.full.mp hfull
          rw [hnil, List.length_nil] at hlength
          exact absurd hlength (Nat.two_pow_pos n).ne
    simp [nextStore, hreset, doWrite, hvalid, hfull]
  have hvalid' : (clock i s).readValid = !s.empty := by
    cases hs : s.empty <;> simp [clock, doRead, hreset, hready, hs]
  unfold rank
  rw [hvalid']
  cases hvalid : s.readValid with
  | true =>
      have hread : (s.read i).length = 1 := by simp [read, hvalid, hready]
      rw [hread]
      by_cases hnil : store = []
      · cases hwrite : s.writeDataValid with
        | true =>
            right
            rw [hempty.mpr hnil, if_neg (hstores hnil hwrite)]
            simp
            omega
        | false =>
            left
            simp [held, hvalid, hwrite, hnil] at hleft
            omega
      · right
        rw [Bool.eq_false_iff.mpr (mt hempty.mp hnil)]
        simp
        omega
  | false =>
      have hread : (s.read i).length = 0 := by simp [read, hvalid]
      rw [hread]
      right
      by_cases hnil : store = []
      · have hwrite : s.writeDataValid = true := by
          by_contra hne
          simp [held, hvalid, hne, hnil] at hleft
          omega
        rw [hempty.mpr hnil, if_neg (hstores hnil hwrite)]
        simp [hnil]
      · rw [Bool.eq_false_iff.mpr (mt hempty.mp hnil)]
        simp [hnil]

end

/-! ### Runs -/

section

variable {s : MemoryFifo n W} {i : ℕ → FifoInput W} {m k : ℕ}

/-- What has been written and not been read is in the FIFO. -/
structure Conserves (s : MemoryFifo n W) (i : ℕ → FifoInput W) (k : ℕ) (store : List W) : Prop where
  holds : (Clocked.run clock s i k).Holds store
  accepted : s.accepted i k = s.transferred i k ++ (Clocked.run clock s i k).held store

theorem Conserves.succ {store : List W} (h : Conserves s i k store) :
    Conserves s i (k + 1) (nextStore (Clocked.run clock s i k) store (i k)) := by
  refine ⟨holds_clock (i k) h.holds, ?_⟩
  rw [MemoryFifo.accepted, transferred, Clocked.run_succ]
  cases hreset : (i k).resetFifo with
  | true => rw [held_reset (i k) hreset]; rfl
  | false =>
      simp only [Bool.false_eq_true, if_false]
      rw [h.accepted, List.append_assoc, h.holds.held_clock (i k) hreset, List.append_assoc]

theorem run_conserves (h₀ : Conserves s i 0 []) (k : ℕ) : ∃ store, Conserves s i k store := by
  induction k with
  | zero => exact ⟨[], h₀⟩
  | succ k ih =>
      obtain ⟨store, h⟩ := ih
      exact ⟨_, h.succ⟩

/-- `READOUT_FIFO_BITS`. -/
def readoutFifoBits : ℕ := 10

/-- The clocks in which every word in the FIFO is read if the reader is ready. -/
def latency (n : ℕ) : ℕ := 2 * (2 ^ n + 3)

/-- While there is no reset, nothing that has been accepted is forgotten. -/
theorem accepted_mono (hmk : m ≤ k) (hreset : ∀ j, m ≤ j → j < k → (i j).resetFifo = false) :
    s.accepted i m <+: s.accepted i k := by
  induction k, hmk using Nat.le_induction with
  | base => exact List.prefix_rfl
  | succ k hmk ih =>
      rw [accepted, hreset k hmk (Nat.lt_succ_self k), if_neg Bool.false_ne_true]
      exact (ih fun j hj hlt => hreset j hj (hlt.trans (Nat.lt_succ_self k))).trans
        (List.prefix_append _ _)

/-- While the reader is ready, what had been accepted by the clock `m` comes nearer to it. -/
theorem run_rank (h₀ : Conserves s i 0 []) {j : ℕ}
    (hready : ∀ k, m ≤ k → k < m + j → (i k).resetFifo = false ∧ (i k).readReady = true) :
    ∃ store, Conserves s i (m + j) store ∧
      ((s.accepted i m).length ≤ (s.transferred i (m + j)).length ∨
        (Clocked.run clock s i (m + j)).rank store
          ((s.accepted i m).length - (s.transferred i (m + j)).length) + j ≤ latency n) := by
  induction j with
  | zero =>
      obtain ⟨store, h⟩ := run_conserves h₀ m
      refine ⟨store, h, .inr ?_⟩
      have hlength := h.holds.held_length
      have hsum := congrArg List.length h.accepted
      rw [List.length_append] at hsum
      have hleft : (s.accepted i m).length - (s.transferred i m).length ≤ 2 ^ n + 2 := by omega
      rw [Nat.add_zero, Nat.add_zero]
      unfold rank latency
      split_ifs <;> omega
  | succ j ih =>
      obtain ⟨store, h, hcloser⟩ := ih fun k hk hlt => hready k hk (by omega)
      obtain ⟨hreset, hread⟩ := hready (m + j) (by omega) (by omega)
      refine ⟨_, h.succ, ?_⟩
      have hnext : s.transferred i (m + j + 1) =
          s.transferred i (m + j) ++ (Clocked.run clock s i (m + j)).read (i (m + j)) := by
        rw [transferred, hreset, if_neg Bool.false_ne_true]
      have hlength := congrArg List.length hnext
      rw [List.length_append] at hlength
      rw [← Nat.add_assoc, hlength]
      rcases hcloser with hdone | hcloser
      · exact .inl (by omega)
      · by_cases hdone : (s.accepted i m).length ≤ (s.transferred i (m + j)).length
        · exact .inl (by omega)
        · have hmono := (accepted_mono (Nat.le_add_right m j) (s := s)
            fun k hk hlt => (hready k hk (by omega)).1).length_le
          have hsum := congrArg List.length h.accepted
          rw [List.length_append] at hsum
          have hclock := h.holds.rank_clock (i (m + j)) hreset hread
            (Nat.sub_pos_of_lt (not_le.mp hdone)) (by omega)
          rw [Nat.sub_sub] at hclock
          rcases hclock with hzero | hless
          · exact .inl (by omega)
          · right
            rw [Clocked.run_succ]
            omega

/-- What is read is what has been accepted, in order; two words more than the memory are held at
most.  A word that is offered stays until it is read, and if the reader stays ready all that has
been accepted is read in time.  The depth of the readout FIFO is within the buffer for a batch. -/
theorem memory_fifo_lossless (fifo : BitVec n → W) (writeData readData : W)
    (i : ℕ → FifoInput W) (k : ℕ) :
    let s := powerUp fifo writeData readData
    let r := Clocked.run clock s i
    (∃ words, s.accepted i k = s.transferred i k ++ words ∧ words.length ≤ 2 ^ n + 2) ∧
    ((i k).resetFifo = false → (r k).readValid = true → (i k).readReady = false →
      (r (k + 1)).readValid = true ∧ (r (k + 1)).readData = (r k).readData) ∧
    ((∀ j, k ≤ j → j < k + latency n → (i j).resetFifo = false ∧ (i j).readReady = true) →
      s.accepted i k <+: s.transferred i (k + latency n)) ∧
    (r k).fifoDepth.toNat ≤ 2 ^ n + 1 ∧
    (n = readoutFifoBits → (r k).fifoDepth.toNat ≤ TunePll.pllFifoSize) := by
  intro s r
  have h₀ : Conserves s i 0 [] := ⟨holds_powerUp fifo writeData readData, rfl⟩
  obtain ⟨store, h⟩ := run_conserves h₀ k
  have hdepth : (r k).fifoDepth.toNat ≤ 2 ^ n + 1 := by
    cases k with
    | zero => exact Nat.zero_le _
    | succ k =>
        obtain ⟨before, hbefore⟩ := run_conserves h₀ k
        exact hbefore.holds.fifoDepth_le (i k)
  refine ⟨⟨_, h.accepted, h.holds.held_length⟩, fun hreset hvalid hready =>
    read_waits (i k) hreset hvalid hready, fun hready => ?_, hdepth, fun hn => ?_⟩
  · obtain ⟨later, hlater, hread⟩ := run_rank h₀ hready
    have hmono := accepted_mono (Nat.le_add_right k (latency n)) (s := s)
      fun j hj hlt => (hready j hj hlt).1
    refine List.prefix_of_prefix_length_le hmono ⟨_, hlater.accepted.symm⟩ ?_
    rcases hread with hdone | hrank
    · exact hdone
    · unfold rank at hrank
      omega
  · subst hn
    exact hdepth

/-- With a memory of 32 words the FIFO takes 34 before the first of them is read. -/
theorem memory_fifo_holds_more :
    let s := powerUp (n := 5) (fun _ => 0) 0 0
    let i : ℕ → FifoInput ℕ := fun k => ⟨true, k, false, false⟩
    (s.accepted i 40).length = 34 ∧ s.transferred i 40 = [] ∧ ¬ 34 ≤ 2 ^ 5 + 1 := by
  decide +kernel

end

end MemoryFifo

end Mbf.Memory
