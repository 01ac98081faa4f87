import Mbf.Registers.StrobeCc

/-! # Registers across clocks

`register_cc` takes reads and writes across clocks.  What is read is kept on the other side, from
the acknowledge on, until the register side has it (`register_cc_read`).  What is written need not
be kept: the register side holds it meanwhile (`register_cc_write`). -/

namespace Mbf.Registers

open RegisterStrobeCc

/-- What is read, on the other side. -/
structure ReadLatch where
  readPending : Bool
  regReadData : BitVec 32

def ReadLatch.initial : ReadLatch := ⟨false, 0⟩

/-- The latch on the clock of the other side, with `out_read_strobe`, the acknowledge and the data. -/
def ReadLatch.clock (l : ReadLatch) (strobe ack : Bool) (data : BitVec 32) : ReadLatch :=
  if (strobe || l.readPending) && ack then ⟨false, data⟩
  else if strobe then { l with readPending := true }
  else l

/-- `register_cc`: a `register_strobe_cc` each for reads and writes. -/
structure RegisterCc where
  read : RegisterStrobeCc
  write : RegisterStrobeCc
  latch : ReadLatch

/-- What happens at one time, as in a `Tick`; of a pair the first is for reads. -/
structure CcTick where
  clkOk : Bool
  reg : Option (Bool × Bool)
  out : Option (Bool × Bool)
  regSees : Bool × Bool
  outSees : Bool × Bool
  outReadData : BitVec 32
  regWriteData : BitVec 32

def CcTick.read (t : CcTick) : Tick :=
  ⟨t.clkOk, t.reg.map Prod.fst, t.out.map Prod.fst, t.regSees.1, t.outSees.1⟩

def CcTick.write (t : CcTick) : Tick :=
  ⟨t.clkOk, t.reg.map Prod.snd, t.out.map Prod.snd, t.regSees.2, t.outSees.2⟩

/-- `out_write_data_o` -/
def CcTick.outWriteData (t : CcTick) : BitVec 32 := t.regWriteData

namespace RegisterCc

def initial : RegisterCc := ⟨.initial, .initial, .initial⟩

def step (c : RegisterCc) (t : CcTick) : RegisterCc where
  read := c.read.step t.read
  write := c.write.step t.write
  latch :=
    if !t.clkOk then { c.latch with readPending := false }
    else
      match t.out with
      | some ack => c.latch.clock c.read.out.strobeO ack.1 t.outReadData
      | none => c.latch

/-- A run from the start. -/
def run (t : ℕ → CcTick) : ℕ → RegisterCc
  | 0 => initial
  | n + 1 => (run t n).step (t n)

section runs
variable {t : ℕ → CcTick}

/-- What happens to the reads. -/
def readTrace (t : ℕ → CcTick) : ℕ → Handshake.Events := trace fun n => (t n).read

/-- What happens to the writes. -/
def writeTrace (t : ℕ → CcTick) : ℕ → Handshake.Events := trace fun n => (t n).write

theorem run_read (n : ℕ) : (run t n).read = RegisterStrobeCc.run (fun n => (t n).read) n := by
  induction n with
  | zero => rfl
  | succ n ih =>
      show (run t n).read.step _ = _
      rw [ih]
      rfl

/-- A write comes with its data, if the register side holds it meanwhile. -/
theorem register_cc_write (ht : ClockRuns fun n => (t n).write) {n m : ℕ} (hnm : n < m)
    (hrequest : (writeTrace t n).request = true) (hdone : (writeTrace t m).done = true)
    (hfirst : ∀ j, n < j → j < m → (writeTrace t j).done = false)
    (hreset : ∀ j, n ≤ j → j ≤ m → (writeTrace t j).reset = false) {data : BitVec 32}
    (hheld : ∀ j, n ≤ j → j ≤ m → (t j).regWriteData = data) :
    ∃ s, n < s ∧ s < m ∧ (∀ j, n < j → j < m → ((writeTrace t j).strobe = true ↔ j = s)) ∧
      (t s).outWriteData = data := by
  obtain ⟨s, a, hns, hsa, ham, hevents⟩ :=
    (register_strobe_cc ht).1 n m hnm hrequest hdone hfirst hreset
  exact ⟨s, hns, hsa.trans ham, fun j hj hjm => (hevents j hj hjm).1,
    hheld s hns.le (hsa.trans ham).le⟩

/-- The other side acknowledges a read. -/
def acks (t : CcTick) : Bool := (t.out.map Prod.fst).getD false

/-- An open latch takes what comes with the acknowledge. -/
theorem latch_open {n : ℕ} (hok : (t n).clkOk = true)
    (hopen : (readTrace t n).strobe = true ∨ (run t n).latch.readPending = true) :
    if acks (t n) then (run t (n + 1)).latch = ⟨false, (t n).outReadData⟩
    else (run t (n + 1)).latch.readPending = true := by
  have hstrobe : (readTrace t n).strobe = ((t n).out.isSome && (run t n).read.out.strobeO) := by
    rw [run_read]
    exact congrArg (· && _) Option.isSome_map
  rw [hstrobe] at hopen
  simp only [run, step, hok, acks, ReadLatch.clock]
  cases hout : (t n).out with
  | none =>
      rw [hout] at hopen
      exact hopen.resolve_left Bool.false_ne_true
  | some ack =>
      rw [hout, Option.isSome_some, Bool.true_and, ← Bool.or_eq_true] at hopen
      obtain ⟨ack, _⟩ := ack
      cases ack
      · cases hlatched : (run t n).read.out.strobeO
        · rw [hlatched, Bool.false_or] at hopen
          simpa using hopen
        · simp
      · simp [hopen]

/-- What a closed latch has taken stays until there is another strobe. -/
theorem latch_closed {n : ℕ} (hok : (t n).clkOk = true) (hstrobe : (readTrace t n).strobe = false)
    (hpending : (run t n).latch.readPending = false) : (run t (n + 1)).latch = (run t n).latch := by
  have hnone : ((t n).out.isSome && (run t n).read.out.strobeO) = false := by
    rw [← hstrobe, run_read]
    exact congrArg (· && _) Option.isSome_map.symm
  simp only [run, step, hok]
  cases hout : (t n).out with
  | none => rfl
  | some ack =>
      rw [hout, Option.isSome_some, Bool.true_and] at hnone
      simp [ReadLatch.clock, hnone, hpending]

/-- A read that is done has read what the other side gave with the first acknowledge from its one
strobe on. -/
theorem register_cc_read (ht : ClockRuns fun n => (t n).read) {n m : ℕ} (hnm : n < m)
    (hrequest : (readTrace t n).request = true) (hdone : (readTrace t m).done = true)
    (hfirst : ∀ j, n < j → j < m → (readTrace t j).done = false)
    (hreset : ∀ j, n ≤ j → j ≤ m → (readTrace t j).reset = false)
    (hok : ∀ j, n ≤ j → j ≤ m → (t j).clkOk = true) :
    ∃ s k, n < s ∧ s ≤ k ∧ k < m ∧
      (∀ j, n < j → j < m → ((readTrace t j).strobe = true ↔ j = s)) ∧
      acks (t k) = true ∧ (∀ j, s ≤ j → j < k → acks (t j) = false) ∧
      ∀ j, k < j → j ≤ m → (run t j).latch.regReadData = (t k).outReadData := by
  obtain ⟨s, a, hns, hsa, ham, hevents⟩ :=
    (register_strobe_cc ht).1 n m hnm hrequest hdone hfirst hreset
  -- the first acknowledge from the strobe on
  have hsome : ∃ k, acks (t (s + k)) = true := by
    obtain ⟨-, hack⟩ := Bool.and_eq_true_iff.mp ((hevents a (hns.trans hsa) ham).2.1.mpr rfl)
    exact ⟨a - s, by rw [Nat.add_sub_cancel' hsa.le]; exact hack⟩
  have hka : s + Nat.find hsome ≤ a := by
    by_contra hlate
    obtain ⟨-, hack⟩ := Bool.and_eq_true_iff.mp ((hevents a (hns.trans hsa) ham).2.1.mpr rfl)
    exact Nat.find_min hsome (m := a - s) (by omega)
      (by rw [Nat.add_sub_cancel' hsa.le]; exact hack)
  have hnone : ∀ j, s ≤ j → j < s + Nat.find hsome → acks (t j) = false := by
    intro j hj hjk
    obtain ⟨i, rfl⟩ := Nat.exists_eq_add_of_le hj
    exact Bool.eq_false_iff.mpr (Nat.find_min hsome (by omega))
  have hspec := Nat.find_spec hsome
  generalize Nat.find hsome = i at hka hnone hspec
  refine ⟨s, s + i, hns, Nat.le_add_right _ _, by omega, fun j hj hjm => (hevents j hj hjm).1, hspec,
    hnone, ?_⟩
  -- until then the latch is open
  have hopen : ∀ j ≤ i, (readTrace t (s + j)).strobe = true ∨
      (run t (s + j)).latch.readPending = true := by
    intro j hj
    induction j with
    | zero => exact .inl ((hevents s hns (hsa.trans ham)).1.mpr rfl)
    | succ j ih =>
        have hlatch := latch_open (hok (s + j) (by omega) (by omega)) (ih (by omega))
        rw [hnone (s + j) (by omega) (by omega), if_neg Bool.false_ne_true] at hlatch
        exact .inr hlatch
  have htaken := latch_open (hok (s + i) (by omega) (by omega)) (hopen i le_rfl)
  rw [hspec, if_pos rfl] at htaken
  have hheld : ∀ j, s + i < j → j ≤ m → (run t j).latch = ⟨false, (t (s + i)).outReadData⟩ := by
    intro j hj hjm
    induction j, hj using Nat.le_induction with
    | base => exact htaken
    | succ j hj ih =>
        have hlatch := ih (by omega)
        rw [latch_closed (hok j (by omega) (by omega)) (Bool.eq_false_iff.mpr fun hstrobe => ?_)
          (by rw [hlatch]), hlatch]
        exact absurd ((hevents j (by omega) (by omega)).1.mp hstrobe) (by omega)
  exact fun j hj hjm => congrArg ReadLatch.regReadData (hheld j hj hjm)

/-- A read on its own, of the number of the tick. -/
def loneRead (n : ℕ) : CcTick :=
  ⟨true, some (n == 20, false), some (true, false), (false, false), (false, false), n, 0⟩

theorem register_cc_read_lone : ∃ s k, 20 < s ∧ s ≤ k ∧ k < 33 ∧
    (∀ j, 20 < j → j < 33 → ((readTrace loneRead j).strobe = true ↔ j = s)) ∧
    acks (loneRead k) = true ∧ (∀ j, s ≤ j → j < k → acks (loneRead j) = false) ∧
    ∀ j, k < j → j ≤ 33 → (run loneRead j).latch.regReadData = k :=
  register_cc_read (t := loneRead) lone_clockRuns (by decide) (by decide) (by decide)
    (by decide : ∀ j, 21 ≤ j → j < 33 → _) (by decide : ∀ j, 20 ≤ j → j ≤ 33 → _)
    (by decide : ∀ j, 20 ≤ j → j ≤ 33 → _)

end runs

end RegisterCc

end Mbf.Registers
