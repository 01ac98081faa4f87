import Mbf.Lib.Clocked
import Mbf.Sequencer.Firmware

/-! # Triggers of the sequencer

The program counter of the sequencer, `sequencer_pc`, under any pattern of triggers, turn clocks and
state ends, with no reset.  A trigger that is seen while the program counter is zero starts a run at
the next end of the idle state, and a run visits the states from the starting counter down to 1, as
many times as the super count says.

The busy flag falls at the first turn clock after a run.  A trigger that comes after the run and
before that turn clock is over, or on it, is taken as well, and busy does not fall between the two
runs (`run_law_iff`). -/

namespace Mbf.Sequencer.Pc

open Clocked

/-- The inputs of a clock. -/
structure PcInput where
  turnClock : Bool
  trigger : Bool
  stateEnd : Bool

/-- One clock without a reset. -/
def runClock (program : Program) (i : PcInput) (p : Pc) : Pc :=
  p.clock program i.turnClock i.trigger false i.stateEnd

/-- The registers before each clock, from power up. -/
abbrev registers (program : Program) (i : ℕ → PcInput) (n : ℕ) : Pc :=
  run (runClock program) {} i n

/-! ### The law -/

/-- The states from `k` down to 1. -/
def states : ℕ → List (BitVec 3)
  | 0 => []
  | k + 1 => BitVec.ofNat 3 (k + 1) :: states k

/-- The states of `count` sweeps from `start`. -/
def sweeps (start : BitVec 3) (count : ℕ) : List (BitVec 3) :=
  (List.replicate count (states start.toNat)).flatten

section law
variable (program : Program) (i : ℕ → PcInput)

/-- The states that are loaded on the clocks from `n` on. -/
def loads (n : ℕ) : ℕ → List (BitVec 3)
  | 0 => []
  | k + 1 => loads n k ++ if (registers program i (n + k)).startLoad then
      [(registers program i (n + k)).seqPc] else []

/-- On the clock `n` a state ends. -/
def Ends (n : ℕ) : Prop := (registers program i n).loading = false ∧ (i n).stateEnd = true

/-- The program counter is zero from the clock `m` to the clock `n`. -/
def Idle (m n : ℕ) : Prop := ∀ k, m ≤ k → k ≤ n → (registers program i k).seqPc = 0

/-- Before the clock `n`, since the program counter is zero, there was a trigger. -/
def Pending (n : ℕ) : Prop := ∃ m < n, (i m).trigger = true ∧ Idle program i m n

/-- On the clock `n` a run starts. -/
def Starts (n : ℕ) : Prop :=
  (registers program i n).seqPc = 0 ∧ (registers program i (n + 1)).seqPc ≠ 0

/-- The law of the runs. -/
structure RunLaw : Prop where
  /-- A run starts at the end of the idle state if there was a trigger since it began. -/
  starts : ∀ n, Starts program i n ↔ (registers program i n).seqPc = 0 ∧ Ends program i n ∧
    ((i n).trigger = true ∨ Pending program i n)
  /-- A run loads the states of all sweeps in order, and then the idle state. -/
  loads : ∀ n, Starts program i n → ∀ k,
    loads program i (n + 1) k <+: sweeps program.seqPc (program.superCount.toNat + 1) ++ [0] ∨
    sweeps program.seqPc (program.superCount.toNat + 1) ++ [0] <+: loads program i (n + 1) k
  /-- The program counter shows the state that was loaded last. -/
  loaded : ∀ n k, Starts program i n →
    (Pc.loads program i (n + 1) (k + 1)).getLast? = some (registers program i (n + 1 + k)).seqPc
  /-- The sequencer is busy from the clock after a trigger until the run is over. -/
  busy : ∀ n, Pending program i n ∨ (registers program i n).seqPc ≠ 0 →
    (registers program i n).busy = true
  /-- Between two runs the sequencer is not busy. -/
  falls : ∀ m n, Starts program i m → Starts program i n → m < n →
    ∃ k, m < k ∧ k ≤ n ∧ (registers program i k).busy = false

/-- A trigger that comes while the program counter is zero, the sequencer is still busy with the run
before and no other trigger is pending. -/
def Late (n : ℕ) : Prop :=
  (i n).trigger = true ∧ (registers program i n).seqPc = 0 ∧
    (registers program i n).busy = true ∧ ¬ Pending program i n

end law

/-! ### One clock -/

/-- What the registers say of each other. -/
structure Consistent (p : Pc) : Prop where
  resetIn : p.resetIn = false
  resetOut : p.resetOut = false
  loading : p.startLoad = true → p.loading = true
  busy : p.seqPc ≠ 0 ∨ p.trigger = true → p.busy = true

section clock
variable {program : Program} {p : Pc} {x : PcInput}

/-- The clock on which a state ends. -/
theorem runClock_ends (program : Program) (h : Consistent p) (hloading : p.loading = false)
    (hend : x.stateEnd = true) :
    (runClock program x p).seqPc =
        (advance p.seqPc p.superCount (p.triggerIn x.trigger) program).1 ∧
      (runClock program x p).superCount =
        (advance p.seqPc p.superCount (p.triggerIn x.trigger) program).2 ∧
      (runClock program x p).startLoad = true := by
  simp [runClock, clock, hloading, hend, h.resetOut]

/-- Any other clock. -/
theorem runClock_stays (program : Program) (h : Consistent p)
    (hstays : ¬ (p.loading = false ∧ x.stateEnd = true)) :
    (runClock program x p).seqPc = p.seqPc ∧
      (runClock program x p).superCount = p.superCount ∧
      (runClock program x p).startLoad = false := by
  cases hloading : p.loading with
  | true => simp [runClock, clock, hloading]
  | false =>
      have hend : x.stateEnd = false := by
        by_contra hend
        exact hstays ⟨hloading, Bool.eq_true_of_not_eq_false hend⟩
      have hstart : p.startLoad = false := by
        by_contra hstart
        rw [h.loading (Bool.eq_true_of_not_eq_false hstart)] at hloading
        cases hloading
      simp [runClock, clock, hloading, hend, hstart, h.resetOut]

theorem runClock_trigger (program : Program) (p : Pc) (x : PcInput) :
    (runClock program x p).trigger = (x.trigger || !p.startLoad && p.trigger) := by
  unfold runClock clock
  cases x.trigger <;> cases p.startLoad <;> rfl

/-- A program counter that leaves zero does so because of a trigger. -/
theorem advance_ne_zero {pc : BitVec 3} {count : BitVec 11} {trigger : Bool}
    (h : (advance pc count trigger program).1 ≠ 0) : pc ≠ 0 ∨ trigger = true := by
  by_contra hnot
  obtain ⟨hpc, htrigger⟩ := not_or.mp hnot
  rw [not_not] at hpc
  rw [Bool.not_eq_true] at htrigger
  simp [advance, hpc, htrigger] at h

theorem Consistent.runClock (h : Consistent p) (program : Program) (x : PcInput) :
    Consistent (runClock program x p) where
  resetIn := by simp [Pc.runClock, clock, h.resetIn, h.resetOut]
  resetOut := by simp [Pc.runClock, clock, h.resetIn, h.resetOut]
  loading hstart := by
    by_cases hends : p.loading = false ∧ x.stateEnd = true
    · simp [Pc.runClock, clock, hends.1, hends.2]
    · rw [(runClock_stays program h hends).2.2] at hstart
      cases hstart
  busy hbusy := by
    have hbefore : p.triggerIn x.trigger = true ∨ p.seqPc ≠ 0 := by
      rcases hbusy with hpc | htrigger
      · by_cases hends : p.loading = false ∧ x.stateEnd = true
        · rw [(runClock_ends program h hends.1 hends.2).1] at hpc
          exact (advance_ne_zero hpc).symm
        · exact .inr ((runClock_stays program h hends).1 ▸ hpc)
      · left
        rw [runClock_trigger] at htrigger
        unfold triggerIn
        cases hx : x.trigger with
        | true => rfl
        | false =>
            have hreg : p.startLoad = false ∧ p.trigger = true := by simpa [hx] using htrigger
            exact hreg.2
    change (if p.triggerIn x.trigger then true
      else if x.turnClock && (p.seqPc == 0) then false else p.busy) = true
    rcases hbefore with htrigger | hpc
    · rw [if_pos htrigger]
    · split_ifs with htrigger hturn
      · rfl
      · simp only [Bool.and_eq_true, beq_iff_eq] at hturn
        exact absurd hturn.2 hpc
      · exact h.busy (.inl hpc)

end clock

theorem consistent (program : Program) (i : ℕ → PcInput) (n : ℕ) :
    Consistent (registers program i n) :=
  run_invariant (P := Consistent) ⟨rfl, rfl, by simp, by simp⟩ (fun x _ h => h.runClock program x) n

theorem registers_succ (program : Program) (i : ℕ → PcInput) (n : ℕ) :
    registers program i (n + 1) = runClock program (i n) (registers program i n) := rfl

/-! ### Triggers -/

section runs
variable {program : Program} {i : ℕ → PcInput} {m n : ℕ}

theorem idle_self (h : (registers program i n).seqPc = 0) : Idle program i n n := by
  intro k hnk hkn
  rwa [le_antisymm hkn hnk]

theorem pending_succ : Pending program i (n + 1) ↔ (registers program i (n + 1)).seqPc = 0 ∧
    (registers program i n).seqPc = 0 ∧ ((i n).trigger = true ∨ Pending program i n) := by
  constructor
  · rintro ⟨m, hm, htrigger, hidle⟩
    refine ⟨hidle _ (by omega) le_rfl, hidle n (by omega) (by omega), ?_⟩
    rcases Nat.lt_succ_iff_lt_or_eq.mp hm with hlt | rfl
    · exact .inr ⟨m, hlt, htrigger, fun k hmk hkn => hidle k hmk (by omega)⟩
    · exact .inl htrigger
  · rintro ⟨hnext, hnow, htrigger | ⟨m, hm, htrigger, hidle⟩⟩
    · refine ⟨n, Nat.lt_succ_self n, htrigger, fun k hnk hkn => ?_⟩
      rcases Nat.le_succ_iff.mp hkn with hk | rfl
      · exact idle_self hnow k hnk hk
      · exact hnext
    · refine ⟨m, by omega, htrigger, fun k hmk hkn => ?_⟩
      rcases Nat.le_succ_iff.mp hkn with hk | rfl
      · exact hidle k hmk hk
      · exact hnext

/-- While a state is not loading, its load has begun. -/
theorem startLoad_of_ends (h : Ends program i n) : (registers program i n).startLoad = false := by
  by_contra hstart
  have hloading := (consistent program i n).loading (Bool.eq_true_of_not_eq_false hstart)
  rw [h.1] at hloading
  cases hloading

/-- The latch holds the pending trigger, but for the clock on which the idle state begins to load:
what it then holds came during the state before. -/
theorem pending_iff (hpc : program.seqPc ≠ 0) (h : (registers program i n).seqPc = 0) :
    Pending program i n ↔
      (registers program i n).startLoad = false ∧ (registers program i n).trigger = true := by
  induction n with
  | zero => exact iff_of_false (fun ⟨_, hm, _⟩ => absurd hm (Nat.not_lt_zero _)) (by simp [run])
  | succ n ih =>
      have hcons := consistent program i n
      rw [pending_succ, registers_succ, runClock_trigger]
      rw [registers_succ] at h
      by_cases hends : Ends program i n
      · obtain ⟨hseq, -, hstart⟩ := runClock_ends program hcons hends.1 hends.2
        refine iff_of_false ?_ fun hload => ?_
        · rintro ⟨-, hzero, htrigger⟩
          have hin : (registers program i n).triggerIn (i n).trigger = true := by
            unfold triggerIn
            rcases htrigger with htrigger | htrigger
            · rw [htrigger, Bool.true_or]
            · rw [((ih hzero).mp htrigger).2, Bool.or_true]
          rw [hseq, hzero, hin] at h
          exact hpc h
        · rw [hstart] at hload
          cases hload.1
      · obtain ⟨hseq, -, hstart⟩ := runClock_stays program hcons hends
        rw [hseq] at h
        rw [hseq, hstart, ih h]
        cases (i n).trigger <;> cases (registers program i n).startLoad <;>
          cases (registers program i n).trigger <;> simp [h]

theorem starts_iff (hpc : program.seqPc ≠ 0) (n : ℕ) :
    Starts program i n ↔ (registers program i n).seqPc = 0 ∧ Ends program i n ∧
      ((i n).trigger = true ∨ Pending program i n) := by
  have hcons := consistent program i n
  unfold Starts
  rw [registers_succ]
  refine and_congr_right fun hzero => ?_
  by_cases hends : Ends program i n
  · have hload := startLoad_of_ends hends
    have hin : (registers program i n).triggerIn (i n).trigger = true ↔
        (i n).trigger = true ∨ Pending program i n := by
      rw [pending_iff hpc hzero, triggerIn, Bool.or_eq_true]
      simp [hload]
    rw [← hin, (runClock_ends program hcons hends.1 hends.2).1, hzero]
    cases (registers program i n).triggerIn (i n).trigger with
    | true => simpa [advance, hends] using hpc
    | false => simp [advance]
  · rw [(runClock_stays program hcons hends).1]
    exact iff_of_false (not_not.mpr hzero) fun h => hends h.1

theorem busy_of (hpc : program.seqPc ≠ 0)
    (h : Pending program i n ∨ (registers program i n).seqPc ≠ 0) :
    (registers program i n).busy = true := by
  refine (consistent program i n).busy ?_
  rcases h with hpending | hne
  · obtain ⟨m, hm, -, hidle⟩ := id hpending
    exact .inr ((pending_iff hpc (hidle n hm.le le_rfl)).mp hpending).2
  · exact .inl hne

/-! ### The states of a run -/

/-- What a run has still to load after the state `pc`. -/
def rest (start pc : BitVec 3) (count : BitVec 11) : List (BitVec 3) :=
  states (pc.toNat - 1) ++ sweeps start count.toNat

theorem states_of_ne_zero {pc : BitVec 3} (h : pc ≠ 0) :
    states pc.toNat = pc :: states (pc.toNat - 1) := by
  have hpos : pc.toNat ≠ 0 := fun hzero => h (BitVec.eq_of_toNat_eq hzero)
  obtain ⟨k, hk⟩ := Nat.exists_eq_succ_of_ne_zero hpos
  have hlt := pc.isLt
  rw [hk] at hlt
  rw [hk, states, Nat.succ_sub_one]
  congr 1
  exact BitVec.eq_of_toNat_eq (by rw [BitVec.toNat_ofNat, hk, Nat.mod_eq_of_lt hlt])

theorem sweeps_succ {start : BitVec 3} (h : start ≠ 0) (count : ℕ) :
    sweeps start (count + 1) = start :: (states (start.toNat - 1) ++ sweeps start count) := by
  unfold sweeps
  rw [List.replicate_succ, List.flatten_cons, states_of_ne_zero h, List.cons_append]

/-- In a run a state ends with the next one, or with the run. -/
theorem rest_advance {pc : BitVec 3} {count : BitVec 11} (hpc : program.seqPc ≠ 0) (h : pc ≠ 0)
    (trigger : Bool) :
    (advance pc count trigger program).1 ≠ 0 ∧
      rest program.seqPc pc count = (advance pc count trigger program).1 ::
        rest program.seqPc (advance pc count trigger program).1
          (advance pc count trigger program).2 ∨
    (advance pc count trigger program).1 = 0 ∧ rest program.seqPc pc count = [] := by
  by_cases hone : pc = 1
  · subst hone
    by_cases hcount : count = 0
    · subst hcount
      exact .inr ⟨rfl, rfl⟩
    · left
      have hadvance : advance 1 count trigger program = (program.seqPc, count - 1) := by
        simp only [advance, if_neg hcount]
        rfl
      have hpos : count.toNat ≠ 0 := fun hzero => hcount (BitVec.eq_of_toNat_eq hzero)
      have hpred : (count - 1).toNat + 1 = count.toNat := by bv_omega
      rw [hadvance]
      refine ⟨hpc, ?_⟩
      change states 0 ++ sweeps program.seqPc count.toNat = _
      rw [← hpred, sweeps_succ hpc]
      rfl
  · left
    have hadvance : advance pc count trigger program = (pc - 1, count) := by
      rw [advance, if_neg h, if_neg hone]
    have hpred : (pc - 1).toNat = pc.toNat - 1 := by bv_omega
    have hne : pc - 1 ≠ 0 := by bv_omega
    rw [hadvance]
    refine ⟨hne, ?_⟩
    change states (pc.toNat - 1) ++ _ = (pc - 1) :: (states ((pc - 1).toNat - 1) ++ _)
    rw [← hpred, states_of_ne_zero hne, List.cons_append]

/-- The clock after the start of a run. -/
theorem registers_of_starts (hpc : program.seqPc ≠ 0) (h : Starts program i n) :
    (registers program i (n + 1)).seqPc = program.seqPc ∧
      (registers program i (n + 1)).superCount = program.superCount ∧
      (registers program i (n + 1)).startLoad = true := by
  obtain ⟨hzero, hends, -⟩ := (starts_iff hpc n).mp h
  obtain ⟨hseq, hcount, hstart⟩ := runClock_ends program (consistent program i n) hends.1 hends.2
  have hin : (registers program i n).triggerIn (i n).trigger = true := by
    by_contra hnot
    rw [Bool.not_eq_true] at hnot
    refine h.2 ?_
    rw [registers_succ, hseq, hnot, hzero]
    rfl
  rw [hin, hzero] at hseq hcount
  exact ⟨hseq, hcount, hstart⟩

theorem loads_succ (program : Program) (i : ℕ → PcInput) (n k : ℕ) :
    loads program i n (k + 1) = loads program i n k ++
      if (registers program i (n + k)).startLoad then [(registers program i (n + k)).seqPc]
      else [] := rfl

/-- The loads of a run so far, and those to come. -/
theorem loads_rest (hpc : program.seqPc ≠ 0) (h : Starts program i n) (k : ℕ) :
    (registers program i (n + 1 + k)).seqPc ≠ 0 ∧
      loads program i (n + 1) (k + 1) ++ rest program.seqPc (registers program i (n + 1 + k)).seqPc
        (registers program i (n + 1 + k)).superCount =
        sweeps program.seqPc (program.superCount.toNat + 1) ∨
    sweeps program.seqPc (program.superCount.toNat + 1) ++ [0] <+:
      loads program i (n + 1) (k + 1) := by
  induction k with
  | zero =>
      obtain ⟨hseq, hcount, hstart⟩ := registers_of_starts hpc h
      have hload : loads program i (n + 1) 1 = [program.seqPc] := by
        rw [loads_succ, Nat.add_zero, hstart, if_pos rfl, hseq]
        rfl
      left
      rw [Nat.add_zero, hload, hseq, hcount]
      exact ⟨hpc, (sweeps_succ hpc _).symm⟩
  | succ k ih =>
      rw [loads_succ program i (n + 1) (k + 1), ← Nat.add_assoc (n + 1) k 1]
      rcases ih with ⟨hne, hall⟩ | hover
      · have hcons := consistent program i (n + 1 + k)
        by_cases hends : Ends program i (n + 1 + k)
        · obtain ⟨hseq, hcount, hstart⟩ := runClock_ends program hcons hends.1 hends.2
          rw [registers_succ, hstart, if_pos rfl, hseq, hcount]
          rcases rest_advance hpc hne _ with ⟨hnext, hrest⟩ | ⟨hnext, hrest⟩
          · left
            rw [hrest] at hall
            refine ⟨hnext, ?_⟩
            rw [List.append_assoc]
            exact hall
          · right
            rw [hrest, List.append_nil] at hall
            rw [hnext, hall]
        · obtain ⟨hseq, hcount, hstart⟩ := runClock_stays program hcons hends
          left
          rw [registers_succ, hstart, hseq, hcount]
          simpa using ⟨hne, hall⟩
      · exact .inr (hover.trans (List.prefix_append _ _))

/-- The program counter shows the state that was loaded last. -/
theorem loads_last (hpc : program.seqPc ≠ 0) (h : Starts program i n) (k : ℕ) :
    (loads program i (n + 1) (k + 1)).getLast? = some (registers program i (n + 1 + k)).seqPc := by
  induction k with
  | zero =>
      obtain ⟨-, -, hstart⟩ := registers_of_starts hpc h
      rw [loads_succ, Nat.add_zero, hstart, if_pos rfl]
      rfl
  | succ k ih =>
      rw [loads_succ program i (n + 1) (k + 1), ← Nat.add_assoc (n + 1) k 1]
      cases hstart : (registers program i (n + 1 + k + 1)).startLoad with
      | true => rw [if_pos rfl, List.getLast?_concat]
      | false =>
          have hcons := consistent program i (n + 1 + k)
          have hstays : ¬ Ends program i (n + 1 + k) := by
            intro hends
            rw [registers_succ, (runClock_ends program hcons hends.1 hends.2).2.2] at hstart
            cases hstart
          rw [registers_succ, (runClock_stays program hcons hstays).1]
          simpa using ih

/-! ### Busy -/

/-- A sequencer that is busy without a pending trigger has been so since a run started. -/
theorem busy_since (hpc : program.seqPc ≠ 0) (h : (registers program i n).busy = true)
    (hpending : ¬ Pending program i n) :
    ∃ m < n, Starts program i m ∧ ∀ k, m < k → k ≤ n → (registers program i k).busy = true := by
  induction n with
  | zero => cases h
  | succ n ih =>
      -- The sequencer was busy on the clock before as well, unless that is the start of the run.
      have hextend : (registers program i n).busy = true → ¬ Pending program i n → ∃ m < n + 1,
          Starts program i m ∧ ∀ k, m < k → k ≤ n + 1 → (registers program i k).busy = true := by
        intro hbusy hnot
        obtain ⟨m, hm, hstarts, hall⟩ := ih hbusy hnot
        refine ⟨m, by omega, hstarts, fun k hmk hkn => ?_⟩
        rcases Nat.le_succ_iff.mp hkn with hk | rfl
        · exact hall k hmk hk
        · exact h
      by_cases hzero : (registers program i n).seqPc = 0
      · by_cases hnext : (registers program i (n + 1)).seqPc = 0
        · have hnot : ¬ ((i n).trigger = true ∨ Pending program i n) :=
            fun htrigger => hpending (pending_succ.mpr ⟨hnext, hzero, htrigger⟩)
          obtain ⟨htrigger, hnot⟩ := not_or.mp hnot
          refine hextend ?_ hnot
          have hclock : (registers program i (n + 1)).busy =
              if (registers program i n).triggerIn (i n).trigger then true
              else if (i n).turnClock && ((registers program i n).seqPc == 0) then false
              else (registers program i n).busy := rfl
          rw [hclock] at h
          split_ifs at h with hin
          · rw [triggerIn, Bool.or_eq_true] at hin
            exact (consistent program i n).busy (.inr (hin.resolve_left htrigger))
          · exact h
        · refine ⟨n, Nat.lt_succ_self n, ⟨hzero, hnext⟩, fun k hnk hkn => ?_⟩
          rwa [le_antisymm hkn hnk]
      · exact hextend (busy_of hpc (.inr hzero)) fun ⟨m, hm, _, hidle⟩ =>
          hzero (hidle n hm.le le_rfl)

/-- The trigger that started a run was the first since the program counter is zero. -/
theorem exists_first_trigger (hpc : program.seqPc ≠ 0) (h : Starts program i n) :
    ∃ t ≤ n, (i t).trigger = true ∧ Idle program i t n ∧ ¬ Pending program i t := by
  obtain ⟨hzero, -, htrigger⟩ := (starts_iff hpc n).mp h
  have hexists : ∃ t, t ≤ n ∧ (i t).trigger = true ∧ Idle program i t n := by
    rcases htrigger with htrigger | ⟨t, ht, htrigger, hidle⟩
    · exact ⟨n, le_rfl, htrigger, idle_self hzero⟩
    · exact ⟨t, ht.le, htrigger, hidle⟩
  classical
  obtain ⟨ht, htrigger, hidle⟩ := Nat.find_spec hexists
  refine ⟨Nat.find hexists, ht, htrigger, hidle, fun ⟨t, hlt, htrigger', hidle'⟩ => ?_⟩
  refine Nat.find_min hexists hlt ⟨by omega, htrigger', fun k htk hkn => ?_⟩
  rcases le_total k (Nat.find hexists) with hk | hk
  · exact hidle' k htk hk
  · exact hidle k hk hkn

/-- **The law of the runs** holds exactly when no trigger comes between the end of a run and the
fall of the busy flag, or the idle state never ends after it. -/
theorem run_law_iff (program : Program) (hpc : program.seqPc ≠ 0) (i : ℕ → PcInput) :
    RunLaw program i ↔
      ∀ m, Late program i m → ∀ n, m ≤ n → Idle program i m n → ¬ Ends program i n := by
  constructor
  · rintro hlaw m ⟨htrigger, hzero, hbusy, hnot⟩ n hmn hidle hends
    have hpending : ∀ k, m < k → k ≤ n → Pending program i k := fun k hmk hkn =>
      ⟨m, hmk, htrigger, fun j hmj hjk => hidle j hmj (hjk.trans hkn)⟩
    have hstarts : Starts program i n := by
      refine (hlaw.starts n).mpr ⟨hidle n hmn le_rfl, hends, ?_⟩
      rcases hmn.eq_or_lt with rfl | hlt
      · exact .inl htrigger
      · exact .inr (hpending n hlt le_rfl)
    obtain ⟨first, hfirst, hbefore, hsince⟩ := busy_since hpc hbusy hnot
    obtain ⟨k, hlt, hkn, hfell⟩ := hlaw.falls first n hbefore hstarts (by omega)
    have hstill : (registers program i k).busy = true := by
      rcases le_or_gt k m with hkm | hmk
      · exact hsince k hlt hkm
      · exact hlaw.busy k (.inl (hpending k hmk hkn))
    rw [hstill] at hfell
    cases hfell
  · intro hlate
    refine ⟨starts_iff hpc, fun n h k => ?_, fun n k h => loads_last hpc h k,
      fun n => busy_of hpc, fun m n hm hn hmn => ?_⟩
    · cases k with
      | zero => exact .inl (List.nil_prefix ..)
      | succ k =>
          rcases loads_rest hpc h k with ⟨-, hall⟩ | hover
          · left
            rw [← hall]
            exact (List.prefix_append _ _).trans (List.prefix_append _ _)
          · exact .inr hover
    · obtain ⟨t, htn, htrigger, hidle, hnot⟩ := exists_first_trigger hpc hn
      have hends : Ends program i n := ((starts_iff hpc n).mp hn).2.1
      have hmt : m < t := by
        by_contra hle
        exact hm.2 (hidle (m + 1) (by omega) hmn)
      refine ⟨t, hmt, htn, ?_⟩
      by_contra hbusy
      exact hlate t ⟨htrigger, hidle t le_rfl htn, Bool.eq_true_of_not_eq_false hbusy, hnot⟩ n htn
        hidle hends

/-- A turn clock every four clocks, the state ends on the clock before it, and a trigger on each of
these clocks. -/
def everyTurn (triggers : List ℕ) (n : ℕ) : PcInput where
  turnClock := n % 4 = 0
  trigger := triggers.contains n
  stateEnd := n % 4 = 3

/-- Two sweeps of two states, after two triggers that count as one. -/
theorem run_law_two_sweeps :
    let program : Program := ⟨fun _ => 0, fun _ => 0, 2, 1⟩
    loads program (everyTurn [1, 3]) 0 25 = [2, 1, 2, 1, 0, 0] ∧
      RunLaw program (everyTurn [1, 3]) := by
  intro program
  refine ⟨by decide +kernel, (run_law_iff program (by decide) _).mpr fun m hlate => ?_⟩
  obtain ⟨htrigger, -, hbusy, hnot⟩ := hlate
  have hm : m = 1 ∨ m = 3 := by simpa [everyTurn] using htrigger
  rcases hm with rfl | rfl
  · exact absurd hbusy (by decide +kernel)
  · refine absurd ⟨1, by decide, rfl, fun k hk hk' => ?_⟩ hnot
    have hk : k = 1 ∨ k = 2 ∨ k = 3 := by omega
    rcases hk with rfl | rfl | rfl <;> decide +kernel

/-- A trigger on the turn clock after the run starts another one, and the sequencer stays busy. -/
theorem run_law_late_trigger :
    ¬ ∀ (program : Program) (i : ℕ → PcInput), program.seqPc ≠ 0 → RunLaw program i := by
  intro hall
  let program : Program := ⟨fun _ => 0, fun _ => 0, 1, 0⟩
  have hlaw := hall program (everyTurn [3, 8]) (by decide)
  have hstarts : ∀ n, n = 3 ∨ n = 11 → Starts program (everyTurn [3, 8]) n := by
    intro n hn
    unfold Starts
    rcases hn with rfl | rfl <;> decide +kernel
  obtain ⟨k, hk, hk', hbusy⟩ := hlaw.falls 3 11 (hstarts 3 (.inl rfl)) (hstarts 11 (.inr rfl))
    (by decide)
  have hstill : ∀ k < 12, 3 < k → (registers program (everyTurn [3, 8]) k).busy = true := by
    decide +kernel
  rw [hstill k (by omega) hk] at hbusy
  cases hbusy

end runs

end Mbf.Sequencer.Pc
