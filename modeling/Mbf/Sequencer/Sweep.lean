import Mbf.Lib.Runs
import Mbf.Sequencer.Tune

/-! # Editing a sweep

The records `START_FREQ`, `STEP_FREQ`, `COUNT` and `END_FREQ` of a state of the sequencer, in
`sequencer.c`.  They are kept such that `START_FREQ + STEP_FREQ * COUNT = END_FREQ`: a write to one
of the first three changes the end, and a write to the end changes the step.  What is stored are the
start, an unsigned frequency, the step, a signed one, and the count; the records show what is
stored.

The one way in which this fails is that of `tune_to_freq`: an advance that is less than half a unit
below a whole cycle is stored as `2^48`, and writing back the tune that is then shown, zero, changes
it to zero (`sweep_editing_iff`).  Not modelled is the flag by which a write makes the program send
the configuration to the hardware again. -/

namespace Mbf.Sequencer

section sweep
variable {K : Type} [Field K] [LinearOrder K] [IsStrictOrderedRing K] [FloorRing K] (bunches : ℕ)

/-! ### The program -/

/-- The sweep of `struct seq_entry`, and the records of the bank. -/
structure SweepBank (K : Type) where
  startFreq : BitVec 64
  deltaFreq : BitVec 64
  captureCount : ℕ
  startFreqRec : K
  stepFreqRec : K
  countRec : ℕ
  endFreqRec : K

/-- A write to a record. -/
inductive SweepWrite (K : Type) where
  | startFreq (value : K)
  | stepFreq (value : K)
  | count (value : ℕ)
  | endFreq (value : K)

namespace SweepBank

/-- `compute_end_freq`. -/
def computeEndFreq (s : SweepBank K) : K :=
  freqToTune bunches s.startFreq + s.captureCount * freqToTuneSigned bunches s.deltaFreq

/-- `update_end_freq`. -/
def updateEndFreq (s : SweepBank K) : SweepBank K :=
  { s with endFreqRec := s.computeEndFreq bunches }

/-- `write_start_freq`. -/
def writeStartFreq (value : K) (s : SweepBank K) : SweepBank K :=
  let startFreq := tuneToFreq bunches value
  updateEndFreq bunches { s with startFreq, startFreqRec := freqToTune bunches startFreq }

/-- `write_step_freq`. -/
def writeStepFreq (value : K) (s : SweepBank K) : SweepBank K :=
  let deltaFreq := tuneToFreq bunches value
  updateEndFreq bunches { s with deltaFreq, stepFreqRec := freqToTuneSigned bunches deltaFreq }

/-- The step that a write to the end asks for. -/
def targetDeltaFreq (value : K) (s : SweepBank K) : K :=
  (value - freqToTune bunches s.startFreq) / s.captureCount

/-- `write_end_freq`. -/
def writeEndFreq (value : K) (s : SweepBank K) : SweepBank K :=
  let deltaFreq := tuneToFreq bunches (s.targetDeltaFreq bunches value)
  let s := { s with deltaFreq, stepFreqRec := freqToTuneSigned bunches deltaFreq }
  { s with endFreqRec := s.computeEndFreq bunches }

/-- `write_bank_count`. -/
def writeBankCount (value : ℕ) (s : SweepBank K) : SweepBank K :=
  updateEndFreq bunches { s with captureCount := value, countRec := value }

def write (s : SweepBank K) : SweepWrite K → SweepBank K
  | .startFreq value => s.writeStartFreq bunches value
  | .stepFreq value => s.writeStepFreq bunches value
  | .count value => s.writeBankCount bunches value
  | .endFreq value => s.writeEndFreq bunches value

/-- A bank with no frequencies yet. -/
def blank (count : ℕ) : SweepBank K := ⟨0, 0, count, 0, 0, count, 0⟩

end SweepBank

/-- The records of a bank; `COUNT` is at least one. -/
def sweepRecords : Runs.Machine (SweepBank K) (SweepWrite K) Unit where
  init s := ∃ count, 1 ≤ count ∧ s = SweepBank.blank count
  step s
    | .count value => if 1 ≤ value then some (s.write bunches (.count value), ()) else none
    | w => some (s.write bunches w, ())

/-! ### What should hold -/

/-- The records show what is stored. -/
structure SweepBank.Shown (s : SweepBank K) : Prop where
  count_pos : 1 ≤ s.captureCount
  startFreq : s.startFreqRec = freqToTune bunches s.startFreq
  stepFreq : s.stepFreqRec = freqToTuneSigned bunches s.deltaFreq
  count : s.countRec = s.captureCount
  endFreq : s.endFreqRec = s.startFreqRec + s.countRec * s.stepFreqRec

/-- What is stored are frequencies of 48 bits, the records show them, and writing back what a record
shows changes nothing. -/
structure SweepBank.Sound (s : SweepBank K) : Prop extends s.Shown bunches where
  startFreq_lt : s.startFreq.toNat < 2 ^ 48
  deltaFreq_lt : s.deltaFreq.toNat < 2 ^ 48
  writeBack_startFreq : s.write bunches (.startFreq s.startFreqRec) = s
  writeBack_stepFreq : s.write bunches (.stepFreq s.stepFreqRec) = s
  writeBack_count : s.write bunches (.count s.countRec) = s
  writeBack_endFreq : s.write bunches (.endFreq s.endFreqRec) = s

/-- The units of the step that a write to the end asks for. -/
def SweepBank.targetUnits (value : K) (s : SweepBank K) : K :=
  s.targetDeltaFreq bunches value / bunches * 2 ^ 48

/-- A write changes no other stored value; a write to the end comes as close to what is asked for as
the resolution allows, if the step is one that a signed frequency can be rounded to. -/
def SweepBank.Lawful (s : SweepBank K) : SweepWrite K → Prop
  | .startFreq value =>
      let s' := s.write bunches (.startFreq value)
      s'.deltaFreq = s.deltaFreq ∧ s'.captureCount = s.captureCount
  | .stepFreq value =>
      let s' := s.write bunches (.stepFreq value)
      s'.startFreq = s.startFreq ∧ s'.captureCount = s.captureCount
  | .count value =>
      let s' := s.write bunches (.count value)
      s'.startFreq = s.startFreq ∧ s'.deltaFreq = s.deltaFreq
  | .endFreq value =>
      let s' := s.write bunches (.endFreq value)
      s'.startFreq = s.startFreq ∧ s'.captureCount = s.captureCount ∧
        (-2 ^ 47 ≤ s.targetUnits bunches value → s.targetUnits bunches value < 2 ^ 47 - 1 / 2 →
          |s'.endFreqRec - value| ≤ s.captureCount * (bunches / 2 ^ 48 / 2))

/-- The advance of a bunch is not less than half a unit below a whole cycle. -/
def FitsTune (tune : K) : Prop := Int.fract (tune / bunches) < 1 - 1 / 2 ^ 49

/-- The frequency that a write stores fits. -/
def SweepBank.Fits (s : SweepBank K) : SweepWrite K → Prop
  | .startFreq value => FitsTune bunches value
  | .stepFreq value => FitsTune bunches value
  | .count _ => True
  | .endFreq value => FitsTune bunches (s.targetDeltaFreq bunches value)

/-! ### One write -/

section step
variable {bunches} {s : SweepBank K}

namespace SweepBank

omit [LinearOrder K] [IsStrictOrderedRing K] [FloorRing K] in
/-- The end that is shown follows from the rest. -/
theorem Shown.endFreq_eq (h : s.Shown bunches) : s.endFreqRec = s.computeEndFreq bunches := by
  rw [h.endFreq, h.startFreq, h.stepFreq, h.count]
  rfl

omit [IsStrictOrderedRing K] in
theorem Shown.write (h : s.Shown bunches) {w : SweepWrite K} (hcount : ∀ n, w = .count n → 1 ≤ n) :
    (s.write bunches w).Shown bunches := by
  cases w with
  | startFreq value =>
      refine ⟨h.count_pos, rfl, h.stepFreq, h.count, ?_⟩
      show _ + _ = _ + _
      rw [← h.count, ← h.stepFreq]
      rfl
  | stepFreq value =>
      refine ⟨h.count_pos, h.startFreq, rfl, h.count, ?_⟩
      show _ + _ = _ + _
      rw [← h.count, ← h.startFreq]
      rfl
  | count value =>
      refine ⟨hcount value rfl, h.startFreq, h.stepFreq, rfl, ?_⟩
      show _ + _ = _ + _
      rw [← h.startFreq, ← h.stepFreq]
      rfl
  | endFreq value =>
      refine ⟨h.count_pos, h.startFreq, rfl, h.count, ?_⟩
      show _ + _ = _ + _
      rw [← h.count, ← h.startFreq]
      rfl

/-- With frequencies of 48 bits, what is shown is what was written. -/
theorem Shown.sound (h : s.Shown bunches) (hpos : 0 < bunches) (hstart : s.startFreq.toNat < 2 ^ 48)
    (hdelta : s.deltaFreq.toNat < 2 ^ 48) : s.Sound bunches := by
  have hcount : (s.captureCount : K) ≠ 0 := by
    have := h.count_pos
    exact_mod_cast (by omega : s.captureCount ≠ 0)
  have hend := h.endFreq_eq
  refine ⟨h, hstart, hdelta, ?_, ?_, ?_, ?_⟩
  · show s.writeStartFreq bunches s.startFreqRec = s
    unfold writeStartFreq updateEndFreq
    dsimp only
    rw [h.startFreq, tuneToFreq_freqToTune hpos hstart, ← h.startFreq]
    exact congrArg (fun e => { s with endFreqRec := e }) hend.symm
  · show s.writeStepFreq bunches s.stepFreqRec = s
    unfold writeStepFreq updateEndFreq
    dsimp only
    rw [h.stepFreq, tuneToFreq_freqToTuneSigned hpos hdelta, ← h.stepFreq]
    exact congrArg (fun e => { s with endFreqRec := e }) hend.symm
  · obtain ⟨startFreq, deltaFreq, captureCount, startFreqRec, stepFreqRec, countRec, endFreqRec⟩ := s
    obtain rfl : countRec = captureCount := h.count
    exact congrArg (SweepBank.mk startFreq deltaFreq countRec startFreqRec stepFreqRec countRec)
      hend.symm
  · -- the step that is asked for is the one stored
    have htarget : s.targetDeltaFreq bunches s.endFreqRec = freqToTuneSigned bunches s.deltaFreq := by
      unfold targetDeltaFreq
      rw [hend]
      unfold computeEndFreq
      rw [add_sub_cancel_left, mul_div_cancel_left₀ _ hcount]
    show s.writeEndFreq bunches s.endFreqRec = s
    unfold writeEndFreq
    dsimp only
    rw [htarget, tuneToFreq_freqToTuneSigned hpos hdelta, ← h.stepFreq]
    exact congrArg (fun e => { s with endFreqRec := e }) hend.symm

/-- The end that is reached. -/
theorem Shown.lawful (h : s.Shown bunches) (hpos : 0 < bunches) (w : SweepWrite K) :
    s.Lawful bunches w := by
  cases w with
  | startFreq value => exact ⟨rfl, rfl⟩
  | stepFreq value => exact ⟨rfl, rfl⟩
  | count value => exact ⟨rfl, rfl⟩
  | endFreq value =>
      refine ⟨rfl, rfl, fun hge hlt => ?_⟩
      have hcount : (0 : K) < s.captureCount := by
        have := h.count_pos
        exact_mod_cast (by omega : 0 < s.captureCount)
      have hbunches : (0 : K) < bunches := by exact_mod_cast hpos
      have hround := abs_sub_round (s.targetUnits bunches value)
      have hstep := freqToTuneSigned_tuneToFreq hge hlt
      have hvalue : value = freqToTune bunches s.startFreq +
          s.captureCount * (s.targetUnits bunches value / 2 ^ 48 * bunches) := by
        unfold targetUnits targetDeltaFreq
        field_simp
        ring
      have hend : (s.write bunches (.endFreq value)).endFreqRec = freqToTune bunches s.startFreq +
          s.captureCount * ((round (s.targetUnits bunches value) : ℤ) / 2 ^ 48 * bunches) := by
        show _ + _ * freqToTuneSigned bunches (tuneToFreq bunches _) = _
        rw [hstep]
        rfl
      have hdiff : (s.write bunches (.endFreq value)).endFreqRec - value =
          s.captureCount * (bunches / 2 ^ 48) *
            ((round (s.targetUnits bunches value) : ℤ) - s.targetUnits bunches value) := by
        rw [hend]
        generalize s.targetUnits bunches value = units at hvalue
        rw [hvalue]
        ring
      rw [hdiff, abs_mul, abs_of_pos (by positivity), abs_sub_comm]
      calc s.captureCount * (bunches / 2 ^ 48) *
            |s.targetUnits bunches value - (round (s.targetUnits bunches value) : ℤ)|
          ≤ s.captureCount * (bunches / 2 ^ 48) * (1 / 2) :=
            mul_le_mul_of_nonneg_left hround (by positivity)
        _ = s.captureCount * (bunches / 2 ^ 48 / 2) := by ring

/-- A write stores numbers of 48 bits exactly if what it stores fits. -/
theorem Sound.write_iff (h : s.Sound bunches) (hpos : 0 < bunches) {w : SweepWrite K}
    (hcount : ∀ n, w = .count n → 1 ≤ n) : (s.write bunches w).Sound bunches ↔ s.Fits bunches w := by
  have hshown := h.toShown.write hcount
  cases w with
  | startFreq value =>
      rw [show s.Fits bunches (.startFreq value) ↔ _ from (tuneToFreq_lt_iff bunches value).symm]
      exact ⟨fun hs => hs.startFreq_lt, fun hlt => hshown.sound hpos hlt h.deltaFreq_lt⟩
  | stepFreq value =>
      rw [show s.Fits bunches (.stepFreq value) ↔ _ from (tuneToFreq_lt_iff bunches value).symm]
      exact ⟨fun hs => hs.deltaFreq_lt, fun hlt => hshown.sound hpos h.startFreq_lt hlt⟩
  | count value =>
      exact ⟨fun _ => trivial, fun _ => hshown.sound hpos h.startFreq_lt h.deltaFreq_lt⟩
  | endFreq value =>
      rw [show s.Fits bunches (.endFreq value) ↔ _ from
        (tuneToFreq_lt_iff bunches (s.targetDeltaFreq bunches value)).symm]
      exact ⟨fun hs => hs.deltaFreq_lt, fun hlt => hshown.sound hpos h.startFreq_lt hlt⟩

theorem blank_sound (hpos : 0 < bunches) {count : ℕ} (hcount : 1 ≤ count) :
    (blank count : SweepBank K).Sound bunches := by
  have hzero : (freqToTune bunches 0 : K) = 0 := by simp [freqToTune]
  have hzero' : (freqToTuneSigned bunches 0 : K) = 0 := by simp [freqToTuneSigned]
  refine Shown.sound ⟨hcount, hzero.symm, hzero'.symm, rfl, ?_⟩ hpos (by simp [blank])
    (by simp [blank])
  simp [blank]

end SweepBank

end step

/-! ### All along a run -/

section runs
variable {bunches} {s s' : SweepBank K} {l : List (SweepBank K × SweepWrite K × Unit)}

omit [IsStrictOrderedRing K] in
theorem sweepRecords_step {x : SweepWrite K × Unit}
    (h : (sweepRecords bunches).system.Step s x s') :
    (∀ n, x.1 = .count n → 1 ≤ n) ∧ s' = s.write bunches x.1 := by
  obtain ⟨w, u⟩ := x
  cases w with
  | count value =>
      change (if 1 ≤ value then some (s.write bunches (.count value), ()) else none) = _ at h
      split_ifs at h with hcount
      cases h
      exact ⟨fun n hn => by cases hn; exact hcount, rfl⟩
  | startFreq value =>
      cases h
      exact ⟨nofun, rfl⟩
  | stepFreq value =>
      cases h
      exact ⟨nofun, rfl⟩
  | endFreq value =>
      cases h
      exact ⟨nofun, rfl⟩

/-- The records are right after every write, and no write does anything else than it should, exactly
if every frequency that is stored fits 48 bits. -/
theorem sweep_editing_iff (hpos : 0 < bunches) (hinit : (sweepRecords bunches).init s)
    (hp : Runs.Path (sweepRecords bunches).system s l s') :
    (Runs.Always (fun s => s.Sound bunches) l s' ∧ ∀ x ∈ l, x.1.Lawful bunches x.2.1) ↔
      ∀ x ∈ l, x.1.Fits bunches x.2.1 := by
  have hsound : s.Sound bunches := by
    obtain ⟨count, hcount, rfl⟩ := hinit
    exact SweepBank.blank_sound hpos hcount
  have hkeep : ∀ (s : SweepBank K) x s', s.Shown bunches →
      (sweepRecords bunches).system.Step s x s' → s'.Shown bunches := by
    intro s x s' h hstep
    obtain ⟨hcount, rfl⟩ := sweepRecords_step hstep
    exact h.write hcount
  have hshown : Runs.Always (fun s => s.Shown bunches) l s' :=
    hp.guarded_always (C := fun _ _ => True) (fun s x s' h _ hstep => hkeep s x s' h hstep)
      (fun _ _ => trivial) hsound.toShown
  rw [and_iff_left fun x hx => (hshown.1 x hx).lawful hpos x.2.1]
  refine hp.always_iff (I := fun s => s.Shown bunches) (C := fun s x => s.Fits bunches x.1)
    hkeep ?_ hsound.toShown hsound
  intro s x s' _ h hstep
  obtain ⟨hcount, rfl⟩ := sweepRecords_step hstep
  exact h.write_iff hpos hcount

end runs

end sweep

/-- Ten points from a quarter of a cycle on. -/
def quarterSweep : SweepBank ℚ := (SweepBank.blank 10).write 936 (.startFreq 234)

theorem quarterSweep_path :
    Runs.Path (sweepRecords 936).system (SweepBank.blank 10)
      [(SweepBank.blank 10, SweepWrite.startFreq (234 : ℚ), ()),
        (quarterSweep, SweepWrite.endFreq 300, ())]
      (quarterSweep.write 936 (.endFreq 300)) :=
  .cons rfl (.cons rfl (.nil _))

/-- A start and then an end. -/
theorem sweep_editing_interval :
    Runs.Always (fun s => s.Sound 936)
      [(SweepBank.blank 10, SweepWrite.startFreq (234 : ℚ), ()),
        (quarterSweep, SweepWrite.endFreq 300, ())]
      (quarterSweep.write 936 (.endFreq 300)) :=
  ((sweep_editing_iff (by decide) ⟨10, by decide, rfl⟩ quarterSweep_path).mpr (by
      intro x hx
      rcases List.mem_cons.mp hx with rfl | hx
      · show Int.fract _ < _
        decide +kernel
      · rw [List.mem_singleton] at hx
        subst hx
        show Int.fract _ < _
        decide +kernel)).1

/-- A start a little below zero is not stored as a number of 48 bits. -/
theorem sweep_editing_not_sound :
    ¬ ∀ (bunches : ℕ) (s s' : SweepBank ℚ) (l : List (SweepBank ℚ × SweepWrite ℚ × Unit)),
      0 < bunches → (sweepRecords bunches).init s →
      Runs.Path (sweepRecords bunches).system s l s' →
      Runs.Always (fun s => s.Sound bunches) l s' := by
  intro h
  have hpath : Runs.Path (sweepRecords 936).system (SweepBank.blank 10)
      [(SweepBank.blank 10, SweepWrite.startFreq (-1 / 10 ^ 12 : ℚ), ())]
      ((SweepBank.blank 10).write 936 (.startFreq (-1 / 10 ^ 12))) := .single rfl
  have hsound := (h 936 _ _ _ (by decide) ⟨10, by decide, rfl⟩ hpath).2
  have hfreq : (tuneToFreq 936 (-1 / 10 ^ 12 : ℚ)).toNat = 2 ^ 48 := by decide +kernel
  exact absurd hsound.startFreq_lt (by
    show ¬ (tuneToFreq 936 (-1 / 10 ^ 12 : ℚ)).toNat < 2 ^ 48
    rw [hfreq]
    exact lt_irrefl _)

end Mbf.Sequencer
