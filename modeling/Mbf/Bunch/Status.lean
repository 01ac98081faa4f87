import Mbf.Bunch.Select

/-! # The status of a bunch configuration

`assess_complexity` of `bunch_select.c` describes a waveform in one line: all bunches have one
value, all but one have, only one bunch is enabled, none is, or it is complicated.  It counts the
bunches that have the value of the first enabled one; if that value is the odd one out, it counts
those that have the value of the next enabled one.

Without an array of enables `next_enabled_index` is 0 wherever it is asked to start, so the second
count is that of the first value again: an odd value on the first bunch of an FIR selection, which
has no enables, is reported as complicated.  In every other case the report is exact
(`assess_exact_iff`).  The assertion of `next_enabled_index` is never reached. -/

namespace Mbf.Bunch

/-! ### The program -/

inductive Complexity where
  /-- All the same value. -/
  | allSame
  /-- All one value except for one different value. -/
  | allButOne
  /-- Only one bunch enabled. -/
  | singleBunch
  | complicated
  | allDisabled
deriving DecidableEq

section program
variable {bunches : ℕ}

/-- The enables, or `NULL`. -/
abbrev Enables (bunches : ℕ) := Option (Waveform bunches Bool)

/-- `!enables  ||  enables[i]`. -/
def Enables.at (enables : Enables bunches) (i : Fin bunches) : Bool :=
  match enables with
  | none => true
  | some enables => enables i

/-- `count_enables`. -/
def countEnables : Enables bunches → ℕ
  | some enables => (List.finRange bunches).foldl (fun count i => count + (enables i).toNat) 0
  | none => bunches

/-- `next_enabled_index`; none where its assertion fails. -/
def nextEnabledIndex : Enables bunches → ℕ → Option ℕ
  | some enables, start => (((List.finRange bunches).drop start).find? enables).map Fin.val
  | none, _ => some 0

/-- `count_value`: the count, and the last index with another value in place of `diffIx`. -/
def countValue (wf : Waveform bunches ℤ) (enables : Enables bunches) (value : ℤ) (diffIx : ℕ) :
    ℕ × ℕ :=
  (List.finRange bunches).foldl
    (fun r i =>
      if enables.at i then
        if wf i = value then (r.1 + 1, r.2) else (r.1, i.val)
      else r)
    (0, diffIx)

/-- The result of `assess_complexity` and what its arguments point to. -/
structure Assessment where
  complexity : Complexity
  value : ℤ
  other : ℤ
  otherIx : ℕ
deriving DecidableEq

/-- The value of a bunch; an index from elsewhere must be in range. -/
def Waveform.read {α : Type} (wf : Waveform bunches α) (i : ℕ) : Option α :=
  if h : i < bunches then some (wf ⟨i, h⟩) else none

/-- `assess_complexity`, with what its arguments point to before.  None where an assertion fails or
an index is out of range. -/
def assessComplexity (wf : Waveform bunches ℤ) (enables : Enables bunches) (value other : ℤ)
    (otherIx : ℕ) : Option Assessment := do
  let enableCount := countEnables enables
  if enableCount = 0 then
    return ⟨.allDisabled, value, other, otherIx⟩
  let firstValid ← nextEnabledIndex enables 0
  let value ← wf.read firstValid
  let (count, otherIx) := countValue wf enables value otherIx
  if count = enableCount then
    if count = 1 then
      return ⟨.singleBunch, value, other, firstValid⟩
    else
      return ⟨.allSame, value, other, otherIx⟩
  else if count = enableCount - 1 then
    let other ← wf.read otherIx
    return ⟨.allButOne, value, other, otherIx⟩
  else if count = 1 then
    let nextValid ← nextEnabledIndex enables (firstValid + 1)
    let value ← wf.read nextValid
    let other ← wf.read firstValid
    let (count, otherIx) := countValue wf enables value otherIx
    if count = enableCount - 1 then
      return ⟨.allButOne, value, other, otherIx⟩
    else
      return ⟨.complicated, value, other, otherIx⟩
  else
    return ⟨.complicated, value, other, otherIx⟩

end program

theorem read_val {bunches : ℕ} {α : Type} (wf : Waveform bunches α) (i : Fin bunches) :
    wf.read i.val = some (wf i) := dif_pos i.isLt

/-! ### What the report says -/

section report
variable {bunches : ℕ} (wf : Waveform bunches ℤ) (enables : Enables bunches)

/-- Only the bunch `i` is enabled. -/
def Only (i : Fin bunches) : Prop := enables.at i = true ∧ ∀ j, enables.at j = true → j = i

/-- Two or more bunches are enabled, and all of them have the value. -/
def Uniform (value : ℤ) : Prop :=
  (∃ i j, i ≠ j ∧ enables.at i = true ∧ enables.at j = true) ∧
    ∀ j, enables.at j = true → wf j = value

/-- The bunch `i` is enabled and differs from the others that are, of which there are some, and
which all have the value. -/
def OddOne (value : ℤ) (i : Fin bunches) : Prop :=
  enables.at i = true ∧ wf i ≠ value ∧ (∃ j, j ≠ i ∧ enables.at j = true) ∧
    ∀ j, j ≠ i → enables.at j = true → wf j = value

/-- The report says what is the case, and all of it. -/
structure Exact (r : Assessment) : Prop where
  allDisabled : r.complexity = .allDisabled ↔ ∀ i, enables.at i = false
  singleBunch : r.complexity = .singleBunch ↔ ∃ i, Only enables i
  single : r.complexity = .singleBunch → ∃ i, Only enables i ∧ r.otherIx = i ∧ r.value = wf i
  allSame : r.complexity = .allSame ↔ ∃ value, Uniform wf enables value
  same : r.complexity = .allSame → Uniform wf enables r.value
  allButOne : r.complexity = .allButOne ↔ ∃ value i, OddOne wf enables value i
  odd : r.complexity = .allButOne → ∃ i, OddOne wf enables r.value i ∧ r.otherIx = i ∧ r.other = wf i
  complicated : r.complexity = .complicated ↔
    (∃ i, enables.at i = true) ∧ (¬ ∃ i, Only enables i) ∧ (¬ ∃ value, Uniform wf enables value) ∧
      ¬ ∃ value i, OddOne wf enables value i

end report

/-! ### Counting -/

section counting
variable {bunches : ℕ} {wf : Waveform bunches ℤ} {enables : Enables bunches}

/-- The enabled bunches, in order. -/
def enabledBunches (enables : Enables bunches) : List (Fin bunches) :=
  (List.finRange bunches).filter enables.at

/-- How many enabled bunches have the value. -/
def having (wf : Waveform bunches ℤ) (enables : Enables bunches) (value : ℤ) : ℕ :=
  (enabledBunches enables).countP fun i => decide (wf i = value)

theorem mem_enabledBunches {i : Fin bunches} :
    i ∈ enabledBunches enables ↔ enables.at i = true := by
  simp [enabledBunches]

theorem enabledBunches_nodup (enables : Enables bunches) : (enabledBunches enables).Nodup :=
  (List.nodup_finRange _).filter _

theorem enabledBunches_none :
    enabledBunches (none : Enables bunches) = List.finRange bunches :=
  List.filter_eq_self.mpr fun _ _ => rfl

theorem countEnables_eq : countEnables enables = (enabledBunches enables).length := by
  cases enables with
  | none => rw [enabledBunches_none, List.length_finRange]; rfl
  | some enables =>
      have hfold : ∀ (l : List (Fin bunches)) (count : ℕ),
          l.foldl (fun count i => count + (enables i).toNat) count =
            count + (l.filter enables).length := by
        intro l
        induction l with
        | nil => intro count; rfl
        | cons i l ih =>
            intro count
            rw [List.foldl_cons, ih]
            cases hi : enables i with
            | false => simp [hi]
            | true => simp [hi]; omega
      exact (hfold _ 0).trans (Nat.zero_add _)

theorem countValue_eq (value : ℤ) (diffIx : ℕ) :
    countValue wf enables value diffIx =
      (having wf enables value,
        (((enabledBunches enables).filter fun i => decide (wf i ≠ value)).getLast?.map
          Fin.val).getD diffIx) := by
  have hfold : ∀ (l : List (Fin bunches)) (count diffIx : ℕ),
      l.foldl (fun (r : ℕ × ℕ) i => if enables.at i then
          if wf i = value then (r.1 + 1, r.2) else (r.1, i.val) else r) (count, diffIx) =
        (count + (l.filter enables.at).countP (fun i => decide (wf i = value)),
          (((l.filter enables.at).filter fun i => decide (wf i ≠ value)).getLast?.map
            Fin.val).getD diffIx) := by
    intro l
    induction l with
    | nil => intro count diffIx; rfl
    | cons i l ih =>
        intro count diffIx
        rw [List.foldl_cons]
        by_cases hen : enables.at i = true
        · by_cases hi : wf i = value
          · simp only [hen, if_true, hi, ih, List.filter_cons_of_pos, List.countP_cons,
              decide_true, ne_eq, not_true_eq_false, decide_false, Bool.false_eq_true,
              not_false_eq_true, List.filter_cons_of_neg, Prod.mk.injEq, and_true]
            omega
          · simp only [hen, if_true, hi, if_false, ih, List.filter_cons_of_pos, List.countP_cons,
              decide_false, ne_eq, not_false_eq_true, decide_true, Bool.false_eq_true, Nat.add_zero,
              List.getLast?_cons, Option.map_some, Option.getD_some, Prod.mk.injEq, true_and]
            cases ((l.filter enables.at).filter fun i => decide (¬ wf i = value)).getLast? with
            | none => rfl
            | some j => rfl
        · simp only [hen, Bool.false_eq_true, if_false, ih, not_false_eq_true,
            List.filter_cons_of_neg]
  exact (hfold _ 0 diffIx).trans (by rw [Nat.zero_add]; rfl)

/-- What follows the first enabled bunch is enabled after it. -/
theorem filter_drop {p : Fin bunches → Bool} {first : Fin bunches} {rest : List (Fin bunches)}
    (h : (List.finRange bunches).filter p = first :: rest) :
    ((List.finRange bunches).drop (first.val + 1)).filter p = rest := by
  have hsplit : (List.finRange bunches).drop first.val =
      first :: (List.finRange bunches).drop (first.val + 1) := by
    rw [List.drop_eq_getElem_cons (by simp)]
    simp
  have hp : p first = true := by
    have hmem : first ∈ (List.finRange bunches).filter p := by simp [h]
    exact (List.mem_filter.mp hmem).2
  rw [← List.take_append_drop first.val (List.finRange bunches), hsplit, List.filter_append,
    List.filter_cons_of_pos hp] at h
  cases hbefore : ((List.finRange bunches).take first.val).filter p with
  | nil =>
      rw [hbefore] at h
      exact (List.cons.inj h).2
  | cons i l =>
      -- nothing enabled lies before the first
      rw [hbefore] at h
      have hi : i = first := (List.cons.inj h).1
      have hmem : i ∈ ((List.finRange bunches).take first.val).filter p := by simp [hbefore]
      obtain ⟨k, hk, hget⟩ := List.mem_take_iff_getElem.mp (List.mem_filter.mp hmem).1
      rw [List.getElem_finRange] at hget
      have hval : k = i.val := by rw [← hget]; rfl
      rw [hi] at hval
      omega

theorem nextEnabledIndex_zero {first : Fin bunches} {rest : List (Fin bunches)}
    (h : enabledBunches enables = first :: rest) :
    nextEnabledIndex enables 0 = some first.val := by
  cases enables with
  | none =>
      rw [enabledBunches_none] at h
      have hget : (List.finRange bunches)[0]? = some first := by rw [h]; rfl
      obtain ⟨hlt, hval⟩ := List.getElem?_eq_some_iff.mp hget
      rw [List.getElem_finRange] at hval
      rw [← hval]
      rfl
  | some e =>
      have hfind : (List.finRange bunches).find? e = some first := by
        rw [← List.head?_filter]
        exact congrArg List.head? h
      simp [nextEnabledIndex, hfind]

/-- With enables, the next one is found. -/
theorem nextEnabledIndex_next {e : Waveform bunches Bool} {first second : Fin bunches}
    {rest : List (Fin bunches)} (h : enabledBunches (some e) = first :: second :: rest) :
    nextEnabledIndex (some e) (first.val + 1) = some second.val := by
  have hfind : ((List.finRange bunches).drop (first.val + 1)).find? e = some second := by
    rw [← List.head?_filter, filter_drop (p := e) h]
    rfl
  simp [nextEnabledIndex, hfind]

/-! ### The report by counts -/

theorem having_add (wf : Waveform bunches ℤ) (enables : Enables bunches) (value : ℤ) :
    having wf enables value + ((enabledBunches enables).filter fun i => decide (wf i ≠ value)).length
      = (enabledBunches enables).length := by
  rw [← List.countP_eq_length_filter,
    List.length_eq_countP_add_countP (fun i => decide (wf i = value))]
  simp [having]

theorem having_le (wf : Waveform bunches ℤ) (enables : Enables bunches) (value : ℤ) :
    having wf enables value ≤ (enabledBunches enables).length :=
  List.countP_le_length

/-- A list without duplicates whose only member is `i`. -/
theorem eq_singleton {l : List (Fin bunches)} {i : Fin bunches} (hl : l.Nodup)
    (h : ∀ j, j ∈ l ↔ j = i) : l = [i] :=
  List.perm_singleton.mp ((List.perm_ext_iff_of_nodup hl (List.nodup_singleton i)).mpr
    fun j => (h j).trans List.mem_singleton.symm)

theorem only_iff {i : Fin bunches} : Only enables i ↔ enabledBunches enables = [i] := by
  constructor
  · rintro ⟨hi, hothers⟩
    refine eq_singleton (enabledBunches_nodup _) fun j => ⟨fun hj => ?_, fun hj => ?_⟩
    · exact hothers j (mem_enabledBunches.mp hj)
    · rw [hj]
      exact mem_enabledBunches.mpr hi
  · intro h
    refine ⟨mem_enabledBunches.mp (by simp [h]), fun j hj => ?_⟩
    have hmem := mem_enabledBunches.mpr hj
    rw [h] at hmem
    exact List.mem_singleton.mp hmem

theorem two_le_iff : 2 ≤ (enabledBunches enables).length ↔
    ∃ i j, i ≠ j ∧ enables.at i = true ∧ enables.at j = true := by
  constructor
  · intro h
    match hl : enabledBunches enables, h with
    | i :: j :: l, _ =>
        have hnodup := enabledBunches_nodup enables
        rw [hl] at hnodup
        refine ⟨i, j, ?_, mem_enabledBunches.mp (by simp [hl]),
          mem_enabledBunches.mp (by simp [hl])⟩
        rintro rfl
        simp at hnodup
  · rintro ⟨i, j, hne, hi, hj⟩
    have hi' := mem_enabledBunches.mpr hi
    have hj' := mem_enabledBunches.mpr hj
    match hl : enabledBunches enables with
    | [] => simp [hl] at hi'
    | [k] =>
        rw [hl, List.mem_singleton] at hi' hj'
        exact absurd (hi'.trans hj'.symm) hne
    | _ :: _ :: _ => simp

theorem uniform_iff {value : ℤ} : Uniform wf enables value ↔
    2 ≤ (enabledBunches enables).length ∧
      having wf enables value = (enabledBunches enables).length := by
  rw [two_le_iff, having, List.countP_eq_length]
  refine and_congr_right fun _ => ⟨fun h i hi => ?_, fun h i hi => ?_⟩
  · exact decide_eq_true (h i (mem_enabledBunches.mp hi))
  · exact of_decide_eq_true (h i (mem_enabledBunches.mpr hi))

theorem oddOne_iff {value : ℤ} {i : Fin bunches} : OddOne wf enables value i ↔
    2 ≤ (enabledBunches enables).length ∧
      ((enabledBunches enables).filter fun i => decide (wf i ≠ value)) = [i] := by
  have hmem : ∀ j, j ∈ ((enabledBunches enables).filter fun i => decide (wf i ≠ value)) ↔
      enables.at j = true ∧ wf j ≠ value := by
    intro j
    rw [List.mem_filter, mem_enabledBunches, decide_eq_true_iff]
  constructor
  · rintro ⟨hi, hne, ⟨j, hj, hon⟩, hothers⟩
    refine ⟨two_le_iff.mpr ⟨j, i, hj, hon, hi⟩,
      eq_singleton ((enabledBunches_nodup _).filter _) fun k => ?_⟩
    rw [hmem]
    refine ⟨fun ⟨hk, hval⟩ => ?_, fun hk => ?_⟩
    · by_contra hki
      exact hval (hothers k hki hk)
    · rw [hk]
      exact ⟨hi, hne⟩
  · rintro ⟨htwo, hfilter⟩
    have hmem' : ∀ j, (enables.at j = true ∧ wf j ≠ value) ↔ j = i := by
      intro j
      rw [← hmem, hfilter, List.mem_singleton]
    obtain ⟨hi, hne⟩ := (hmem' i).mpr rfl
    refine ⟨hi, hne, ?_, fun j hj hon => ?_⟩
    · obtain ⟨j, k, hjk, hj, hk⟩ := two_le_iff.mp htwo
      by_cases hji : j = i
      · exact ⟨k, fun hki => hjk (hji.trans hki.symm), hk⟩
      · exact ⟨j, hji, hj⟩
    · by_contra hval
      exact hj ((hmem' j).mp ⟨hon, hval⟩)

theorem exists_oddOne_iff {value : ℤ} : (∃ i, OddOne wf enables value i) ↔
    2 ≤ (enabledBunches enables).length ∧
      having wf enables value + 1 = (enabledBunches enables).length := by
  have hadd := having_add wf enables value
  simp only [oddOne_iff]
  rw [exists_and_left, ← List.length_eq_one_iff]
  refine and_congr_right fun _ => ?_
  omega

/-- Where all but one agree, the index of the last that differs is that one. -/
theorem countValue_odd {value : ℤ} {i : Fin bunches} (h : OddOne wf enables value i) (diffIx : ℕ) :
    countValue wf enables value diffIx = (having wf enables value, i.val) := by
  rw [countValue_eq, (oddOne_iff.mp h).2]
  rfl

/-- Bunches with different values are counted apart. -/
theorem having_add_having (wf : Waveform bunches ℤ) (enables : Enables bunches) {v v' : ℤ}
    (h : v ≠ v') :
    having wf enables v + having wf enables v' ≤ (enabledBunches enables).length := by
  have hle : having wf enables v' ≤
      ((enabledBunches enables).filter fun i => decide (wf i ≠ v)).length := by
    rw [← List.countP_eq_length_filter]
    refine List.countP_mono_left fun i _ hi => ?_
    rw [decide_eq_true_iff] at hi ⊢
    rw [hi]
    exact h.symm
  have hadd := having_add wf enables v
  omega

theorem having_pos (wf : Waveform bunches ℤ) {i : Fin bunches} (h : enables.at i = true) :
    0 < having wf enables (wf i) :=
  List.countP_pos_iff.mpr ⟨i, mem_enabledBunches.mpr h, decide_eq_true rfl⟩

/-! ### The report is exact -/

theorem disabled_iff (enables : Enables bunches) :
    (∀ i, enables.at i = false) ↔ (enabledBunches enables).length = 0 := by
  rw [List.length_eq_zero_iff, List.eq_nil_iff_forall_not_mem]
  refine forall_congr' fun i => ?_
  rw [mem_enabledBunches, Bool.not_eq_true]

theorem exists_only_iff (enables : Enables bunches) :
    (∃ i, Only enables i) ↔ (enabledBunches enables).length = 1 := by
  simp only [only_iff, List.length_eq_one_iff]

theorem OddOne.two_le {value : ℤ} {i : Fin bunches} (h : OddOne wf enables value i) :
    2 ≤ (enabledBunches enables).length := (oddOne_iff.mp h).1

theorem OddOne.having_eq {value : ℤ} {i : Fin bunches} (h : OddOne wf enables value i) :
    having wf enables value + 1 = (enabledBunches enables).length :=
  (exists_oddOne_iff.mp ⟨i, h⟩).2

theorem Uniform.not_oddOne {value value' : ℤ} {i : Fin bunches} (h : Uniform wf enables value) :
    ¬ OddOne wf enables value' i := by
  rintro ⟨hi, hne, ⟨j, hj, hon⟩, hothers⟩
  rw [h.2 i hi, ← hothers j hj hon, h.2 j hon] at hne
  exact hne rfl

/-- The report is right about what it says. -/
def Reported (wf : Waveform bunches ℤ) (enables : Enables bunches) (r : Assessment) : Prop :=
  match r.complexity with
  | .allDisabled => ∀ i, enables.at i = false
  | .singleBunch => ∃ i, Only enables i ∧ r.otherIx = i ∧ r.value = wf i
  | .allSame => Uniform wf enables r.value
  | .allButOne => ∃ i, OddOne wf enables r.value i ∧ r.otherIx = i ∧ r.other = wf i
  | .complicated => 2 ≤ (enabledBunches enables).length ∧ (¬ ∃ value, Uniform wf enables value) ∧
      ¬ ∃ value i, OddOne wf enables value i

/-- The five cases exclude each other, so a report that is right says all. -/
theorem Reported.exact {r : Assessment} (h : Reported wf enables r) : Exact wf enables r := by
  obtain ⟨complexity, value, other, otherIx⟩ := r
  have hdisabled := disabled_iff enables
  have honly := exists_only_iff enables
  have huniform : ∀ v, Uniform wf enables v → 2 ≤ (enabledBunches enables).length :=
    fun v hv => (uniform_iff.mp hv).1
  have hodd : ∀ v i, OddOne wf enables v i → 2 ≤ (enabledBunches enables).length :=
    fun v i hv => hv.two_le
  have hsome : (∃ i, enables.at i = true) ↔ (enabledBunches enables).length ≠ 0 := by
    rw [ne_eq, ← hdisabled]
    simp
  cases complexity with
  | allDisabled =>
      have hzero := hdisabled.mp h
      refine ⟨⟨fun _ => h, fun _ => rfl⟩, ?_, by simp, ?_, by simp, ?_, by simp, ?_⟩
      · simp only [reduceCtorEq, false_iff, honly]; omega
      · simp only [reduceCtorEq, false_iff, not_exists]
        intro v hv
        have := huniform v hv
        omega
      · simp only [reduceCtorEq, false_iff, not_exists]
        intro v i hv
        have := hodd v i hv
        omega
      · simp only [reduceCtorEq, false_iff, hsome]
        omega
  | singleBunch =>
      obtain ⟨i, hi, hix, hval⟩ := h
      have hone := honly.mp ⟨i, hi⟩
      refine ⟨?_, by simpa using ⟨i, hi⟩, fun _ => ⟨i, hi, hix, hval⟩, ?_, by simp, ?_, by simp, ?_⟩
      · simp only [reduceCtorEq, false_iff, hdisabled]; omega
      · simp only [reduceCtorEq, false_iff, not_exists]
        intro v hv
        have := huniform v hv
        omega
      · simp only [reduceCtorEq, false_iff, not_exists]
        intro v j hv
        have := hodd v j hv
        omega
      · simp only [reduceCtorEq, false_iff, honly]
        omega
  | allSame =>
      have htwo := huniform _ h
      refine ⟨?_, ?_, by simp, by simpa using ⟨value, h⟩, fun _ => h, ?_, by simp, ?_⟩
      · simp only [reduceCtorEq, false_iff, hdisabled]; omega
      · simp only [reduceCtorEq, false_iff, honly]; omega
      · simp only [reduceCtorEq, false_iff, not_exists]
        intro v i
        exact Uniform.not_oddOne h
      · simp only [reduceCtorEq, false_iff]
        exact fun hc => hc.2.2.1 ⟨value, h⟩
  | allButOne =>
      obtain ⟨i, hi, hix, hval⟩ := h
      have htwo := hi.two_le
      refine ⟨?_, ?_, by simp, ?_, by simp, by simpa using ⟨value, i, hi⟩,
        fun _ => ⟨i, hi, hix, hval⟩, ?_⟩
      · simp only [reduceCtorEq, false_iff, hdisabled]; omega
      · simp only [reduceCtorEq, false_iff, honly]; omega
      · simp only [reduceCtorEq, false_iff, not_exists]
        intro v hv
        exact hv.not_oddOne hi
      · simp only [reduceCtorEq, false_iff]
        exact fun hc => hc.2.2.2 ⟨value, i, hi⟩
  | complicated =>
      obtain ⟨htwo, hnot, hnot'⟩ := h
      refine ⟨?_, ?_, by simp, ?_, by simp, ?_, by simp, ?_⟩
      · simp only [reduceCtorEq, false_iff, hdisabled]; omega
      · simp only [reduceCtorEq, false_iff, honly]; omega
      · simpa using hnot
      · simpa using hnot'
      · simp only [true_iff]
        exact ⟨hsome.mpr (by omega), by rw [honly]; omega, hnot, hnot'⟩

/-- There are no enables, and the first bunch, one of three or more, is the odd one. -/
def FirstOdd (wf : Waveform bunches ℤ) (enables : Enables bunches) : Prop :=
  enables = none ∧ 3 ≤ bunches ∧
    ∃ value, ∃ first : Fin bunches, first.val = 0 ∧ OddOne wf enables value first

section cases
variable {first : Fin bunches} {rest : List (Fin bunches)}
  (hl : enabledBunches enables = first :: rest)
include hl

theorem first_enabled : enables.at first = true := mem_enabledBunches.mp (by simp [hl])

/-- If all bunches have one value, it is that of the first. -/
theorem not_uniform (h : having wf enables (wf first) ≠ (enabledBunches enables).length) :
    ¬ ∃ value, Uniform wf enables value := by
  rintro ⟨value, hvalue⟩
  rw [← hvalue.2 first (first_enabled hl)] at hvalue
  exact h (uniform_iff.mp hvalue).2

/-- Unless the first bunch is the odd one, the common value is that of the first. -/
theorem oddOne_cases {value : ℤ} {i : Fin bunches} (h : OddOne wf enables value i) :
    (i = first ∧ having wf enables (wf first) = 1) ∨
      (value = wf first ∧ having wf enables (wf first) + 1 = (enabledBunches enables).length) := by
  have hpos := having_pos wf (first_enabled hl)
  by_cases hi : i = first
  · have hne : wf first ≠ value := hi ▸ h.2.1
    have hle := having_add_having wf enables hne
    have heq := h.having_eq
    exact .inl ⟨hi, by omega⟩
  · have hval := h.2.2.2 first (fun hf => hi hf.symm) (first_enabled hl)
    rw [hval]
    exact .inr ⟨rfl, h.having_eq⟩

theorem firstOdd_having (h : FirstOdd wf enables) :
    having wf enables (wf first) = 1 ∧ 3 ≤ (enabledBunches enables).length := by
  obtain ⟨rfl, hthree, value, i, hi, hodd⟩ := h
  have hlen : (enabledBunches (none : Enables bunches)).length = bunches := by
    rw [enabledBunches_none, List.length_finRange]
  have hfirst : first.val = 0 := by
    have := (nextEnabledIndex_zero hl).symm
    simpa [nextEnabledIndex] using this
  have heq : i = first := Fin.ext (hi.trans hfirst.symm)
  subst heq
  refine ⟨?_, by omega⟩
  obtain ⟨-, hone⟩ | ⟨hval, -⟩ := oddOne_cases hl hodd
  · exact hone
  · exact absurd hval.symm hodd.2.1

/-- The second value counts all but one, the first value being on one bunch of three or more. -/
theorem oddOne_second {second : Fin bunches} (hsecond : second ≠ first)
    (hon : enables.at second = true) (hone : having wf enables (wf first) = 1)
    (hthree : 3 ≤ (enabledBunches enables).length) :
    (having wf enables (wf second) = (enabledBunches enables).length - 1 →
        OddOne wf enables (wf second) first) ∧
      ∀ value i, OddOne wf enables value i → i = first ∧ value = wf second := by
  constructor
  · intro hcount
    obtain ⟨i, hi⟩ := exists_oddOne_iff.mpr
      ⟨by omega, (by omega : having wf enables (wf second) + 1 = (enabledBunches enables).length)⟩
    obtain ⟨rfl, -⟩ | ⟨hval, hcount'⟩ := oddOne_cases hl hi
    · exact hi
    · omega
  · intro value i hi
    obtain ⟨rfl, -⟩ | ⟨hval, hcount⟩ := oddOne_cases hl hi
    · exact ⟨rfl, (hi.2.2.2 second hsecond hon).symm⟩
    · omega

theorem assessComplexity_eq (value other : ℤ) (otherIx : ℕ) :
    assessComplexity wf enables value other otherIx =
      let n := (enabledBunches enables).length
      let r := countValue wf enables (wf first) otherIx
      if r.1 = n then
        if r.1 = 1 then some ⟨.singleBunch, wf first, other, first⟩
        else some ⟨.allSame, wf first, other, r.2⟩
      else if r.1 = n - 1 then
        (wf.read r.2).bind fun other => some ⟨.allButOne, wf first, other, r.2⟩
      else if r.1 = 1 then
        (nextEnabledIndex enables (first.val + 1)).bind fun next =>
          (wf.read next).bind fun v =>
            let r' := countValue wf enables v r.2
            if r'.1 = n - 1 then some ⟨.allButOne, v, wf first, r'.2⟩
            else some ⟨.complicated, v, wf first, r'.2⟩
      else some ⟨.complicated, wf first, other, r.2⟩ := by
  have hne : (enabledBunches enables).length ≠ 0 := by simp [hl]
  unfold assessComplexity
  rw [countEnables_eq, if_neg hne, nextEnabledIndex_zero hl]
  simp only [Option.pure_def, Option.bind_eq_bind, Option.bind_some, read_val]

end cases

theorem assessComplexity_nil (hl : enabledBunches enables = []) (value other : ℤ) (otherIx : ℕ) :
    assessComplexity wf enables value other otherIx =
      some ⟨.allDisabled, value, other, otherIx⟩ := by
  unfold assessComplexity
  rw [countEnables_eq, hl]
  rfl

/-- Without enables the second count is the first one again. -/
theorem second_none {first : Fin bunches} {rest : List (Fin bunches)}
    (hl : enabledBunches (none : Enables bunches) = first :: rest) (start : ℕ) :
    nextEnabledIndex (none : Enables bunches) start = some first.val := by
  rw [← nextEnabledIndex_zero hl]
  rfl

/-- The value of the first bunch is on no other, of which there are two or more. -/
theorem assess_second {first second : Fin bunches} {rest : List (Fin bunches)}
    (hl : enabledBunches enables = first :: second :: rest)
    (hone : having wf enables (wf first) = 1) (hthree : 3 ≤ (enabledBunches enables).length)
    (huniform : ¬ ∃ value, Uniform wf enables value) (otherIx : ℕ) :
    ∃ r, ((nextEnabledIndex enables (first.val + 1)).bind fun next =>
        (wf.read next).bind fun v =>
          let r' := countValue wf enables v otherIx
          if r'.1 = (enabledBunches enables).length - 1 then
            some ⟨.allButOne, v, wf first, r'.2⟩
          else some ⟨.complicated, v, wf first, r'.2⟩) = some r ∧
      (Exact wf enables r ↔ ¬ FirstOdd wf enables) := by
  have hsecond : second ≠ first := by
    have hnodup := enabledBunches_nodup enables
    rw [hl, List.nodup_cons] at hnodup
    exact fun h => hnodup.1 (by simp [h])
  have hon : enables.at second = true := mem_enabledBunches.mp (by simp [hl])
  obtain ⟨hcase, hothers⟩ := oddOne_second hl hsecond hon hone hthree
  cases enables with
  | none =>
      rw [second_none hl, Option.bind_some, read_val, Option.bind_some, countValue_eq]
      dsimp only
      rw [hone, if_neg (by omega)]
      refine ⟨_, rfl, fun hexact => ?_, fun hf => Reported.exact ⟨by omega, huniform, ?_⟩⟩
      · rintro ⟨-, -, v, i, -, hi⟩
        exact (hexact.complicated.mp rfl).2.2.2 ⟨v, i, hi⟩
      · rintro ⟨v, i, hi⟩
        obtain ⟨rfl, -⟩ := hothers v i hi
        have hzero : i.val = 0 := (Option.some.inj (nextEnabledIndex_zero hl)).symm
        have hlen : (enabledBunches (none : Enables bunches)).length = bunches := by
          rw [enabledBunches_none, List.length_finRange]
        exact hf ⟨rfl, by omega, v, i, hzero, hi⟩
  | some e =>
      have hf : ¬ FirstOdd wf (some e) := fun h => Option.some_ne_none e h.1
      rw [nextEnabledIndex_next hl, Option.bind_some, read_val, Option.bind_some]
      dsimp only
      by_cases hcount : having wf (some e) (wf second) = (enabledBunches (some e)).length - 1
      · have hi := hcase hcount
        rw [countValue_odd hi, if_pos hcount]
        exact ⟨_, rfl, fun _ => hf, fun _ => Reported.exact ⟨first, hi, rfl, rfl⟩⟩
      · rw [countValue_eq, if_neg hcount]
        refine ⟨_, rfl, fun _ => hf, fun _ => Reported.exact ⟨by omega, huniform, ?_⟩⟩
        rintro ⟨v, i, hi⟩
        obtain ⟨-, rfl⟩ := hothers v i hi
        have := hi.having_eq
        omega

/-- The assertion is not reached; the report is exact unless there are no enables and the first of
three or more bunches is the odd one. -/
theorem assess_exact_iff (wf : Waveform bunches ℤ) (enables : Enables bunches) (value other : ℤ)
    (otherIx : ℕ) :
    ∃ r, assessComplexity wf enables value other otherIx = some r ∧
      (Exact wf enables r ↔ ¬ FirstOdd wf enables) := by
  have hright : ∀ r, Reported wf enables r → ¬ FirstOdd wf enables →
      (Exact wf enables r ↔ ¬ FirstOdd wf enables) :=
    fun r hr hf => ⟨fun _ => hf, fun _ => hr.exact⟩
  cases hl : enabledBunches enables with
  | nil =>
      refine ⟨_, assessComplexity_nil hl _ _ _, hright _ ((disabled_iff _).mpr (by simp [hl])) ?_⟩
      rintro ⟨-, -, v, i, -, hodd⟩
      have := hodd.two_le
      simp [hl] at this
  | cons first rest =>
      have hfirst := first_enabled hl
      have hpos := having_pos wf hfirst
      have hle := having_le wf enables (wf first)
      have hodd : FirstOdd wf enables → having wf enables (wf first) = 1 ∧
          3 ≤ (enabledBunches enables).length := firstOdd_having hl
      have hcount : (countValue wf enables (wf first) otherIx).1 = having wf enables (wf first) := by
        rw [countValue_eq]
      rw [assessComplexity_eq hl]
      dsimp only
      rw [hcount]
      by_cases hall : having wf enables (wf first) = (enabledBunches enables).length
      · rw [if_pos hall]
        by_cases hone : having wf enables (wf first) = 1
        · -- the first bunch is the only one
          rw [if_pos hone]
          refine ⟨_, rfl, hright _ ⟨first, ?_, rfl, rfl⟩ fun hf => ?_⟩
          · obtain ⟨i, hi⟩ := List.length_eq_one_iff.mp (hall.symm.trans hone)
            rw [only_iff, hi, ← (List.cons.inj (hl.symm.trans hi)).1]
          · have := hodd hf
            omega
        · rw [if_neg hone]
          refine ⟨_, rfl, hright _ (uniform_iff.mpr ⟨by omega, hall⟩) fun hf => ?_⟩
          have := hodd hf
          omega
      · rw [if_neg hall]
        by_cases hbut : having wf enables (wf first) = (enabledBunches enables).length - 1
        · -- another bunch is the odd one, or there are two with different values
          rw [if_pos hbut]
          obtain ⟨i, hi⟩ := exists_oddOne_iff.mpr
            ⟨by omega, (by omega : having wf enables (wf first) + 1 = _)⟩
          rw [countValue_odd hi, read_val, Option.bind_some]
          refine ⟨_, rfl, hright _ ⟨i, hi, rfl, rfl⟩ fun hf => ?_⟩
          have := hodd hf
          omega
        · rw [if_neg hbut]
          have huniform := not_uniform hl hall
          by_cases hone : having wf enables (wf first) = 1
          · rw [if_pos hone]
            match rest, hl with
            | [], hl => simp [hl] at hall; omega
            | second :: rest, hl => exact assess_second hl hone (by omega) huniform _
          · rw [if_neg hone]
            refine ⟨_, rfl, hright _ ⟨by omega, huniform, ?_⟩ fun hf => hone (hodd hf).1⟩
            rintro ⟨v, i, hi⟩
            obtain ⟨-, h⟩ | ⟨-, h⟩ := oddOne_cases hl hi <;> omega

theorem assess_not_exact : ¬ ∀ (bunches : ℕ) (wf : Waveform bunches ℤ) (enables : Enables bunches),
    ∃ r, assessComplexity wf enables 0 0 0 = some r ∧ Exact wf enables r := by
  intro h
  obtain ⟨r, hr, hexact⟩ := h 3 (fun i => if i = 0 then 1 else 0) none
  have hr' : r = ⟨.complicated, 1, 1, 2⟩ := Option.some.inj (hr.symm.trans (by decide))
  rw [hr'] at hexact
  refine (hexact.complicated.mp rfl).2.2.2 ⟨0, 0, rfl, by decide, ⟨1, by decide, rfl⟩, ?_⟩
  intro j hj _
  revert hj
  revert j
  decide

end counting

end Mbf.Bunch
