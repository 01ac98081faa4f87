import Mathlib.Data.Int.ModEq
import Mbf.Bunch.Gains
import Mbf.Lib.Cells

/-! # Offsets of the bunches

`convert_field` of `configs.c` and `FOR_BUNCHES_OFFSET` of `common.h`, in the arithmetic of the
machine.  A delay of the configuration file is an `int` that is read into an `unsigned int`;
`convert_field` makes of it the offset of a bunch.  `FOR_BUNCHES_OFFSET` goes through all bunches and
at the same time through all of them from the offset on.

An `int` wraps; so the least delay, which has no negative, comes out right.  For any number of
bunches from one on that is an `int`, the offset is the remainder, and the arrays that are copied
through the loop and back are unchanged (`convert_field_normalised`).  An `unsigned int` from `2^31`
on is read as a negative number of bunches; the offset then is right for small delays only
(`convert_field_iff`). -/

namespace Mbf.Bunch

/-! ### The program -/

/-- `a % b` for `int`; none where it traps. -/
def intRem (a b : ℤ) : Option ℤ :=
  if b = 0 ∨ (a = -2 ^ 31 ∧ b = -1) then none else some (a.tmod b)

/-- `convert_field` -/
def convertFieldInt (bunchesPerTurn value : BitVec 32) : Option (BitVec 32) :=
  let result := value.toInt
  let bunchesPerTurn := bunchesPerTurn.toInt
  if result < 0 then
    (intRem (((-result).bmod (2 ^ 32) - 1).bmod (2 ^ 32)) bunchesPerTurn).map fun remainder =>
      BitVec.ofInt 32 (bunchesPerTurn - 1 - remainder)
  else
    (intRem result bunchesPerTurn).map (BitVec.ofInt 32)

/-- The iterations of `FOR_BUNCHES_OFFSET` from `i` and `j` on, at most so many. -/
def bunchesOffsetFrom (bunches : BitVec 32) : ℕ → BitVec 32 → BitVec 32 → List (ℕ × ℕ)
  | 0, _, _ => []
  | fuel + 1, i, j =>
      if i < bunches then
        (i.toNat, j.toNat) ::
          bunchesOffsetFrom bunches fuel (i + 1) (if j + 1 < bunches then j + 1 else 0)
      else []

/-- `FOR_BUNCHES_OFFSET`: the pairs `(i, j)`, in order.  It takes no more iterations than there are
bunches. -/
def forBunchesOffset (bunches offset : BitVec 32) : List (ℕ × ℕ) :=
  bunchesOffsetFrom bunches bunches.toNat 0 offset

section copy
variable {α : Type}

/-- A loop that writes a waveform to the hardware: `hw[i] = wf[j]`. -/
def writeThrough (loop : List (ℕ × ℕ)) (wf hw : ℕ → α) : ℕ → α :=
  loop.foldl (fun hw p => Function.update hw p.1 (wf p.2)) hw

/-- A loop that reads a waveform back: `wf[j] = hw[i]`. -/
def readThrough (loop : List (ℕ × ℕ)) (hw wf : ℕ → α) : ℕ → α :=
  loop.foldl (fun wf p => Function.update wf p.2 (hw p.1)) wf

end copy

/-! ### The loop -/

/-- The second index for the first one `i`. -/
abbrev offsetBy (bunches offset i : ℕ) : ℕ := (i + offset) % bunches

theorem offsetBy_succ {bunches offset i : ℕ} (h : 0 < bunches) :
    offsetBy bunches offset (i + 1) =
      if offsetBy bunches offset i + 1 < bunches then offsetBy bunches offset i + 1 else 0 := by
  have hlt := Nat.mod_lt (i + offset) h
  have hsucc : offsetBy bunches offset (i + 1) = (offsetBy bunches offset i + 1) % bunches := by
    unfold offsetBy
    rw [Nat.mod_add_mod, Nat.add_right_comm]
  rw [hsucc]
  split_ifs with hwrap
  · exact Nat.mod_eq_of_lt hwrap
  · have heq : offsetBy bunches offset i + 1 = bunches := by unfold offsetBy at *; omega
    rw [heq, Nat.mod_self]

theorem ofNat_succ (n : ℕ) : BitVec.ofNat 32 n + 1 = BitVec.ofNat 32 (n + 1) :=
  (BitVec.ofNat_add n 1).symm

/-- The rest of the loop, however much fuel there is beyond what it needs. -/
theorem bunchesOffsetFrom_eq {bunches : BitVec 32} {offset : ℕ} (fuel n i : ℕ)
    (hn : i + n = bunches.toNat) (hfuel : n ≤ fuel) :
    bunchesOffsetFrom bunches fuel (BitVec.ofNat 32 i)
        (BitVec.ofNat 32 (offsetBy bunches.toNat offset i)) =
      (List.range' i n).map fun i => (i, offsetBy bunches.toNat offset i) := by
  have hbunches := bunches.isLt
  induction n generalizing fuel i with
  | zero =>
      cases fuel with
      | zero => rfl
      | succ fuel =>
          have hdone : ¬ BitVec.ofNat 32 i < bunches := by
            rw [BitVec.lt_def, BitVec.toNat_ofNat]
            omega
          exact if_neg hdone
  | succ n ih =>
      obtain ⟨fuel, rfl⟩ : ∃ k, fuel = k + 1 := ⟨fuel - 1, by omega⟩
      have hpos : 0 < bunches.toNat := by omega
      have hj := Nat.mod_lt (i + offset) hpos
      have hmore : BitVec.ofNat 32 i < bunches := by
        rw [BitVec.lt_def, BitVec.toNat_ofNat]
        omega
      have hnext : (if BitVec.ofNat 32 (offsetBy bunches.toNat offset i) + 1 < bunches then
          BitVec.ofNat 32 (offsetBy bunches.toNat offset i) + 1 else 0) =
            BitVec.ofNat 32 (offsetBy bunches.toNat offset (i + 1)) := by
        have hlt : BitVec.ofNat 32 (offsetBy bunches.toNat offset i + 1) < bunches ↔
            offsetBy bunches.toNat offset i + 1 < bunches.toNat := by
          rw [BitVec.lt_def, BitVec.toNat_ofNat, Nat.mod_eq_of_lt (by unfold offsetBy; omega)]
        rw [offsetBy_succ hpos, ofNat_succ]
        by_cases hwrap : offsetBy bunches.toNat offset i + 1 < bunches.toNat
        · rw [if_pos (hlt.mpr hwrap), if_pos hwrap]
        · rw [if_neg fun h => hwrap (hlt.mp h), if_neg hwrap]
          rfl
      unfold bunchesOffsetFrom
      rw [if_pos hmore, hnext, ofNat_succ, ih fuel (i + 1) (by omega) (by omega),
        List.range'_succ, List.map_cons, BitVec.toNat_ofNat, BitVec.toNat_ofNat,
        Nat.mod_eq_of_lt (by omega), Nat.mod_eq_of_lt (by unfold offsetBy; omega)]

/-- The loop goes through every bunch once, with the one that is `offset` further on. -/
theorem forBunchesOffset_eq {bunches offset : BitVec 32} (h : offset < bunches) :
    forBunchesOffset bunches offset =
      (List.range bunches.toNat).map fun i => (i, offsetBy bunches.toNat offset.toNat i) := by
  have hstart : offset =
      BitVec.ofNat 32 (offsetBy bunches.toNat offset.toNat 0) := by
    unfold offsetBy
    rw [Nat.zero_add, Nat.mod_eq_of_lt h, BitVec.ofNat_toNat, BitVec.setWidth_eq]
  unfold forBunchesOffset
  rw [List.range_eq_range']
  conv_lhs => rw [hstart]
  exact bunchesOffsetFrom_eq _ _ 0 (by omega) le_rfl

section loop
variable {bunches offset : BitVec 32} (h : offset < bunches)
include h

theorem forBunchesOffset_fst :
    (forBunchesOffset bunches offset).map Prod.fst = List.range bunches.toNat := by
  rw [forBunchesOffset_eq h, List.map_map]
  exact List.map_id _

/-- Every bunch comes second exactly once, too. -/
theorem forBunchesOffset_snd_nodup : ((forBunchesOffset bunches offset).map Prod.snd).Nodup := by
  rw [forBunchesOffset_eq h, List.map_map, List.nodup_map_iff_inj_on List.nodup_range]
  intro i hi k hk heq
  rw [List.mem_range] at hi hk
  have hmod : i ≡ k [MOD bunches.toNat] := Nat.ModEq.add_right_cancel' offset.toNat heq
  exact Nat.ModEq.eq_of_lt_of_lt hmod hi hk

theorem forBunchesOffset_snd_mem {j : ℕ} :
    j ∈ (forBunchesOffset bunches offset).map Prod.snd ↔ j < bunches.toNat := by
  -- as many different numbers below the number of bunches as there are
  have hsub : ((forBunchesOffset bunches offset).map Prod.snd).Subperm
      (List.range bunches.toNat) := by
    refine (forBunchesOffset_snd_nodup h).subperm fun j hj => ?_
    rw [forBunchesOffset_eq h, List.map_map, List.mem_map] at hj
    obtain ⟨i, hi, rfl⟩ := hj
    exact List.mem_range.mpr (Nat.mod_lt _ (by rw [List.mem_range] at hi; omega))
  have hperm := hsub.perm_of_length_le (by simp [forBunchesOffset_eq h])
  rw [hperm.mem_iff, List.mem_range]

section copy
variable {α : Type}

/-- What is written is the waveform from the offset on. -/
theorem writeThrough_apply (wf hw : ℕ → α) {i : ℕ} (hi : i < bunches.toNat) :
    writeThrough (forBunchesOffset bunches offset) wf hw i =
      wf (offsetBy bunches.toNat offset.toNat i) := by
  have hmem : (i, offsetBy bunches.toNat offset.toNat i) ∈ forBunchesOffset bunches offset := by
    rw [forBunchesOffset_eq h]
    exact List.mem_map_of_mem (List.mem_range.mpr hi)
  have hnodup : ((forBunchesOffset bunches offset).map Prod.fst).Nodup := by
    rw [forBunchesOffset_fst h]
    exact List.nodup_range
  exact Cells.foldl_copy _ hnodup wf hw hmem

theorem readThrough_apply (hw wf : ℕ → α) {i : ℕ} (hi : i < bunches.toNat) :
    readThrough (forBunchesOffset bunches offset) hw wf
      (offsetBy bunches.toNat offset.toNat i) = hw i := by
  have hmem : (offsetBy bunches.toNat offset.toNat i, i) ∈
      (forBunchesOffset bunches offset).map Prod.swap := by
    rw [forBunchesOffset_eq h, List.map_map]
    exact List.mem_map.mpr ⟨i, List.mem_range.mpr hi, rfl⟩
  have hnodup : (((forBunchesOffset bunches offset).map Prod.swap).map Prod.fst).Nodup := by
    rw [List.map_map]
    exact forBunchesOffset_snd_nodup h
  have hcopy := Cells.foldl_copy _ hnodup hw wf hmem
  rw [List.foldl_map] at hcopy
  exact hcopy

/-- A waveform that is written and read back is unchanged. -/
theorem readThrough_writeThrough (wf hw wf' : ℕ → α) {j : ℕ} (hj : j < bunches.toNat) :
    readThrough (forBunchesOffset bunches offset)
      (writeThrough (forBunchesOffset bunches offset) wf hw) wf' j = wf j := by
  obtain ⟨p, hp, rfl⟩ := List.mem_map.mp ((forBunchesOffset_snd_mem h).mpr hj)
  rw [forBunchesOffset_eq h, List.mem_map] at hp
  obtain ⟨i, hi, rfl⟩ := hp
  rw [List.mem_range] at hi
  exact (readThrough_apply h _ _ hi).trans (writeThrough_apply h _ _ hi)

/-- So is the hardware if it is read and written back. -/
theorem writeThrough_readThrough (hw wf hw' : ℕ → α) {i : ℕ} (hi : i < bunches.toNat) :
    writeThrough (forBunchesOffset bunches offset)
      (readThrough (forBunchesOffset bunches offset) hw wf) hw' i = hw i :=
  (writeThrough_apply h _ _ hi).trans (readThrough_apply h _ _ hi)

end copy

end loop

/-! ### The remainder -/

theorem intRem_of_nonneg {a b : ℤ} (ha : 0 ≤ a) (hb : b ≠ 0) : intRem a b = some (a % b) := by
  have hdefined : ¬ (b = 0 ∨ (a = -2 ^ 31 ∧ b = -1)) := by omega
  unfold intRem
  rw [if_neg hdefined, Int.tmod_eq_emod_of_nonneg ha]

section convert
variable {bunches value : BitVec 32}

theorem toInt_bounds (x : BitVec 32) : -2 ^ 31 ≤ x.toInt ∧ x.toInt < 2 ^ 31 :=
  ⟨BitVec.le_toInt x, BitVec.toInt_lt⟩

theorem toInt_cases (x : BitVec 32) :
    x.toNat < 2 ^ 31 ∧ x.toInt = x.toNat ∨ 2 ^ 31 ≤ x.toNat ∧ x.toInt = x.toNat - 2 ^ 32 := by
  rw [BitVec.toInt_eq_toNat_cond]
  split_ifs with h
  · exact .inl ⟨by omega, rfl⟩
  · exact .inr ⟨by omega, by omega⟩

theorem toNat_ofInt {x : ℤ} (h : 0 ≤ x) (h' : x < 2 ^ 32) : ((BitVec.ofInt 32 x).toNat : ℤ) = x := by
  rw [BitVec.toNat_ofInt]
  omega

theorem convertFieldInt_nonneg (h : 0 ≤ value.toInt) (hb : bunches.toInt ≠ 0) :
    convertFieldInt bunches value = some (BitVec.ofInt 32 (value.toInt % bunches.toInt)) := by
  unfold convertFieldInt
  dsimp only
  rw [if_neg (by omega), intRem_of_nonneg h hb]
  rfl

/-- The least `int` has no negative, but wraps twice. -/
theorem neg_sub_one_bmod (h : value.toInt < 0) :
    ((-value.toInt).bmod (2 ^ 32) - 1).bmod (2 ^ 32) = -value.toInt - 1 := by
  have hbounds := toInt_bounds value
  rw [Int.sub_eq_add_neg, Int.bmod_add_bmod, ← Int.sub_eq_add_neg]
  exact Int.bmod_eq_of_le (by omega) (by omega)

theorem convertFieldInt_neg (h : value.toInt < 0) (hb : bunches.toInt ≠ 0) :
    convertFieldInt bunches value =
      some (BitVec.ofInt 32 (bunches.toInt - 1 - (-value.toInt - 1) % bunches.toInt)) := by
  unfold convertFieldInt
  dsimp only
  rw [if_pos h, neg_sub_one_bmod h, intRem_of_nonneg (by omega) hb]
  rfl

theorem convertFieldInt_zero (hb : bunches.toInt = 0) : convertFieldInt bunches value = none := by
  have hrem : ∀ a, intRem a 0 = none := fun a => if_pos (.inl rfl)
  unfold convertFieldInt
  dsimp only
  rw [hb, hrem, hrem]
  split_ifs <;> rfl

/-- As a number the offset is `convertField`. -/
theorem convertFieldInt_eq (hpos : 0 < bunches.toNat) (hint : bunches.toNat < 2 ^ 31) :
    convertFieldInt bunches value =
      some (BitVec.ofNat 32 (convertField bunches.toNat value.toInt)) := by
  have hb : bunches.toInt = bunches.toNat := by
    rcases toInt_cases bunches with h | h <;> omega
  rw [← BitVec.ofInt_natCast, convertField_eq hpos]
  by_cases h : 0 ≤ value.toInt
  · rw [convertFieldInt_nonneg h (by omega), hb]
  · have hfield := convertField_eq hpos value.toInt
    have hlt := Int.emod_lt_of_pos (-value.toInt - 1) (by omega : (0 : ℤ) < bunches.toNat)
    unfold convertField at hfield
    rw [if_pos (by omega), Int.tmod_eq_emod_of_nonneg (by omega),
      Int.toNat_of_nonneg (by omega)] at hfield
    rw [convertFieldInt_neg (by omega) (by omega), hb, hfield]

/-- What `convert_field` should do: the remainder of the delay, over which the loop goes through all
bunches once, and by which arrays are written and read back unchanged. -/
structure Normalised (bunches value offset : BitVec 32) : Prop where
  range : offset < bunches
  congruent : (offset.toNat : ℤ) ≡ value.toInt [ZMOD bunches.toNat]
  pairs : forBunchesOffset bunches offset =
    (List.range bunches.toNat).map fun i => (i, (i + offset.toNat) % bunches.toNat)
  permutes : ((forBunchesOffset bunches offset).map Prod.snd).Perm (List.range bunches.toNat)
  readWrite : ∀ (α : Type) (wf hw wf' : ℕ → α), ∀ j < bunches.toNat,
    readThrough (forBunchesOffset bunches offset)
      (writeThrough (forBunchesOffset bunches offset) wf hw) wf' j = wf j
  writeRead : ∀ (α : Type) (hw wf hw' : ℕ → α), ∀ i < bunches.toNat,
    writeThrough (forBunchesOffset bunches offset)
      (readThrough (forBunchesOffset bunches offset) hw wf) hw' i = hw i

/-- A remainder is all that is needed. -/
theorem normalised_of_remainder {offset : BitVec 32} (hpos : 0 < bunches.toNat)
    (h : (offset.toNat : ℤ) = value.toInt % bunches.toNat) : Normalised bunches value offset := by
  have hlt := Int.emod_lt_of_pos value.toInt (by omega : (0 : ℤ) < bunches.toNat)
  have hrange : offset < bunches := by
    rw [BitVec.lt_def]
    omega
  refine ⟨hrange, ?_, forBunchesOffset_eq hrange, ?_, fun α wf hw wf' j hj =>
    readThrough_writeThrough hrange wf hw wf' hj, fun α hw wf hw' i hi =>
    writeThrough_readThrough hrange hw wf hw' hi⟩
  · rw [h]
    exact Int.mod_modEq _ _
  · exact (List.perm_ext_iff_of_nodup (forBunchesOffset_snd_nodup hrange) List.nodup_range).mpr
      fun j => (forBunchesOffset_snd_mem hrange).trans List.mem_range.symm

/-- The offset is the remainder, if it is right. -/
theorem Normalised.eq {offset : BitVec 32} (h : Normalised bunches value offset) :
    (offset.toNat : ℤ) = value.toInt % bunches.toNat := by
  have hrange : offset.toNat < bunches.toNat := h.range
  rw [← h.congruent.eq]
  exact (Int.emod_eq_of_lt (by omega) (by omega)).symm

/-- The number of bunches is an `int`, and not zero. -/
theorem convert_field_small (hpos : 0 < bunches.toNat) (hsmall : bunches.toNat < 2 ^ 31) :
    ∃ offset, convertFieldInt bunches value = some offset ∧ Normalised bunches value offset := by
  refine ⟨_, convertFieldInt_eq hpos hsmall, normalised_of_remainder hpos ?_⟩
  have hlt := Int.emod_lt_of_pos value.toInt (by omega : (0 : ℤ) < bunches.toNat)
  have hge := Int.emod_nonneg value.toInt (by omega : (bunches.toNat : ℤ) ≠ 0)
  rw [← BitVec.ofInt_natCast, convertField_eq hpos]
  exact toNat_ofInt hge (by omega)

/-- Two numbers of the same remainder that are close. -/
theorem eq_of_modEq {a b n : ℤ} (h : a ≡ b [ZMOD n]) (ha : 0 ≤ a) (han : a < n) (hb : 0 ≤ b)
    (hbn : b < n) : a = b := by
  have heq := h.eq
  rwa [Int.emod_eq_of_lt ha han, Int.emod_eq_of_lt hb hbn] at heq

/-- The number of bunches is negative as an `int`. -/
theorem convert_field_large (hlarge : 2 ^ 31 ≤ bunches.toNat) :
    (∃ offset, convertFieldInt bunches value = some offset ∧ Normalised bunches value offset) ↔
      bunches.toNat - 2 ^ 32 ≤ value.toInt ∧ value.toInt < 2 ^ 32 - bunches.toNat := by
  have hb : bunches.toInt = -(2 ^ 32 - bunches.toNat) := by
    rcases toInt_cases bunches with h | h <;> omega
  have hbounds := toInt_bounds value
  have hwidth := bunches.isLt
  have hpos : (0 : ℤ) < 2 ^ 32 - bunches.toNat := by omega
  have hrem : ∀ a : ℤ, a % bunches.toInt = a % (2 ^ 32 - bunches.toNat) := fun a => by
    rw [hb, Int.emod_neg]
  by_cases hnonneg : 0 ≤ value.toInt
  · have hlt := Int.emod_lt_of_pos value.toInt hpos
    have hge := Int.emod_nonneg value.toInt hpos.ne'
    have hval : ((BitVec.ofInt 32 (value.toInt % bunches.toInt)).toNat : ℤ) =
        value.toInt % (2 ^ 32 - bunches.toNat) := by
      rw [hrem]
      exact toNat_ofInt hge (by omega)
    rw [convertFieldInt_nonneg hnonneg (by omega)]
    constructor
    · rintro ⟨offset, hoffset, hnorm⟩
      rw [← Option.some.inj hoffset] at hnorm
      have heq := eq_of_modEq hnorm.congruent (by omega) (by omega) hnonneg (by omega)
      omega
    · rintro ⟨-, hsmall⟩
      refine ⟨_, rfl, normalised_of_remainder (by omega) ?_⟩
      rw [hval, Int.emod_eq_of_lt hnonneg hsmall, Int.emod_eq_of_lt hnonneg (by omega)]
  · have hlt := Int.emod_lt_of_pos (-value.toInt - 1) hpos
    have hge := Int.emod_nonneg (-value.toInt - 1) hpos.ne'
    have hval : ((BitVec.ofInt 32 (bunches.toInt - 1 -
        (-value.toInt - 1) % bunches.toInt)).toNat : ℤ) =
          bunches.toNat - 1 - (-value.toInt - 1) % (2 ^ 32 - bunches.toNat) := by
      rw [hrem, hb, BitVec.toNat_ofInt]
      omega
    rw [convertFieldInt_neg (by omega) (by omega)]
    constructor
    · rintro ⟨offset, hoffset, hnorm⟩
      rw [← Option.some.inj hoffset] at hnorm
      have hcongr := hnorm.congruent.trans
        (Int.add_modEq_right (a := value.toInt) (n := bunches.toNat)).symm
      have heq := eq_of_modEq hcongr (by omega) (by omega) (by omega) (by omega)
      omega
    · rintro ⟨hsmall, -⟩
      have hself : (-value.toInt - 1) % (2 ^ 32 - bunches.toNat) = -value.toInt - 1 :=
        Int.emod_eq_of_lt (by omega) (by omega)
      refine ⟨_, rfl, normalised_of_remainder (by omega) ?_⟩
      have hemod : value.toInt % bunches.toNat = (value.toInt + bunches.toNat) % bunches.toNat :=
        (Int.add_emod_right _ _).symm
      rw [hval, hself, hemod, Int.emod_eq_of_lt (by omega) (by omega)]
      omega

/-- For which delays the offset is right, over all numbers of bunches. -/
theorem convert_field_iff :
    (∃ offset, convertFieldInt bunches value = some offset ∧ Normalised bunches value offset) ↔
      0 < bunches.toNat ∧ (2 ^ 31 ≤ bunches.toNat →
        bunches.toNat - 2 ^ 32 ≤ value.toInt ∧ value.toInt < 2 ^ 32 - bunches.toNat) := by
  by_cases hpos : 0 < bunches.toNat
  · by_cases hsmall : bunches.toNat < 2 ^ 31
    · exact iff_of_true (convert_field_small hpos hsmall)
        ⟨hpos, fun hlarge => absurd hlarge hsmall.not_ge⟩
    · have hlarge : 2 ^ 31 ≤ bunches.toNat := not_lt.mp hsmall
      rw [convert_field_large hlarge]
      exact ⟨fun h => ⟨hpos, fun _ => h⟩, fun h => h.2 hlarge⟩
  · -- a remainder by zero traps
    have hzero : bunches.toInt = 0 := by
      rcases toInt_cases bunches with h | h <;> omega
    refine ⟨?_, fun h => absurd h.1 hpos⟩
    rintro ⟨offset, hoffset, -⟩
    rw [convertFieldInt_zero hzero] at hoffset
    cases hoffset

/-- The offset is the remainder for every delay and every number of bunches. -/
theorem convert_field_normalised (hpos : 0 < bunches.toNat) (hint : bunches.toNat < 2 ^ 31) :
    ∃ offset, convertFieldInt bunches value = some offset ∧ Normalised bunches value offset :=
  convert_field_iff.mpr ⟨hpos, fun hlarge => absurd hlarge hint.not_ge⟩

/-- Also for the least delay. -/
theorem convert_field_normalised_least :
    ∃ offset, convertFieldInt 936 (-2147483648) = some offset ∧
      Normalised 936 (-2147483648) offset :=
  convert_field_normalised (by decide) (by decide)

end convert

end Mbf.Bunch
