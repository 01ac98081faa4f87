import Mbf.Config.Grammar

/-! # The number parsers

`parse_int`, `parse_uint`, `parse_uint32` and `parse_uint64` of `parse.c`.  `strtol` and `strtoul`
refuse what does not fit 64 bits, but `DEFINE_PARSE_NUM` casts their result to the type of the
target, and `strtoul` takes a sign; so a number out of the range of the target is accepted and
changed if its magnitude fits 64 bits, and only then (`parseNum_strtol`, `parseNum_strtoul`). -/

namespace Mbf.Command

open Parsing Mbf.Config

/-! ### The parsers -/

/-- `strtoull`: `unsigned long long` has the 64 bits of `unsigned long`. -/
def strtoull (s : List Char) : ℕ × List Char × Bool := strtoul s

/-- `parse_uint32`. -/
def parseUint32 : Parser ℕ := (fun n => n % 2 ^ 32) <$> parseNum strtoul

/-- `parse_uint64`. -/
def parseUint64 : Parser ℕ := parseNum strtoull

/-! ### Numerals -/

/-- A sign, or none: is it a minus? -/
inductive IsSign : List Char → Bool → Prop
  | none : IsSign [] false
  | plus : IsSign ['+'] false
  | minus : IsSign ['-'] true

/-- The text starts with white space, a sign and all of a run of digits. -/
def SignedDigits (text : List Char) (negative : Bool) (n : ℕ) (rest : List Char) : Prop :=
  ∃ w sign digits, text = w ++ (sign ++ (digits ++ rest)) ∧ IsSpace w ∧ IsSign sign negative ∧
    digits ≠ [] ∧ Span Char.isDigit (digits ++ rest) digits rest ∧ n = decimal digits

/-- The text starts with a numeral, as far as it goes, that denotes `z`. -/
def StartsWith (text : List Char) (z : ℤ) (rest : List Char) : Prop :=
  ∃ negative n, SignedDigits text negative n rest ∧ z = if negative then -(n : ℤ) else n

/-- The parser accepts exactly the numerals in its range, with their value, and goes past them. -/
def ExactAt {ν : Type} (p : Parser ν) (value : ν → ℤ) (min max : ℤ) (text : List Char) : Prop :=
  ∀ v rest, p text = .ok v rest ↔ StartsWith text (value v) rest ∧ min ≤ value v ∧ value v ≤ max

/-- A numeral at the start of the text that gets through the conversion is in the range. -/
def InRange (fits : ℤ → Prop) (min max : ℤ) (text : List Char) : Prop :=
  ∀ z rest, StartsWith text z rest → fits z → min ≤ z ∧ z ≤ max

/-- The numerals that `strtol` converts. -/
def FitsLong (z : ℤ) : Prop := -2 ^ 63 ≤ z ∧ z < 2 ^ 63

/-- The numerals that `strtoul` converts. -/
def FitsUnsignedLong (z : ℤ) : Prop := z.natAbs < 2 ^ 64

/-! ### What the conversion functions take -/

section conversion
variable {text rest : List Char} {negative : Bool} {n : ℕ} {z : ℤ}

theorem numeral_dropWhile : numeral text = numeral (text.dropWhile isSpace) := by
  have hspan : Span isSpace (text.dropWhile isSpace) [] (text.dropWhile isSpace) :=
    ⟨rfl, fun _ h => absurd h List.not_mem_nil, (Span.refl isSpace text).stops⟩
  unfold numeral
  rw [hspan.dropWhile_eq]

theorem magnitude_iff {b : Bool} : magnitude b text = some (negative, n, rest) ↔
    b = negative ∧ ∃ digits, text = digits ++ rest ∧ digits ≠ [] ∧
      Span Char.isDigit (digits ++ rest) digits rest ∧ n = decimal digits := by
  rw [magnitude_eq_some]
  constructor
  · rintro ⟨digits, hne, hspan, rfl, rfl⟩
    exact ⟨rfl, digits, hspan.eq, hne, hspan.eq ▸ hspan, rfl⟩
  · rintro ⟨rfl, digits, rfl, hne, hspan, rfl⟩
    exact ⟨digits, hne, hspan, rfl, rfl⟩

/-- `numeral` reads the numerals. -/
theorem numeral_eq_some :
    numeral text = some (negative, n, rest) ↔ SignedDigits text negative n rest := by
  constructor
  · intro h
    rw [numeral_dropWhile] at h
    have hspaces := Span.refl isSpace text
    have htrim : IsTrimmed (text.dropWhile isSpace) := hspaces.stops
    have hw : IsSpace (text.takeWhile isSpace) := hspaces.all
    have heq := hspaces.eq
    generalize text.dropWhile isSpace = s at h htrim heq
    by_cases hminus : s.head? = some '-'
    · obtain ⟨s, rfl⟩ := List.head?_eq_some_iff.mp hminus
      rw [numeral_minus, magnitude_iff] at h
      obtain ⟨rfl, digits, rfl, hdigits⟩ := h
      exact ⟨_, ['-'], digits, heq, hw, .minus, hdigits⟩
    · by_cases hplus : s.head? = some '+'
      · obtain ⟨s, rfl⟩ := List.head?_eq_some_iff.mp hplus
        rw [numeral_plus, magnitude_iff] at h
        obtain ⟨rfl, digits, rfl, hdigits⟩ := h
        exact ⟨_, ['+'], digits, heq, hw, .plus, hdigits⟩
      · rw [numeral_unsigned htrim hminus hplus, magnitude_iff] at h
        obtain ⟨rfl, digits, rfl, hdigits⟩ := h
        exact ⟨_, [], digits, heq, hw, .none, hdigits⟩
  · rintro ⟨w, sign, digits, rfl, hw, hsign, hne, hspan, rfl⟩
    have htrim : IsTrimmed (sign ++ (digits ++ rest)) := by
      cases hsign with
      | none =>
          cases digits with
          | nil => exact absurd rfl hne
          | cons d digits =>
              intro c hc
              obtain rfl := Option.some.inj hc
              have hdigit : validAlphanumChar d := by
                unfold validAlphanumChar
                rw [hspan.all d List.mem_cons_self, Bool.or_true]
              exact not_space_of_alphanum hdigit
      | plus =>
          intro c hc
          obtain rfl := Option.some.inj hc
          decide
      | minus =>
          intro c hc
          obtain rfl := Option.some.inj hc
          decide
    rw [numeral_dropWhile, (span_space hw htrim).dropWhile_eq]
    have hmagnitude : ∀ b, magnitude b (digits ++ rest) = some (b, decimal digits, rest) :=
      fun b => magnitude_iff.mpr ⟨rfl, digits, rfl, hne, hspan, rfl⟩
    cases hsign with
    | none =>
        rw [List.nil_append] at htrim ⊢
        rw [numeral_unsigned htrim (head_ne_of_digit hne hspan.all (by decide))
          (head_ne_of_digit hne hspan.all (by decide))]
        exact hmagnitude false
    | plus => exact hmagnitude false
    | minus => exact hmagnitude true

theorem SignedDigits.length (h : SignedDigits text negative n rest) :
    rest.length < text.length := by
  obtain ⟨w, sign, digits, rfl, -, -, hne, -⟩ := h
  have := List.length_pos_iff.mpr hne
  simp only [List.length_append]
  omega

/-- `strtol` converts the numerals in the range of `long`. -/
theorem parseNum_strtol : parseNum strtol text = .ok z rest ↔
    StartsWith text z rest ∧ -2 ^ 63 ≤ z ∧ z < 2 ^ 63 := by
  rw [parseNum_eq_ok, strtol_eq_ok]
  constructor
  · rintro ⟨negative, n, hnumeral, -, hvalue, hrange⟩
    exact ⟨⟨negative, n, numeral_eq_some.mp hnumeral, hvalue⟩, hrange⟩
  · rintro ⟨⟨negative, n, hdigits, hvalue⟩, hrange⟩
    exact ⟨negative, n, numeral_eq_some.mpr hdigits, hdigits.length, hvalue, hrange⟩

/-- `strtoul` converts the numerals whose magnitude is in the range of `unsigned long`. -/
theorem parseNum_strtoul : parseNum strtoul text = .ok n rest ↔
    ∃ z, StartsWith text z rest ∧ z.natAbs < 2 ^ 64 ∧ n = (z % 2 ^ 64).toNat := by
  rw [parseNum_eq_ok, strtoul_eq_ok]
  constructor
  · rintro ⟨negative, m, hnumeral, -, hmax, hvalue⟩
    refine ⟨_, ⟨negative, m, numeral_eq_some.mp hnumeral, rfl⟩, ?_, hvalue⟩
    rw [signed_natAbs]
    exact hmax
  · rintro ⟨_, ⟨negative, m, hdigits, rfl⟩, hmax, hvalue⟩
    rw [signed_natAbs] at hmax
    exact ⟨negative, m, numeral_eq_some.mpr hdigits, hdigits.length, hmax, hvalue⟩

/-- A text starts with one numeral at most. -/
theorem StartsWith.unique {z' : ℤ} {rest' : List Char} (h : StartsWith text z rest)
    (h' : StartsWith text z' rest') : z = z' ∧ rest = rest' := by
  obtain ⟨negative, n, hdigits, rfl⟩ := h
  obtain ⟨negative', n', hdigits', rfl⟩ := h'
  have hnumeral := numeral_eq_some.mpr hdigits
  rw [numeral_eq_some.mpr hdigits'] at hnumeral
  cases hnumeral
  exact ⟨rfl, rfl⟩

/-! ### When the parsers are exact -/

/-- A parser that takes the numerals that fit, and cuts their value down, is exact where all that
fit are in its range. -/
theorem exactAt_iff {ν : Type} {p : Parser ν} {value : ν → ℤ} {cut : ℤ → ν} {fits : ℤ → Prop}
    {min max : ℤ} (hvalue : Function.Injective value)
    (hp : ∀ v rest, p text = .ok v rest ↔ ∃ z, StartsWith text z rest ∧ fits z ∧ cut z = v)
    (hcut : ∀ z, min ≤ z → z ≤ max → fits z ∧ value (cut z) = z) :
    ExactAt p value min max text ↔ InRange fits min max text := by
  constructor
  · intro h z rest hz hfits
    have hcut' := (h (cut z) rest).mp ((hp _ _).mpr ⟨z, hz, hfits, rfl⟩)
    rw [(hz.unique hcut'.1).1]
    exact hcut'.2
  · intro h v rest
    rw [hp]
    constructor
    · rintro ⟨z, hz, hfits, rfl⟩
      obtain ⟨hmin, hmax⟩ := h z rest hz hfits
      rw [(hcut z hmin hmax).2]
      exact ⟨hz, hmin, hmax⟩
    · rintro ⟨hz, hmin, hmax⟩
      obtain ⟨hfits, heq⟩ := hcut _ hmin hmax
      exact ⟨_, hz, hfits, hvalue heq⟩

theorem parseInt_eq_ok : parseInt text = .ok z rest ↔
    ∃ y, StartsWith text y rest ∧ FitsLong y ∧ y.bmod (2 ^ 32) = z := by
  unfold parseInt
  simp only [map_eq_ok, parseNum_strtol, FitsLong, and_assoc]

theorem parseUint_eq_ok : parseUint text = .ok n rest ↔
    ∃ y, StartsWith text y rest ∧ FitsUnsignedLong y ∧ (y % 2 ^ 32).toNat = n := by
  unfold parseUint
  simp only [map_eq_ok, parseNum_strtoul]
  constructor
  · rintro ⟨_, ⟨y, hy, hfits, rfl⟩, rfl⟩
    exact ⟨y, hy, hfits, by omega⟩
  · rintro ⟨y, hy, hfits, rfl⟩
    exact ⟨_, ⟨y, hy, hfits, rfl⟩, by omega⟩

theorem parseUint64_eq_ok : parseUint64 text = .ok n rest ↔
    ∃ y, StartsWith text y rest ∧ FitsUnsignedLong y ∧ (y % 2 ^ 64).toNat = n := by
  have heq : parseUint64 = parseNum strtoul := rfl
  rw [heq, parseNum_strtoul]
  simp only [FitsUnsignedLong, eq_comm]

/-- A parser is exact on a text exactly if the text does not start with a numeral that is out of the
range of the target and whose magnitude fits 64 bits. -/
theorem number_parsers_exact_iff (text : List Char) :
    (ExactAt parseInt id (-2 ^ 31) (2 ^ 31 - 1) text ↔
        InRange FitsLong (-2 ^ 31) (2 ^ 31 - 1) text) ∧
      (ExactAt parseUint Nat.cast 0 (2 ^ 32 - 1) text ↔
        InRange FitsUnsignedLong 0 (2 ^ 32 - 1) text) ∧
      (ExactAt parseUint32 Nat.cast 0 (2 ^ 32 - 1) text ↔
        InRange FitsUnsignedLong 0 (2 ^ 32 - 1) text) ∧
      (ExactAt parseUint64 Nat.cast 0 (2 ^ 64 - 1) text ↔
        InRange FitsUnsignedLong 0 (2 ^ 64 - 1) text) := by
  have huint : ExactAt parseUint Nat.cast 0 (2 ^ 32 - 1) text ↔
      InRange FitsUnsignedLong 0 (2 ^ 32 - 1) text := by
    refine exactAt_iff Nat.cast_injective (fun v rest => parseUint_eq_ok) fun z hmin hmax => ?_
    unfold FitsUnsignedLong
    exact ⟨by omega, by omega⟩
  refine ⟨?_, huint, huint, ?_⟩
  · refine exactAt_iff Function.injective_id (fun v rest => parseInt_eq_ok) fun z hmin hmax => ?_
    unfold FitsLong
    refine ⟨by omega, Int.bmod_eq_of_le ?_ ?_⟩ <;> omega
  · refine exactAt_iff Nat.cast_injective (fun v rest => parseUint64_eq_ok) fun z hmin hmax => ?_
    unfold FitsUnsignedLong
    exact ⟨by omega, by omega⟩

/-- A negative number is silently taken for another one. -/
theorem parseUint_not_exact : ¬ ∀ text, ExactAt parseUint Nat.cast 0 (2 ^ 32 - 1) text := by
  intro h
  have hparse : parseUint ['-', '1'] = .ok 4294967295 [] := rfl
  obtain ⟨hstarts, -⟩ := (h ['-', '1'] 4294967295 []).mp hparse
  have hminus : StartsWith ['-', '1'] (-1) [] :=
    ⟨true, 1, ⟨[], ['-'], ['1'], rfl, by simp [IsSpace], .minus, by decide,
      ⟨rfl, List.all_eq_true.mp rfl, by simp⟩, rfl⟩, rfl⟩
  have hvalue := (hstarts.unique hminus).1
  omega

end conversion

end Mbf.Command
