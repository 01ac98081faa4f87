import Mbf.Config.Line

/-! # What the parser of a line takes

`do_parse_line` compared with the grammar of the lines: the names (`parseAssignment_iff`), the
numbers (`numeral_iff`), the values (`parseEntry_iff`) and the whole line (`doParseLine_iff`). -/

namespace Mbf.Config

open Parsing Mbf.Command

/-! ### Names -/

section names
variable {s rest name line text w : List Char} {k : ℕ}

theorem skipWhitespace_eq_ok {u : Unit} :
    skipWhitespace s = .ok u rest ↔ s.dropWhile isSpace = rest := by
  constructor
  · intro h
    cases h
    rfl
  · rintro rfl
    rfl

theorem parseEos_eq_ok {u : Unit} : parseEos s = .ok u rest ↔ s = [] ∧ rest = [] := by
  unfold parseEos
  simp only [bind_eq_ok, get_eq_ok, test_eq_ok]
  constructor
  · rintro ⟨_, _, ⟨rfl, rfl⟩, rfl, rfl⟩
    exact ⟨rfl, rfl⟩
  · rintro ⟨rfl, rfl⟩
    exact ⟨[], [], ⟨rfl, rfl⟩, rfl, rfl⟩

theorem parseChar_eq_ok {ch : Char} {u : Unit} :
    parseChar ch s = .ok u rest ↔ s = ch :: rest := by
  unfold parseChar
  rw [bind_eq_ok]
  constructor
  · rintro ⟨seen, t, hread, htest⟩
    obtain ⟨hseen, rfl⟩ := test_eq_ok.mp htest
    cases s with
    | nil => cases hread; cases hseen
    | cons c s =>
        by_cases hc : c = ch
        · subst hc
          have hread' : readChar c (c :: s) = .ok true s := by
            show (if c = c then _ else _ : Parser Bool) (c :: s) = _
            rw [if_pos rfl]
            rfl
          rw [hread'] at hread
          cases hread
          rfl
        · have hread' : readChar ch (c :: s) = .ok false (c :: s) := by
            show (if c = ch then _ else _ : Parser Bool) (c :: s) = _
            rw [if_neg hc]
            rfl
          rw [hread'] at hread
          cases hread
          cases hseen
  · rintro rfl
    refine ⟨true, rest, ?_, test_eq_ok.mpr ⟨rfl, rfl⟩⟩
    show (if ch = ch then _ else _ : Parser Bool) (ch :: rest) = _
    rw [if_pos rfl]
    rfl

theorem parseFilteredName_eq_ok {filterChar : Char → Bool} :
    parseFilteredName filterChar k s = .ok name rest ↔
      name ≠ [] ∧ Span filterChar s name rest ∧ name.length < k := by
  rw [← Span.take_iff, ← List.length_pos_iff]
  unfold parseFilteredName
  simp only [bind_eq_ok, get_eq_ok, test_eq_ok, set_eq_ok, pure_eq_ok]
  constructor
  · rintro ⟨_, _, ⟨rfl, rfl⟩, _, _, rfl, _, _, ⟨hpos, rfl⟩, _, _, ⟨hlength, rfl⟩, rfl, rfl⟩
    exact ⟨hpos, rfl, rfl, hlength⟩
  · rintro ⟨hpos, rfl, rfl, hlength⟩
    exact ⟨s, s, ⟨rfl, rfl⟩, (), _, rfl, (), _, ⟨hpos, rfl⟩, (), _, ⟨hlength, rfl⟩, rfl, rfl⟩

theorem parseAlphanumName_eq_ok : parseAlphanumName k s = .ok name rest ↔
    (∃ c ∈ s.head?, validNameChar c) ∧ name ≠ [] ∧ Span validAlphanumChar s name rest ∧
      name.length < k := by
  unfold parseAlphanumName
  simp only [bind_eq_ok, get_eq_ok, test_eq_ok, parseFilteredName_eq_ok, Option.any_eq_true]
  constructor
  · rintro ⟨_, _, ⟨rfl, rfl⟩, _, _, ⟨hhead, rfl⟩, hname⟩
    exact ⟨hhead, hname⟩
  · rintro ⟨hhead, hname⟩
    exact ⟨s, s, ⟨rfl, rfl⟩, (), s, ⟨hhead, rfl⟩, hname⟩

theorem toNat_of_space {c : Char} (h : isSpace c) : c.toNat = 32 ∨ 9 ≤ c.toNat ∧ c.toNat ≤ 13 := by
  unfold isSpace at h
  simp only [Bool.or_eq_true, Bool.and_eq_true, decide_eq_true_eq] at h
  rcases h with rfl | h
  · exact .inl rfl
  · exact .inr h

theorem toNat_of_alphanum {c : Char} (h : validAlphanumChar c) : 48 ≤ c.toNat ∧ c.toNat ≠ 61 := by
  unfold validAlphanumChar Char.isAlpha Char.isUpper Char.isLower Char.isDigit at h
  simp only [Bool.or_eq_true, Bool.and_eq_true, decide_eq_true_eq, ge_iff_le,
    UInt32.le_iff_toNat_le] at h
  change (((65 ≤ c.toNat ∧ c.toNat ≤ 90) ∨ 97 ≤ c.toNat ∧ c.toNat ≤ 122) ∨ c = '_') ∨
    48 ≤ c.toNat ∧ c.toNat ≤ 57 at h
  rcases h with (h | rfl) | h
  · omega
  · decide
  · omega

theorem not_space_of_alphanum {c : Char} (h : validAlphanumChar c) : isSpace c = false := by
  cases hspace : isSpace c with
  | false => rfl
  | true =>
      have := toNat_of_space hspace
      have := toNat_of_alphanum h
      omega

theorem IsName.trimmed (h : IsName name) : IsTrimmed (name ++ rest) := by
  obtain ⟨c, hc, hvalid⟩ := h.head
  cases name with
  | nil => cases hc
  | cons _ _ =>
      rintro _ ⟨⟩
      exact not_space_of_alphanum (h.all _ List.mem_cons_self)

theorem span_space (hw : IsSpace w) (htext : IsTrimmed text) : Span isSpace (w ++ text) w text :=
  ⟨rfl, hw, htext⟩

/-- The white space before the sign of equality ends the name. -/
theorem IsName.span (h : IsName name) (hw : IsSpace w) :
    Span validAlphanumChar (name ++ (w ++ '=' :: rest)) name (w ++ '=' :: rest) := by
  refine ⟨rfl, h.all, ?_⟩
  intro c hc
  cases hvalid : validAlphanumChar c with
  | false => rfl
  | true =>
      cases w with
      | nil =>
          obtain rfl := Option.some.inj hc
          exact absurd hvalid (by decide)
      | cons d w =>
          obtain rfl := Option.some.inj hc
          have hspace := hw d List.mem_cons_self
          rw [not_space_of_alphanum hvalid] at hspace
          cases hspace

/-- The parser takes the assignments to a name that is not too long. -/
theorem parseAssignment_iff :
    parseAssignment (line.dropWhile isSpace) = .ok name text ↔
      Assignment line name text ∧ name.length < nameLength := by
  unfold parseAssignment
  simp only [bind_eq_ok, pure_eq_ok, parseAlphanumName_eq_ok, skipWhitespace_eq_ok, parseChar_eq_ok]
  constructor
  · rintro ⟨n, t, ⟨⟨c, hc, hvalid⟩, hne, hname, hlength⟩, _, _, rfl, _, u, hequal, _, _, rfl, rfl,
      rfl⟩
    have hline := Span.refl isSpace line
    have hbefore := Span.refl isSpace t
    have hafter := Span.refl isSpace u
    rw [hequal] at hbefore
    refine ⟨⟨_, t.takeWhile isSpace, u.takeWhile isSpace, ?_, hline.all, hbefore.all, hafter.all,
      ⟨⟨c, ?_, hvalid⟩, hname.all⟩, hafter.stops⟩, hlength⟩
    · rw [← hafter.eq, ← hbefore.eq, ← hname.eq]
      exact hline.eq
    · rw [hname.eq] at hc
      cases n with
      | nil => exact absurd rfl hne
      | cons _ _ => exact hc
  · rintro ⟨⟨w₀, w₁, w₂, rfl, hw₀, hw₁, hw₂, hname, htext⟩, hlength⟩
    rw [(span_space hw₀ hname.trimmed).dropWhile_eq]
    have hne : name ≠ [] := by
      rintro rfl
      obtain ⟨c, hc, -⟩ := hname.head
      cases hc
    have hhead : ∃ c ∈ (name ++ (w₁ ++ '=' :: (w₂ ++ text))).head?, validNameChar c := by
      obtain ⟨c, hc, hvalid⟩ := hname.head
      exact ⟨c, by rw [List.head?_append, Option.mem_def.mp hc]; rfl, hvalid⟩
    have hequal : IsTrimmed ('=' :: (w₂ ++ text)) := by
      rintro _ ⟨⟩
      decide
    exact ⟨name, _, ⟨hhead, hne, hname.span hw₁, hlength⟩, (), _,
      (span_space hw₁ hequal).dropWhile_eq, (), _, rfl, (), _, (span_space hw₂ htext).dropWhile_eq,
      rfl, rfl⟩

/-- The name and the text of a line are told by their places. -/
theorem Assignment.parts (h : Assignment line name text) :
    name = (line.dropWhile isSpace).takeWhile validAlphanumChar ∧
      text = ((((line.dropWhile isSpace).dropWhile validAlphanumChar).dropWhile isSpace).drop
        1).dropWhile isSpace := by
  obtain ⟨w₀, w₁, w₂, rfl, hw₀, hw₁, hw₂, hname, htext⟩ := h
  have hequal : IsTrimmed ('=' :: (w₂ ++ text)) := by
    rintro _ ⟨⟩
    decide
  rw [(span_space hw₀ hname.trimmed).dropWhile_eq, (hname.span hw₁).takeWhile_eq,
    (hname.span hw₁).dropWhile_eq, (span_space hw₁ hequal).dropWhile_eq, List.drop_succ_cons,
    List.drop_zero, (span_space hw₂ htext).dropWhile_eq]
  exact ⟨rfl, rfl⟩

theorem Assignment.unique {name' text' : List Char} (h : Assignment line name text)
    (h' : Assignment line name' text') : name = name' ∧ text = text' :=
  ⟨h.parts.1.trans h'.parts.1.symm, h.parts.2.trans h'.parts.2.symm⟩

end names

/-! ### Numbers -/

section numbers
variable {s rest text digits w : List Char} {negative b : Bool} {n m : ℕ} {z : ℤ} {c : Char}

theorem parseNum_eq_ok {ν : Type} {convert : List Char → ν × List Char × Bool} {v : ν} :
    parseNum convert s = .ok v rest ↔
      convert s = (v, rest, false) ∧ rest.length < s.length := by
  rcases hconvert : convert s with ⟨result, more, errno⟩
  have hparse : parseNum convert s = (do
      set (convert s).2.1
      test ((convert s).2.1.length < s.length) "Number missing"
      test ((convert s).2.2 = false) "Error converting number"
      return (convert s).1 : Parser ν) s := rfl
  rw [hparse, hconvert]
  simp only [bind_eq_ok, set_eq_ok, test_eq_ok, pure_eq_ok, Prod.mk.injEq]
  constructor
  · rintro ⟨_, _, rfl, _, _, ⟨hlength, rfl⟩, _, _, ⟨rfl, rfl⟩, rfl, rfl⟩
    exact ⟨⟨rfl, rfl, rfl⟩, hlength⟩
  · rintro ⟨⟨rfl, rfl, rfl⟩, hlength⟩
    exact ⟨(), _, rfl, (), _, ⟨hlength, rfl⟩, (), _, ⟨rfl, rfl⟩, rfl, rfl⟩

/-- The digits after the sign, if there are any. -/
def magnitude (negative : Bool) (s : List Char) : Option (Bool × ℕ × List Char) :=
  if (s.takeWhile Char.isDigit).isEmpty then none
  else some (negative, decimal (s.takeWhile Char.isDigit), s.dropWhile Char.isDigit)

theorem numeral_minus : numeral ('-' :: s) = magnitude true s := rfl

theorem numeral_plus : numeral ('+' :: s) = magnitude false s := rfl

theorem numeral_unsigned (htrim : IsTrimmed s) (hminus : s.head? ≠ some '-')
    (hplus : s.head? ≠ some '+') : numeral s = magnitude false s := by
  have hnone : IsSpace [] := fun _ h => nomatch h
  have hs : s.dropWhile isSpace = s := (span_space hnone htrim).dropWhile_eq
  unfold numeral
  rw [hs]
  dsimp only
  split
  · exact absurd rfl hminus
  · exact absurd rfl hplus
  · rfl

theorem magnitude_eq_some : magnitude negative s = some (b, n, rest) ↔
    ∃ digits, digits ≠ [] ∧ Span Char.isDigit s digits rest ∧ b = negative ∧ n = decimal digits := by
  unfold magnitude
  constructor
  · intro h
    split at h
    · cases h
    · rename_i hne
      cases h
      exact ⟨_, fun h => hne (List.isEmpty_iff.mpr h), Span.refl Char.isDigit s, rfl, rfl⟩
  · rintro ⟨digits, hne, hspan, rfl, rfl⟩
    rw [hspan.takeWhile_eq, hspan.dropWhile_eq, if_neg (fun h => hne (List.isEmpty_iff.mp h))]

theorem digit_span (hdigits : ∀ c ∈ digits, c.isDigit) (hw : IsSpace w) :
    Span Char.isDigit (digits ++ w) digits w := by
  refine ⟨rfl, hdigits, fun c hc => ?_⟩
  cases hdigit : c.isDigit with
  | false => rfl
  | true =>
      have hspace := hw c (List.mem_of_mem_head? hc)
      have halphanum : validAlphanumChar c := by
        unfold validAlphanumChar
        rw [hdigit, Bool.or_true]
      rw [not_space_of_alphanum halphanum] at hspace
      cases hspace

theorem magnitude_append (hne : digits ≠ []) (hdigits : ∀ c ∈ digits, c.isDigit)
    (hw : IsSpace w) :
    magnitude negative (digits ++ w) = some (negative, decimal digits, w) :=
  magnitude_eq_some.mpr ⟨digits, hne, digit_span hdigits hw, rfl, rfl⟩

theorem head_ne_of_digit (hne : digits ≠ []) (hdigits : ∀ c ∈ digits, c.isDigit)
    (hc : c.isDigit = false) : (digits ++ w).head? ≠ some c := by
  cases digits with
  | nil => exact absurd rfl hne
  | cons d digits =>
      intro h
      obtain rfl := Option.some.inj h
      rw [hdigits d List.mem_cons_self] at hc
      cases hc

/-- `numeral` reads the numerals. -/
theorem numeral_iff (htrim : IsTrimmed text) : Numeral text z ↔
    ∃ negative n rest, numeral text = some (negative, n, rest) ∧ IsSpace rest ∧
      rest.length < text.length ∧ z = if negative then -(n : ℤ) else n := by
  constructor
  · intro h
    cases h with
    | @unsigned digits w hne hdigits hw =>
        refine ⟨false, decimal digits, w, ?_, hw, ?_, rfl⟩
        · rw [numeral_unsigned htrim (head_ne_of_digit hne hdigits (by decide))
            (head_ne_of_digit hne hdigits (by decide))]
          exact magnitude_append hne hdigits hw
        · have := List.length_pos_iff.mpr hne
          rw [List.length_append]
          omega
    | @plus digits w hne hdigits hw =>
        refine ⟨false, decimal digits, w, magnitude_append hne hdigits hw, hw, ?_, rfl⟩
        rw [List.length_cons, List.length_append]
        omega
    | @minus digits w hne hdigits hw =>
        refine ⟨true, decimal digits, w, magnitude_append hne hdigits hw, hw, ?_, rfl⟩
        rw [List.length_cons, List.length_append]
        omega
  · rintro ⟨negative, n, rest, hnumeral, hrest, -, rfl⟩
    by_cases hminus : text.head? = some '-'
    · obtain ⟨s, rfl⟩ := List.head?_eq_some_iff.mp hminus
      rw [numeral_minus, magnitude_eq_some] at hnumeral
      obtain ⟨digits, hne, hspan, rfl, rfl⟩ := hnumeral
      rw [hspan.eq]
      exact .minus hne hspan.all hrest
    · by_cases hplus : text.head? = some '+'
      · obtain ⟨s, rfl⟩ := List.head?_eq_some_iff.mp hplus
        rw [numeral_plus, magnitude_eq_some] at hnumeral
        obtain ⟨digits, hne, hspan, rfl, rfl⟩ := hnumeral
        rw [hspan.eq]
        exact .plus hne hspan.all hrest
      · rw [numeral_unsigned htrim hminus hplus, magnitude_eq_some] at hnumeral
        obtain ⟨digits, hne, hspan, rfl, rfl⟩ := hnumeral
        rw [hspan.eq]
        exact .unsigned hne hspan.all hrest

theorem Numeral.unique {z' : ℤ} (htrim : IsTrimmed text) (h : Numeral text z)
    (h' : Numeral text z') : z = z' := by
  obtain ⟨negative, n, rest, hnumeral, -, -, rfl⟩ := (numeral_iff htrim).mp h
  obtain ⟨negative', n', rest', hnumeral', -, -, rfl⟩ := (numeral_iff htrim).mp h'
  rw [hnumeral] at hnumeral'
  cases hnumeral'
  rfl

/-- The value of a numeral. -/
theorem signed_natAbs (negative : Bool) (n : ℕ) :
    (if negative then -(n : ℤ) else n).natAbs = n := by
  cases negative with
  | true => exact (Int.natAbs_neg n).trans (Int.natAbs_natCast n)
  | false => exact Int.natAbs_natCast n

/-- `strtol` goes past a numeral in the range of `long`. -/
theorem strtol_eq_ok : (strtol text = (z, rest, false) ∧ rest.length < text.length) ↔
    ∃ negative n, numeral text = some (negative, n, rest) ∧ rest.length < text.length ∧
      z = (if negative then -(n : ℤ) else n) ∧ -2 ^ 63 ≤ z ∧ z < 2 ^ 63 := by
  unfold strtol
  constructor
  · rintro ⟨hconvert, hlength⟩
    split at hconvert
    · cases hconvert
      exact absurd hlength (Nat.lt_irrefl _)
    · rename_i negative n rest' hnumeral
      dsimp only at hconvert
      generalize hvalue : (if negative = true then -(n : ℤ) else n) = value at hconvert
      split at hconvert
      · cases hconvert
      · split at hconvert
        · cases hconvert
        · cases hconvert
          exact ⟨negative, n, hnumeral, hlength, hvalue.symm, by omega, by omega⟩
  · rintro ⟨negative, n, hnumeral, hlength, rfl, hmin, hmax⟩
    refine ⟨?_, hlength⟩
    rw [hnumeral]
    dsimp only
    rw [if_neg (by omega), if_neg (by omega)]

/-- `strtoul` goes past a numeral whose magnitude is in the range of `unsigned long`. -/
theorem strtoul_eq_ok : (strtoul text = (m, rest, false) ∧ rest.length < text.length) ↔
    ∃ negative n, numeral text = some (negative, n, rest) ∧ rest.length < text.length ∧
      n < 2 ^ 64 ∧ m = ((if negative then -(n : ℤ) else n) % 2 ^ 64).toNat := by
  unfold strtoul
  constructor
  · rintro ⟨hconvert, hlength⟩
    split at hconvert
    · cases hconvert
      exact absurd hlength (Nat.lt_irrefl _)
    · rename_i negative n rest' hnumeral
      split at hconvert
      · cases hconvert
      · cases hconvert
        refine ⟨negative, n, hnumeral, hlength, by omega, ?_⟩
        cases negative <;> simp only [Bool.false_eq_true, if_true, if_false] <;> omega
  · rintro ⟨negative, n, hnumeral, hlength, hmax, rfl⟩
    refine ⟨?_, hlength⟩
    rw [hnumeral]
    dsimp only
    rw [if_neg (by omega)]
    congr 1
    cases negative <;> simp only [Bool.false_eq_true, if_true, if_false] <;> omega

/-- `strtol` converts the numerals in the range of `long`. -/
theorem strtol_iff (htrim : IsTrimmed text) :
    (∃ rest, (strtol text = (z, rest, false) ∧ rest.length < text.length) ∧ IsSpace rest) ↔
      Numeral text z ∧ -2 ^ 63 ≤ z ∧ z < 2 ^ 63 := by
  rw [numeral_iff htrim]
  simp only [strtol_eq_ok]
  constructor
  · rintro ⟨rest, ⟨negative, n, hnumeral, hlength, hvalue, hrange⟩, hrest⟩
    exact ⟨⟨negative, n, rest, hnumeral, hrest, hlength, hvalue⟩, hrange⟩
  · rintro ⟨⟨negative, n, rest, hnumeral, hrest, hlength, hvalue⟩, hrange⟩
    exact ⟨rest, ⟨negative, n, hnumeral, hlength, hvalue, hrange⟩, hrest⟩

/-- `strtoul` converts the numerals whose magnitude is in the range of `unsigned long`. -/
theorem strtoul_iff (htrim : IsTrimmed text) :
    (∃ rest, (strtoul text = (n, rest, false) ∧ rest.length < text.length) ∧ IsSpace rest) ↔
      ∃ z, Numeral text z ∧ z.natAbs < 2 ^ 64 ∧ n = (z % 2 ^ 64).toNat := by
  simp only [numeral_iff htrim, strtoul_eq_ok]
  constructor
  · rintro ⟨rest, ⟨negative, m, hnumeral, hlength, hmax, hvalue⟩, hrest⟩
    refine ⟨_, ⟨negative, m, rest, hnumeral, hrest, hlength, rfl⟩, ?_, hvalue⟩
    rw [signed_natAbs]
    exact hmax
  · rintro ⟨_, ⟨negative, m, rest, hnumeral, hrest, hlength, rfl⟩, hmax, hvalue⟩
    rw [signed_natAbs] at hmax
    exact ⟨rest, ⟨negative, m, hnumeral, hlength, hmax, hvalue⟩, hrest⟩

end numbers

/-! ### Values -/

section values
variable {δ : Type} {strtod : List Char → δ × List Char × Bool} {entryType : EntryType}
  {text w rest : List Char} {v : Value δ}

theorem isSpace_iff : text.dropWhile isSpace = [] ↔ IsSpace text := by
  constructor
  · intro h
    have hspan := Span.refl isSpace text
    rw [h] at hspan
    rw [hspan.eq, List.append_nil]
    exact hspan.all
  · intro h
    exact (Span.mk (List.append_nil text).symm h (fun _ h => nomatch h)).dropWhile_eq

theorem parseEntry_eq_ok : (∃ rest, parseEntry strtod entryType text = .ok v rest) ↔
    ∃ rest, parseValue strtod entryType text = .ok v rest ∧ IsSpace rest := by
  unfold parseEntry
  simp only [bind_eq_ok, skipWhitespace_eq_ok, parseEos_eq_ok, pure_eq_ok]
  constructor
  · rintro ⟨_, _, rest, hvalue, _, _, rfl, _, _, ⟨hend, rfl⟩, rfl, rfl⟩
    exact ⟨rest, hvalue, isSpace_iff.mp hend⟩
  · rintro ⟨rest, hvalue, hspace⟩
    exact ⟨[], v, rest, hvalue, (), _, rfl, (), [], ⟨isSpace_iff.mpr hspace, rfl⟩, rfl, rfl⟩

theorem parseBit_eq_ok {b : Bool} : parseBit text = .ok b rest ↔
    text = (if b then '1' else '0') :: rest := by
  unfold parseBit
  simp only [bind_eq_ok, get_eq_ok, test_eq_ok, set_eq_ok, pure_eq_ok]
  constructor
  · rintro ⟨_, _, ⟨rfl, rfl⟩, _, _, ⟨hhead, rfl⟩, _, _, rfl, rfl, rfl⟩
    rcases hhead with hhead | hhead
    · obtain ⟨s, rfl⟩ := List.head?_eq_some_iff.mp hhead
      rfl
    · obtain ⟨s, rfl⟩ := List.head?_eq_some_iff.mp hhead
      rfl
  · rintro rfl
    cases b with
    | true => exact ⟨_, _, ⟨rfl, rfl⟩, (), _, ⟨.inr rfl, rfl⟩, (), _, rfl, rfl, rfl⟩
    | false => exact ⟨_, _, ⟨rfl, rfl⟩, (), _, ⟨.inl rfl, rfl⟩, (), _, rfl, rfl, rfl⟩

/-- The parser reads the values. -/
theorem parseEntry_iff (htrim : IsTrimmed text) :
    (∃ rest, parseEntry strtod entryType text = .ok v rest) ↔ Reads strtod entryType text v := by
  rw [parseEntry_eq_ok]
  constructor
  · rintro ⟨rest, hvalue, hspace⟩
    cases entryType with
    | int =>
        obtain ⟨_, hint, rfl⟩ := map_eq_ok.mp hvalue
        obtain ⟨z, hnum, rfl⟩ := map_eq_ok.mp hint
        obtain ⟨hnumeral, hmin, hmax⟩ :=
          (strtol_iff htrim).mp ⟨rest, parseNum_eq_ok.mp hnum, hspace⟩
        exact .int hnumeral hmin hmax
    | uint =>
        obtain ⟨_, huint, rfl⟩ := map_eq_ok.mp hvalue
        obtain ⟨n, hnum, rfl⟩ := map_eq_ok.mp huint
        obtain ⟨z, hnumeral, hmax, rfl⟩ :=
          (strtoul_iff htrim).mp ⟨rest, parseNum_eq_ok.mp hnum, hspace⟩
        have hcut : (z % 2 ^ 64).toNat % 2 ^ 32 = (z % 2 ^ 32).toNat := by omega
        rw [hcut]
        exact .uint hnumeral hmax
    | double =>
        obtain ⟨x, hnum, rfl⟩ := map_eq_ok.mp hvalue
        obtain ⟨hconvert, hlength⟩ := parseNum_eq_ok.mp hnum
        exact .other (by decide) (by decide) (.double hconvert hlength hspace)
    | string =>
        obtain ⟨_, htext, rfl⟩ := map_eq_ok.mp hvalue
        cases htext
        exact .other (by decide) (by decide) .string
    | bool =>
        obtain ⟨b, hbit, rfl⟩ := map_eq_ok.mp hvalue
        obtain rfl := parseBit_eq_ok.mp hbit
        cases b with
        | true => exact .other (by decide) (by decide) (.one hspace)
        | false => exact .other (by decide) (by decide) (.zero hspace)
  · intro hreads
    cases hreads with
    | int hnumeral hmin hmax =>
        obtain ⟨rest, hconvert, hspace⟩ := (strtol_iff htrim).mpr ⟨hnumeral, hmin, hmax⟩
        exact ⟨rest, map_eq_ok.mpr
          ⟨_, map_eq_ok.mpr ⟨_, parseNum_eq_ok.mpr hconvert, rfl⟩, rfl⟩, hspace⟩
    | @uint _ z hnumeral hmax =>
        obtain ⟨rest, hconvert, hspace⟩ := (strtoul_iff htrim).mpr ⟨z, hnumeral, hmax, rfl⟩
        have hcut : (z % 2 ^ 64).toNat % 2 ^ 32 = (z % 2 ^ 32).toNat := by omega
        exact ⟨rest, map_eq_ok.mpr
          ⟨_, map_eq_ok.mpr ⟨_, parseNum_eq_ok.mpr hconvert, hcut⟩, rfl⟩, hspace⟩
    | other hint huint hdenotes =>
        cases hdenotes with
        | int => exact absurd rfl hint
        | uint => exact absurd rfl huint
        | @double _ x rest hconvert hlength hspace =>
            exact ⟨rest, map_eq_ok.mpr ⟨x, parseNum_eq_ok.mpr ⟨hconvert, hlength⟩, rfl⟩, hspace⟩
        | string => exact ⟨[], rfl, fun _ h => nomatch h⟩
        | zero hspace => exact ⟨_, map_eq_ok.mpr ⟨false, parseBit_eq_ok.mpr rfl, rfl⟩, hspace⟩
        | one hspace => exact ⟨_, map_eq_ok.mpr ⟨true, parseBit_eq_ok.mpr rfl, rfl⟩, hspace⟩

/-- What denotes a value is read as that value. -/
theorem Denotes.reads (h : Denotes strtod entryType text v) : Reads strtod entryType text v := by
  cases h with
  | @int _ z hnumeral hmin hmax =>
      have hcut : z.bmod (2 ^ 32) = z := by
        rw [Int.bmod_def]
        omega
      rw [← hcut]
      exact .int hnumeral (by omega) (by omega)
  | @uint _ n hnumeral hmax =>
      have hcut : ((n : ℤ) % 2 ^ 32).toNat = n := by omega
      rw [← hcut]
      exact .uint hnumeral (by omega)
  | double h hlength hspace => exact .other (by decide) (by decide) (.double h hlength hspace)
  | string => exact .other (by decide) (by decide) .string
  | zero hspace => exact .other (by decide) (by decide) (.zero hspace)
  | one hspace => exact .other (by decide) (by decide) (.one hspace)

end values

/-! ### Lines -/

section lines
variable {δ : Type} {strtod : List Char → δ × List Char × Bool} {entryType : EntryType}
  {line text text' name name' : List Char} {v v' : Value δ} {table : List Entry} {ix ix' : ℕ}
  {ignoreUnknown : Bool} {loaded loaded' : Loaded δ} {fileName : String} {lineNumber : ℕ}
  {lang : Language δ}

theorem Assignment.trimmed (h : Assignment line name text) : IsTrimmed text := by
  obtain ⟨-, -, -, -, -, -, -, -, htrim⟩ := h
  exact htrim

theorem Reads.unique (htrim : IsTrimmed text) (h : Reads strtod entryType text v)
    (h' : Reads strtod entryType text v') : v = v' := by
  obtain ⟨rest, hparse⟩ := (parseEntry_iff htrim).mpr h
  obtain ⟨rest', hparse'⟩ := (parseEntry_iff htrim).mpr h'
  rw [hparse] at hparse'
  cases hparse'
  rfl

theorem isBlank_iff : IsBlank line ↔
    line.dropWhile isSpace = [] ∨ (line.dropWhile isSpace).head? = some '#' := by
  constructor
  · rintro ⟨w, text, rfl, hw, htext⟩
    have htrim : IsTrimmed text := by
      intro c hc
      rcases htext with rfl | htext
      · cases hc
      · rw [Option.mem_def, htext] at hc
        obtain rfl := Option.some.inj hc
        decide
    rw [(span_space hw htrim).dropWhile_eq]
    exact htext
  · intro h
    have hspan := Span.refl isSpace line
    exact ⟨_, _, hspan.eq, hspan.all, h⟩

/-- An assignment is not blank. -/
theorem Assignment.not_blank (h : Assignment line name text) : ¬ IsBlank line := by
  rw [isBlank_iff]
  obtain ⟨w₀, w₁, w₂, rfl, hw₀, -, -, hname, -⟩ := h
  rw [(span_space hw₀ hname.trimmed).dropWhile_eq]
  obtain ⟨c, hc, hvalid⟩ := hname.head
  cases name with
  | nil => cases hc
  | cons d name =>
      obtain rfl := Option.some.inj hc
      rintro (h | h)
      · cases h
      · obtain rfl := Option.some.inj h
        exact absurd hvalid (by decide)

theorem Assigns.unique (h : Assigns (taken strtod) table line ix v)
    (h' : Assigns (taken strtod) table line ix' v') : ix = ix' ∧ v = v' := by
  obtain ⟨name, text, entry, hline, -, hlookup, hentry, hreads⟩ := h
  obtain ⟨name', text', entry', hline', -, hlookup', hentry', hreads'⟩ := h'
  obtain ⟨rfl, rfl⟩ := hline.unique hline'
  obtain rfl := Option.some.inj (hlookup.symm.trans hlookup')
  obtain rfl := Option.some.inj (hentry.symm.trans hentry')
  exact ⟨rfl, Reads.unique hline.trimmed hreads hreads'⟩

theorem Assigns.not_skipped {lang' : Language δ} (h : Assigns lang table line ix v) :
    ¬ IsSkipped lang' table ignoreUnknown line := by
  obtain ⟨name, text, entry, hline, -, hlookup, -⟩ := h
  rintro (hblank | ⟨-, name', text', hline', -, hnone⟩)
  · exact hline.not_blank hblank
  · obtain ⟨rfl, rfl⟩ := hline.unique hline'
    rw [hlookup] at hnone
    cases hnone

theorem lookupName_lt (h : lookupName name table = some ix) : ∃ entry, table[ix]? = some entry := by
  obtain ⟨hlt, -⟩ := List.findIdx?_eq_some_iff_getElem.mp h
  exact ⟨_, List.getElem?_eq_getElem hlt⟩

/-- An assignment is skipped if its key is unknown and that is ignored. -/
theorem Assignment.skipped_iff (hline : Assignment line name text) (hname : lang.name name) :
    IsSkipped lang table ignoreUnknown line ↔ ignoreUnknown ∧ lookupName name table = none := by
  constructor
  · rintro (hblank | ⟨hignore, name', text', hline', -, hnone⟩)
    · exact absurd hblank hline.not_blank
    · obtain ⟨rfl, rfl⟩ := hline.unique hline'
      exact ⟨hignore, hnone⟩
  · rintro ⟨hignore, hnone⟩
    exact .inr ⟨hignore, name, text, hline, hname, hnone⟩

/-- An assignment to a known key assigns what its text is read as. -/
theorem Assignment.assigns_iff {entry : Entry} (hline : Assignment line name text)
    (hname : lang.name name) (hlookup : lookupName name table = some ix)
    (hentry : table[ix]? = some entry) :
    Assigns lang table line ix' v ↔ ix = ix' ∧ lang.reads entry.entryType text v := by
  constructor
  · rintro ⟨name', text', entry', hline', -, hlookup', hentry', hreads⟩
    obtain ⟨rfl, rfl⟩ := hline.unique hline'
    obtain rfl := Option.some.inj (hlookup.symm.trans hlookup')
    obtain rfl := Option.some.inj (hentry.symm.trans hentry')
    exact ⟨rfl, hreads⟩
  · rintro ⟨rfl, hreads⟩
    exact ⟨name, text, entry, hline, hname, hlookup, hentry, hreads⟩

theorem Assigns.known (h : Assigns lang table line ix v) (hline : Assignment line name text) :
    lookupName name table = some ix := by
  obtain ⟨name', text', entry', hline', -, hlookup, -⟩ := h
  obtain ⟨rfl, rfl⟩ := hline.unique hline'
  exact hlookup

/-! ### The parser of a line -/

/-- The value part: the entry is read and has not been seen. -/
theorem assignEntry_iff (htrim : IsTrimmed text) :
    assignEntry strtod fileName lineNumber line name text ix entryType loaded = .ok loaded' ↔
      ∃ v, Reads strtod entryType text v ∧ loaded.seen ix = false ∧
        loaded' = loaded.assign ix v := by
  unfold assignEntry
  cases hparse : parseEntry strtod entryType text with
  | error message rest =>
      constructor
      · intro h
        cases h
      · rintro ⟨v, hreads, -⟩
        obtain ⟨rest', hok⟩ := (parseEntry_iff htrim).mpr hreads
        rw [hok] at hparse
        cases hparse
  | ok v rest =>
      have hreads := (parseEntry_iff htrim).mp ⟨rest, hparse⟩
      dsimp only
      cases hseen : loaded.seen ix with
      | true =>
          constructor
          · intro h
            cases h
          · rintro ⟨v', -, hunseen, -⟩
            cases hunseen
      | false =>
          constructor
          · intro h
            exact ⟨v, hreads, rfl, (Except.ok.inj h).symm⟩
          · rintro ⟨v', hreads', -, rfl⟩
            obtain rfl := hreads.unique htrim hreads'
            rfl

/-- What a line does: nothing, or it assigns a value to an entry not yet seen. -/
theorem doParseLine_iff :
    doParseLine strtod fileName lineNumber line table ignoreUnknown loaded = .ok loaded' ↔
      (IsSkipped (taken strtod) table ignoreUnknown line ∧ loaded' = loaded) ∨
      ∃ ix v, Assigns (taken strtod) table line ix v ∧ loaded.seen ix = false ∧
        loaded' = loaded.assign ix v := by
  unfold doParseLine
  dsimp only
  by_cases hblank : IsBlank line
  · have hskipped : IsSkipped (taken strtod) table ignoreUnknown line := .inl hblank
    rw [if_pos (isBlank_iff.mp hblank)]
    constructor
    · intro h
      exact .inl ⟨hskipped, (Except.ok.inj h).symm⟩
    · rintro (⟨-, rfl⟩ | ⟨ix, v, hassigns, -⟩)
      · rfl
      · exact absurd hskipped hassigns.not_skipped
  rw [if_neg (mt isBlank_iff.mpr hblank)]
  cases hparse : parseAssignment (line.dropWhile isSpace) with
  | error message rest =>
      have hnone : ∀ name text, Assignment line name text → ¬ (taken strtod).name name := by
        intro name text hline hname
        rw [parseAssignment_iff.mpr ⟨hline, hname⟩] at hparse
        cases hparse
      constructor
      · intro h
        cases h
      · rintro (⟨hblank' | ⟨-, name, text, hline, hname, -⟩, -⟩ |
          ⟨ix, v, ⟨name, text, -, hline, hname, -⟩, -⟩)
        · exact absurd hblank' hblank
        · exact absurd hname (hnone name text hline)
        · exact absurd hname (hnone name text hline)
  | ok name text =>
      obtain ⟨hline, hname⟩ := parseAssignment_iff.mp hparse
      have hname : (taken strtod).name name := hname
      dsimp only
      rw [hline.skipped_iff hname]
      cases hlookup : lookupName name table with
      | none =>
          have hunknown : ∀ {ix v}, ¬ Assigns (taken strtod) table line ix v := by
            intro ix v hassigns
            rw [hassigns.known hline] at hlookup
            cases hlookup
          cases ignoreUnknown with
          | true =>
              constructor
              · intro h
                exact .inl ⟨⟨rfl, rfl⟩, (Except.ok.inj h).symm⟩
              · rintro (⟨-, rfl⟩ | ⟨ix, v, hassigns, -⟩)
                · rfl
                · exact absurd hassigns hunknown
          | false =>
              constructor
              · intro h
                cases h
              · rintro (⟨⟨hfalse, -⟩, -⟩ | ⟨ix, v, hassigns, -⟩)
                · cases hfalse
                · exact absurd hassigns hunknown
      | some ix =>
          obtain ⟨entry, hentry⟩ := lookupName_lt hlookup
          dsimp only
          rw [hentry, Option.map_some, Option.getD_some, assignEntry_iff hline.trimmed]
          constructor
          · rintro ⟨v, hreads, hrest⟩
            exact .inr ⟨ix, v, (hline.assigns_iff hname hlookup hentry).mpr ⟨rfl, hreads⟩, hrest⟩
          · rintro (⟨⟨-, hnone⟩, -⟩ | ⟨ix', v, hassigns, hrest⟩)
            · cases hnone
            · obtain ⟨rfl, hreads⟩ := (hline.assigns_iff hname hlookup hentry).mp hassigns
              exact ⟨v, hreads, hrest⟩

end lines

end Mbf.Config
