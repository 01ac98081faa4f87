import Mbf.Bunch.BunchSet
import Mbf.Command.Number
import Mathlib.Data.List.Basic

/-! # What the bunch selection accepts

`parseItem` takes the items of the documented grammar, but with every number that `parse_uint` takes
(`Taken`), and with a sign it needs no white space between two items (`Adjacent`).  So it is exact
on a text exactly if the text is not a list in this wider sense only. -/

namespace Mbf.Bunch

open Parsing Mbf.Command
open Mbf.Config (IsSpace IsTrimmed decimal)

/-! ### The wider grammar -/

/-- A numeral that `parse_uint` takes, and that is below the number of bunches once it is cut down
to 32 bits. -/
def Taken (bunches : ℕ) (t : List Char) (b : ℕ) : Prop :=
  ∃ sign digits negative, t = sign ++ digits ∧ IsSign sign negative ∧ digits ≠ [] ∧
    (∀ c ∈ digits, c.isDigit) ∧ decimal digits < 2 ^ 64 ∧
    b = ((if negative then -(decimal digits : ℤ) else decimal digits) % 2 ^ 32).toNat ∧ b < bunches

/-- There is white space between the items, or the second starts with a sign. -/
def Adjacent (t t' : List Char) : Prop := Spaced t t' ∨ ∀ c ∈ t'.head?, c.isDigit = false

/-- A list of items in the wider sense. -/
abbrev Takes (bunches : ℕ) : List Char → (ℕ → Prop) → Prop := Lists (Taken bunches) Adjacent

/-- How an item is spelt. -/
inductive Spells (number : List Char → ℕ → Prop) : List Char → Item → Prop
  | bunch {t b} (h : Padded number t b) : Spells number t (.bunch b)
  | range {t w t' a b} (h : Padded number t a) (hw : IsSpace w) (h' : Padded number t' b) :
      Spells number (t ++ ':' :: (w ++ t')) (.range a 1 b)
  | skip {t w t' w' t'' a k b} (h : Padded number t a) (hw : IsSpace w) (h' : Padded number t' k)
      (hw' : IsSpace w') (h'' : Padded number t'' b) :
      Spells number (t ++ ':' :: (w ++ (t' ++ ':' :: (w' ++ t'')))) (.range a k b)

/-- The bunches an item stands for. -/
def Item.Selects : Item → ℕ → Prop
  | .bunch b => (· = b)
  | .range start skip stop => fun i => ∃ j, i = start + j * skip ∧ i ≤ stop

/-- The item passes the checks of `set_range`. -/
def Item.Valid : Item → Prop
  | .bunch _ => True
  | .range start skip stop => start ≤ stop ∧ 0 < skip

theorem denotes_iff {number : List Char → ℕ → Prop} {t : List Char} {selected : ℕ → Prop} :
    Denotes number t selected ↔
      ∃ item, Spells number t item ∧ item.Valid ∧ selected = item.Selects := by
  have hstep : ∀ a b : ℕ, (fun i => a ≤ i ∧ i ≤ b) = fun i => ∃ j, i = a + j * 1 ∧ i ≤ b := by
    intro a b
    funext i
    refine propext ⟨fun ⟨ha, hb⟩ => ⟨i - a, by omega, hb⟩, ?_⟩
    rintro ⟨j, rfl, hb⟩
    exact ⟨by omega, hb⟩
  constructor
  · intro h
    cases h with
    | bunch h => exact ⟨_, .bunch h, trivial, rfl⟩
    | range h hw h' hle => exact ⟨_, .range h hw h', ⟨hle, Nat.one_pos⟩, hstep ..⟩
    | skip h hw h' hw' h'' hle hpos => exact ⟨_, .skip h hw h' hw' h'', ⟨hle, hpos⟩, rfl⟩
  · rintro ⟨item, hspells, hvalid, rfl⟩
    cases hspells with
    | bunch h => exact .bunch h
    | range h hw h' =>
        have hdenotes := Denotes.range h hw h' hvalid.1
        rwa [hstep] at hdenotes
    | skip h hw h' hw' h'' => exact .skip h hw h' hw' h'' hvalid.1 hvalid.2

/-! ### Parsing a number -/

section numbers
variable {bunches b : ℕ} {text t t' w rest : List Char}

theorem not_space_of_digit {c : Char} (h : c.isDigit) : isSpace c = false := by
  apply Mbf.Config.not_space_of_alphanum
  unfold validAlphanumChar
  rw [h, Bool.or_true]

theorem not_digit_of_space {c : Char} (h : isSpace c) : c.isDigit = false := by
  cases hdigit : c.isDigit with
  | false => rfl
  | true =>
      rw [not_space_of_digit hdigit] at h
      cases h

/-- A numeral starts with a sign or a digit. -/
theorem Taken.head (h : Taken bunches t b) :
    ∃ c more, t = c :: more ∧ isSpace c = false ∧ c ≠ ':' := by
  obtain ⟨sign, digits, negative, rfl, hsign, hne, hdigits, -⟩ := h
  cases hsign with
  | plus => exact ⟨'+', digits, rfl, by decide, by decide⟩
  | minus => exact ⟨'-', digits, rfl, by decide, by decide⟩
  | none =>
      cases digits with
      | nil => exact absurd rfl hne
      | cons c more =>
          have hc := hdigits c List.mem_cons_self
          refine ⟨c, more, rfl, not_space_of_digit hc, ?_⟩
          rintro rfl
          cases hc

/-- A numeral ends with a digit. -/
theorem Taken.last (h : Taken bunches t b) : ∀ c ∈ t.getLast?, c.isDigit := by
  obtain ⟨sign, digits, negative, rfl, -, hne, hdigits, -⟩ := h
  intro c hc
  rw [List.getLast?_append_of_ne_nil _ hne] at hc
  exact hdigits c (List.mem_of_getLast? hc)

/-- Where white space follows a numeral, the next item may start with anything. -/
theorem spaced_iff (h : Taken bunches t b) (hw : IsSpace w) : Spaced (t ++ w) t' ↔ w ≠ [] := by
  constructor
  · rintro ⟨c, hc, hspace⟩ rfl
    rw [List.append_nil] at hc
    rw [not_space_of_digit (h.last c hc)] at hspace
    cases hspace
  · intro hne
    refine ⟨w.getLast hne, ?_, hw _ (List.getLast_mem hne)⟩
    rw [List.getLast?_append_of_ne_nil _ hne, List.getLast?_eq_some_getLast hne]
    rfl

theorem adjacent_iff (h : Taken bunches t b) (hw : IsSpace w) :
    Adjacent (t ++ w) rest ↔ ∀ c ∈ (w ++ rest).head?, c.isDigit = false := by
  unfold Adjacent
  rw [spaced_iff h hw]
  cases w with
  | nil => simp
  | cons c w =>
      refine iff_of_true (.inl (List.cons_ne_nil _ _)) fun d hd => ?_
      obtain rfl := Option.some.inj hd
      exact not_digit_of_space (hw c List.mem_cons_self)

/-- `parse_bunch_num` takes a number and the white space around it. -/
theorem parseBunchNum_eq_ok : parseBunchNum bunches text = .ok b rest ↔
    ∃ w t, text = w ++ (t ++ rest) ∧ IsSpace w ∧ Padded (Taken bunches) t b ∧ IsTrimmed rest ∧
      Adjacent t rest := by
  unfold parseBunchNum
  simp only [bind_eq_ok, parseUint_eq_ok, test_eq_ok, pure_eq_ok,
    Mbf.Config.skipWhitespace_eq_ok]
  constructor
  · rintro ⟨_, middle, ⟨y, ⟨negative, n, ⟨w, sign, digits, rfl, hw, hsign, hne, hspan, rfl⟩, rfl⟩,
      hfits, rfl⟩, _, _, ⟨hlt, rfl⟩, _, _, rfl, rfl, rfl⟩
    have hspaces := Span.refl isSpace middle
    have htaken : Taken bunches (sign ++ digits) _ :=
      ⟨sign, digits, negative, rfl, hsign, hne, hspan.all, ?_, rfl, hlt⟩
    · refine ⟨w, (sign ++ digits) ++ middle.takeWhile isSpace, ?_, hw,
        ⟨_, _, rfl, htaken, hspaces.all⟩, hspaces.stops, ?_⟩
      · rw [List.append_assoc, List.takeWhile_append_dropWhile, List.append_assoc]
      · rw [adjacent_iff htaken hspaces.all, List.takeWhile_append_dropWhile]
        exact hspan.stops
    · unfold FitsUnsignedLong at hfits
      cases negative <;> simp only [Bool.false_eq_true, if_false, if_true] at hfits <;> omega
  · rintro ⟨w, t, rfl, hw, ⟨t, w', rfl, htaken, hw'⟩, htrim, hadjacent⟩
    rw [adjacent_iff htaken hw'] at hadjacent
    obtain ⟨sign, digits, negative, rfl, hsign, hne, hdigits, hmax, rfl, hlt⟩ := htaken
    refine ⟨_, w' ++ rest, ⟨_, ⟨negative, decimal digits, ⟨w, sign, digits, ?_, hw, hsign, hne,
      ⟨rfl, hdigits, hadjacent⟩, rfl⟩, rfl⟩, ?_, rfl⟩, (), _, ⟨hlt, rfl⟩, (), _, ?_, rfl, rfl⟩
    · simp only [List.append_assoc]
    · unfold FitsUnsignedLong
      cases negative <;> simp only [Bool.false_eq_true, if_false, if_true] <;> omega
    · exact (Mbf.Config.span_space hw' htrim).dropWhile_eq

end numbers

/-! ### Parsing an item -/

section items
variable {bunches : ℕ} {item : Item} {text t t' rest : List Char}

theorem readChar_eq_ok {ch : Char} {seen : Bool} : readChar ch text = .ok seen rest ↔
    seen = true ∧ text = ch :: rest ∨ seen = false ∧ text = rest ∧ rest.head? ≠ some ch := by
  cases text with
  | nil =>
      have hread : readChar ch [] = (pure false : Parser Bool) [] := rfl
      rw [hread, pure_eq_ok]
      constructor
      · rintro ⟨rfl, rfl⟩
        exact .inr ⟨rfl, rfl, by simp⟩
      · rintro (⟨-, h⟩ | ⟨rfl, rfl, -⟩)
        · cases h
        · exact ⟨rfl, rfl⟩
  | cons c more =>
      have hread : readChar ch (c :: more) =
          (if c = ch then (do
              set more
              return true : Parser Bool)
            else return false) (c :: more) := rfl
      rw [hread]
      by_cases hc : c = ch
      · rw [if_pos hc]
        simp only [bind_eq_ok, set_eq_ok, pure_eq_ok]
        constructor
        · rintro ⟨_, _, rfl, rfl, rfl⟩
          exact .inl ⟨rfl, by rw [hc]⟩
        · rintro (⟨rfl, h⟩ | ⟨rfl, rfl, hne⟩)
          · cases h
            exact ⟨⟨⟩, _, rfl, rfl, rfl⟩
          · exact absurd (congrArg some hc) hne
      · rw [if_neg hc, pure_eq_ok]
        constructor
        · rintro ⟨rfl, rfl⟩
          exact .inr ⟨rfl, rfl, fun h => hc (Option.some.inj h)⟩
        · rintro (⟨-, h⟩ | ⟨rfl, rfl, -⟩)
          · cases h
            exact absurd rfl hc
          · exact ⟨rfl, rfl⟩

theorem Padded.head {b : ℕ} (h : Padded (Taken bunches) t b) :
    ∃ c more, t = c :: more ∧ isSpace c = false ∧ c ≠ ':' := by
  obtain ⟨t, w, rfl, htaken, -⟩ := h
  obtain ⟨c, more, rfl, hspace, hcolon⟩ := htaken.head
  exact ⟨c, more ++ w, rfl, hspace, hcolon⟩

theorem spaced_append {before : List Char} (hne : t ≠ []) :
    Spaced (before ++ t) t' ↔ Spaced t t' := by
  unfold Spaced
  rw [List.getLast?_append_of_ne_nil _ hne]

/-- Where an item ends is where its last number ends. -/
theorem adjacent_colon {b : ℕ} {before w : List Char} (h : Padded (Taken bunches) t b) :
    Adjacent (before ++ ':' :: (w ++ t)) rest ↔ Adjacent t rest := by
  obtain ⟨c, more, rfl, -⟩ := h.head
  have hsplit : before ++ ':' :: (w ++ c :: more) = (before ++ ':' :: w) ++ c :: more := by
    rw [List.append_assoc, List.cons_append]
  unfold Adjacent
  rw [hsplit, spaced_append (List.cons_ne_nil _ _)]

theorem trimmed_colon : IsTrimmed (':' :: rest) := by
  intro c hc
  obtain rfl := Option.some.inj hc
  decide

theorem adjacent_colon_right : Adjacent t (':' :: rest) := by
  right
  intro c hc
  obtain rfl := Option.some.inj hc
  decide

/-- What the body of the loop takes is an item, with the white space before it. -/
theorem spells_of_parseItem (h : parseItem bunches text = .ok item rest) :
    ∃ w t, text = w ++ (t ++ rest) ∧ IsSpace w ∧ Spells (Taken bunches) t item ∧ IsTrimmed rest ∧
      Adjacent t rest := by
  unfold parseItem at h
  simp only [bind_eq_ok, parseBunchNum_eq_ok, readChar_eq_ok] at h
  obtain ⟨b, _, ⟨w, t, rfl, hw, ht, htrim, hadj⟩, seen, _, hseen, h⟩ := h
  rcases hseen with ⟨rfl, rfl⟩ | ⟨rfl, rfl, hcolon⟩
  · simp only [if_true, bind_eq_ok, parseBunchNum_eq_ok, readChar_eq_ok] at h
    obtain ⟨b', _, ⟨w', t', rfl, hw', ht', htrim', hadj'⟩, seen', _, hseen', h⟩ := h
    rcases hseen' with ⟨rfl, rfl⟩ | ⟨rfl, rfl, hcolon⟩
    · simp only [if_true, bind_eq_ok, parseBunchNum_eq_ok, pure_eq_ok] at h
      obtain ⟨b'', _, ⟨w'', t'', rfl, hw'', ht'', htrim'', hadj''⟩, rfl, rfl⟩ := h
      refine ⟨w, t ++ ':' :: (w' ++ (t' ++ ':' :: (w'' ++ t''))), ?_, hw,
        .skip ht hw' ht' hw'' ht'', htrim'', ?_⟩
      · simp only [List.append_assoc, List.cons_append]
      · have hsplit : t ++ ':' :: (w' ++ (t' ++ ':' :: (w'' ++ t''))) =
            (t ++ ':' :: (w' ++ t')) ++ ':' :: (w'' ++ t'') := by
          simp only [List.append_assoc, List.cons_append]
        rw [hsplit]
        exact (adjacent_colon ht'').mpr hadj''
    · simp only [Bool.false_eq_true, if_false, pure_eq_ok] at h
      obtain ⟨rfl, rfl⟩ := h
      exact ⟨w, t ++ ':' :: (w' ++ t'), by simp only [List.append_assoc, List.cons_append], hw,
        .range ht hw' ht', htrim', (adjacent_colon ht').mpr hadj'⟩
  · simp only [Bool.false_eq_true, if_false, pure_eq_ok] at h
    obtain ⟨rfl, rfl⟩ := h
    exact ⟨w, t, rfl, hw, .bunch ht, htrim, hadj⟩

/-- An item is taken whole, if it may end there. -/
theorem parseItem_of_spells {w : List Char} (hw : IsSpace w)
    (hspells : Spells (Taken bunches) t item) (htrim : IsTrimmed rest) (hadj : Adjacent t rest)
    (hcolon : rest.head? ≠ some ':') :
    parseItem bunches (w ++ (t ++ rest)) = .ok item rest := by
  unfold parseItem
  simp only [bind_eq_ok, parseBunchNum_eq_ok, readChar_eq_ok]
  cases hspells with
  | @bunch t b ht =>
      refine ⟨b, rest, ⟨w, t, rfl, hw, ht, htrim, hadj⟩, false, rest, .inr ⟨rfl, rfl, hcolon⟩, ?_⟩
      simp only [Bool.false_eq_true, if_false, pure_eq_ok, and_self]
  | @range t w' t' a b ht hw' ht' =>
      refine ⟨a, ':' :: (w' ++ (t' ++ rest)), ⟨w, t, ?_, hw, ht, trimmed_colon,
        adjacent_colon_right⟩, true, w' ++ (t' ++ rest), .inl ⟨rfl, rfl⟩, ?_⟩
      · simp only [List.append_assoc, List.cons_append]
      · simp only [if_true, bind_eq_ok, parseBunchNum_eq_ok, readChar_eq_ok]
        refine ⟨b, rest, ⟨w', t', rfl, hw', ht', htrim, (adjacent_colon ht').mp hadj⟩, false, rest,
          .inr ⟨rfl, rfl, hcolon⟩, ?_⟩
        simp only [Bool.false_eq_true, if_false, pure_eq_ok, and_self]
  | @skip t w' t' w'' t'' a k b ht hw' ht' hw'' ht'' =>
      refine ⟨a, ':' :: (w' ++ (t' ++ ':' :: (w'' ++ (t'' ++ rest)))), ⟨w, t, ?_, hw, ht,
        trimmed_colon, adjacent_colon_right⟩, true, _, .inl ⟨rfl, rfl⟩, ?_⟩
      · simp only [List.append_assoc, List.cons_append]
      · simp only [if_true, bind_eq_ok, parseBunchNum_eq_ok, readChar_eq_ok]
        refine ⟨k, ':' :: (w'' ++ (t'' ++ rest)), ⟨w', t', rfl, hw', ht', trimmed_colon,
          adjacent_colon_right⟩, true, _, .inl ⟨rfl, rfl⟩, ?_⟩
        have hsplit : t ++ ':' :: (w' ++ (t' ++ ':' :: (w'' ++ t''))) =
            (t ++ ':' :: (w' ++ t')) ++ ':' :: (w'' ++ t'') := by
          simp only [List.append_assoc, List.cons_append]
        rw [hsplit] at hadj
        simp only [if_true, bind_eq_ok, parseBunchNum_eq_ok, pure_eq_ok]
        exact ⟨b, rest, ⟨w'', t'', rfl, hw'', ht'', htrim, (adjacent_colon ht'').mp hadj⟩, rfl, rfl⟩

end items

end Mbf.Bunch
