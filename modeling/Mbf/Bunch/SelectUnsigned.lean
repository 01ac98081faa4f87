import Mbf.Bunch.SelectGrammar
import Mathlib.Data.List.Infix

/-! # Lists of unsigned numbers

A list in the wider sense is a list in the documented sense exactly if there is no sign in it and no
number of `2 ^ 32` or more (`Lists.plain`, `Selects.unsigned`). -/

namespace Mbf.Bunch

open Mbf.Command
open Mbf.Config (IsSpace IsTrimmed decimal)

/-- Every number in the text is unsigned and fits 32 bits. -/
def Unsigned (text : List Char) : Prop :=
  '+' ∉ text ∧ '-' ∉ text ∧
    ∀ digits, digits <:+: text → (∀ c ∈ digits, c.isDigit) → decimal digits < 2 ^ 32

/-! ### Runs of digits -/

section digits
variable {d u v t w : List Char} {c : Char}

theorem decimal_append : decimal (u ++ v) =
    v.foldl (fun n c => 10 * n + (c.toNat - '0'.toNat)) (decimal u) := by
  unfold decimal
  rw [List.foldl_append]

theorem le_foldl (n : ℕ) (v : List Char) :
    n ≤ v.foldl (fun n c => 10 * n + (c.toNat - '0'.toNat)) n := by
  induction v generalizing n with
  | nil => exact le_rfl
  | cons c v ih =>
      rw [List.foldl_cons]
      exact le_trans (by omega) (ih _)

theorem foldl_mono {n m : ℕ} (h : n ≤ m) (v : List Char) :
    v.foldl (fun n c => 10 * n + (c.toNat - '0'.toNat)) n ≤
      v.foldl (fun n c => 10 * n + (c.toNat - '0'.toNat)) m := by
  induction v generalizing n m with
  | nil => exact h
  | cons c v ih =>
      rw [List.foldl_cons, List.foldl_cons]
      exact ih (by omega)

/-- A part of a run of digits denotes no more than the run. -/
theorem decimal_le_of_part (h : d <:+: t) : decimal d ≤ decimal t := by
  obtain ⟨u, v, rfl⟩ := h
  calc decimal d
      ≤ decimal (u ++ d) := by
        rw [decimal_append]
        exact foldl_mono (Nat.zero_le _) d
    _ ≤ decimal (u ++ d ++ v) := by
        rw [decimal_append (v := v)]
        exact le_foldl _ v

/-- A run of digits is on one side of a character that is not a digit. -/
theorem infix_append_cons (h : d <:+: u ++ c :: v) (hc : c ∉ d) : d <:+: u ∨ d <:+: v := by
  obtain ⟨a, b, h⟩ := h
  rcases List.append_eq_append_iff.mp h with ⟨a', hu, -⟩ | ⟨c', hd, hv⟩
  · exact .inl ⟨a, a', hu.symm⟩
  · rcases List.append_eq_append_iff.mp hd with ⟨e, hu, rfl⟩ | ⟨e, rfl, rfl⟩
    · cases c' with
      | nil =>
          rw [List.append_nil, hu]
          exact .inl (List.suffix_append a e).isInfix
      | cons x c' =>
          obtain ⟨rfl, -⟩ := List.cons_eq_cons.mp hv
          exact absurd (List.mem_append_right e List.mem_cons_self) hc
    · cases e with
      | nil =>
          cases d with
          | nil => exact .inl List.nil_infix
          | cons x d =>
              obtain ⟨rfl, -⟩ := List.cons_eq_cons.mp hv
              exact absurd List.mem_cons_self hc
      | cons x e =>
          obtain ⟨-, rfl⟩ := List.cons_eq_cons.mp hv
          exact .inr ⟨e, b, rfl⟩

theorem Unsigned.part (h : Unsigned t) (hd : d <:+: t) : Unsigned d :=
  ⟨fun hc => h.1 (hd.subset hc), fun hc => h.2.1 (hd.subset hc),
    fun _ hdigits => h.2.2 _ (hdigits.trans hd)⟩

theorem unsigned_nil : Unsigned [] := by
  refine ⟨List.not_mem_nil, List.not_mem_nil, fun d hd _ => ?_⟩
  rw [List.infix_nil.mp hd]
  decide

/-- A separator that is not a sign. -/
theorem Unsigned.append_cons (hu : Unsigned u) (hv : Unsigned v) (hdigit : c.isDigit = false)
    (hplus : c ≠ '+') (hminus : c ≠ '-') : Unsigned (u ++ c :: v) := by
  refine ⟨?_, ?_, fun d hd hdigits => ?_⟩
  · simp only [List.mem_append, List.mem_cons, not_or]
    exact ⟨hu.1, hplus.symm, hv.1⟩
  · simp only [List.mem_append, List.mem_cons, not_or]
    exact ⟨hu.2.1, hminus.symm, hv.2.1⟩
  · have hc : c ∉ d := by
      intro hc
      rw [hdigits c hc] at hdigit
      cases hdigit
    rcases infix_append_cons hd hc with h | h
    · exact hu.2.2 d h hdigits
    · exact hv.2.2 d h hdigits

theorem Unsigned.append_space_cons (hu : Unsigned u) (hv : Unsigned v) (hc : isSpace c) :
    Unsigned (u ++ c :: v) := by
  refine hu.append_cons hv (not_digit_of_space hc) ?_ ?_
  · rintro rfl
    cases hc
  · rintro rfl
    cases hc

theorem Unsigned.space_append (hw : IsSpace w) (h : Unsigned t) : Unsigned (w ++ t) := by
  induction w with
  | nil => exact h
  | cons c w ih =>
      exact unsigned_nil.append_space_cons (ih fun d hd => hw d (List.mem_cons_of_mem c hd))
        (hw c List.mem_cons_self)

theorem Unsigned.append_space (h : Unsigned t) (hw : IsSpace w) : Unsigned (t ++ w) := by
  cases w with
  | nil => rwa [List.append_nil]
  | cons c w =>
      have hrest : Unsigned (w ++ []) :=
        unsigned_nil.space_append fun d hd => hw d (List.mem_cons_of_mem c hd)
      rw [List.append_nil] at hrest
      exact h.append_space_cons hrest (hw c List.mem_cons_self)

end digits

/-! ### Documented lists -/

section documented
variable {bunches b : ℕ} {t w text : List Char} {selected : ℕ → Prop}

theorem Plain.taken (hmax : bunches ≤ 2 ^ 31) (h : Plain bunches t b) : Taken bunches t b := by
  obtain ⟨hne, hdigits, rfl, hlt⟩ := h
  refine ⟨[], t, false, rfl, .none, hne, hdigits, by omega, ?_, hlt⟩
  simp only [Bool.false_eq_true, if_false]
  omega

theorem Plain.unsigned (hmax : bunches ≤ 2 ^ 31) (h : Plain bunches t b) : Unsigned t := by
  obtain ⟨hne, hdigits, rfl, hlt⟩ := h
  refine ⟨fun hc => ?_, fun hc => ?_, fun d hd _ => ?_⟩
  · exact absurd (hdigits _ hc) (by decide)
  · exact absurd (hdigits _ hc) (by decide)
  · have := decimal_le_of_part hd
    omega

theorem Taken.plain (h : Taken bunches t b) (hunsigned : Unsigned t) : Plain bunches t b := by
  obtain ⟨sign, digits, negative, rfl, hsign, hne, hdigits, -, hvalue, hlt⟩ := h
  cases hsign with
  | none =>
      have hfits := hunsigned.2.2 digits (List.infix_refl digits) hdigits
      refine ⟨hne, hdigits, ?_, hlt⟩
      simp only [Bool.false_eq_true, if_false] at hvalue
      rw [hvalue]
      change _ = decimal digits
      omega
  | plus => exact absurd List.mem_cons_self hunsigned.1
  | minus => exact absurd List.mem_cons_self hunsigned.2.1

theorem Padded.mono {number number' : List Char → ℕ → Prop} (h : Padded number t b)
    (hnumber : ∀ {t}, number t b → number' t b) : Padded number' t b := by
  obtain ⟨t, w, rfl, ht, hw⟩ := h
  exact ⟨t, w, rfl, hnumber ht, hw⟩

theorem Denotes.taken (hmax : bunches ≤ 2 ^ 31) (h : Denotes (Plain bunches) t selected) :
    Denotes (Taken bunches) t selected := by
  cases h with
  | bunch h => exact .bunch (h.mono (Plain.taken hmax))
  | range h hw h' hle => exact .range (h.mono (Plain.taken hmax)) hw (h'.mono (Plain.taken hmax)) hle
  | skip h hw h' hw' h'' hle hpos =>
      exact .skip (h.mono (Plain.taken hmax)) hw (h'.mono (Plain.taken hmax)) hw'
        (h''.mono (Plain.taken hmax)) hle hpos

/-- A documented list is a list in the wider sense. -/
theorem Lists.taken (hmax : bunches ≤ 2 ^ 31) (h : Lists (Plain bunches) Spaced t selected) :
    Takes bunches t selected := by
  induction h with
  | last h => exact .last (h.taken hmax)
  | more h hsep _ ih => exact .more (h.taken hmax) (.inl hsep) ih

theorem Padded.unsigned (hmax : bunches ≤ 2 ^ 31) (h : Padded (Plain bunches) t b) :
    Unsigned t := by
  obtain ⟨t, w, rfl, ht, hw⟩ := h
  exact (ht.unsigned hmax).append_space hw

theorem Unsigned.colon {u v : List Char} (hu : Unsigned u) (hw : IsSpace w) (hv : Unsigned v) :
    Unsigned (u ++ ':' :: (w ++ v)) :=
  hu.append_cons (hv.space_append hw) (by decide) (by decide) (by decide)

theorem Denotes.unsigned (hmax : bunches ≤ 2 ^ 31) (h : Denotes (Plain bunches) t selected) :
    Unsigned t := by
  cases h with
  | bunch h => exact h.unsigned hmax
  | range h hw h' => exact (h.unsigned hmax).colon hw (h'.unsigned hmax)
  | skip h hw h' hw' h'' =>
      exact (h.unsigned hmax).colon hw ((h'.unsigned hmax).colon hw' (h''.unsigned hmax))

theorem Lists.unsigned (hmax : bunches ≤ 2 ^ 31) (h : Lists (Plain bunches) Spaced t selected) :
    Unsigned t := by
  induction h with
  | last h => exact h.unsigned hmax
  | more h hsep _ ih =>
      obtain ⟨c, hc, hspace⟩ := hsep
      obtain ⟨before, rfl⟩ := List.getLast?_eq_some_iff.mp hc
      rw [List.append_assoc]
      exact ((h.unsigned hmax).part (List.prefix_append before [c]).isInfix).append_space_cons ih
        hspace

end documented

/-! ### Lists in the wider sense -/

section taken
variable {bunches b : ℕ} {t w text : List Char} {selected : ℕ → Prop}

theorem Padded.plain (h : Padded (Taken bunches) t b) (hunsigned : Unsigned t) :
    Padded (Plain bunches) t b := by
  obtain ⟨t, w, rfl, ht, hw⟩ := h
  exact ⟨t, w, rfl, ht.plain (hunsigned.part List.infix_append_left), hw⟩

theorem Denotes.plain (h : Denotes (Taken bunches) t selected) (hunsigned : Unsigned t) :
    Denotes (Plain bunches) t selected := by
  cases h with
  | bunch h => exact .bunch (h.plain hunsigned)
  | @range t w t' _ _ h hw h' hle =>
      refine .range (h.plain (hunsigned.part List.infix_append_left)) hw
        (h'.plain (hunsigned.part ?_)) hle
      exact ⟨t ++ ':' :: w, [], by simp only [List.append_assoc, List.cons_append, List.append_nil]⟩
  | @skip t w t' w' t'' _ _ _ h hw h' hw' h'' hle hpos =>
      refine .skip (h.plain (hunsigned.part List.infix_append_left)) hw
        (h'.plain (hunsigned.part ?_)) hw' (h''.plain (hunsigned.part ?_)) hle hpos
      · exact ⟨t ++ ':' :: w, ':' :: (w' ++ t''),
          by simp only [List.append_assoc, List.cons_append]⟩
      · exact ⟨t ++ ':' :: (w ++ (t' ++ ':' :: w')), [],
          by simp only [List.append_assoc, List.cons_append, List.append_nil]⟩

/-- A documented list starts with a digit. -/
theorem Lists.head (h : Lists (Plain bunches) Spaced t selected) : ∃ c ∈ t.head?, c.isDigit := by
  have hnumber : ∀ {t b}, Padded (Plain bunches) t b → ∃ c more, t = c :: more ∧ c.isDigit := by
    rintro t b ⟨t, w, rfl, ⟨hne, hdigits, -⟩, -⟩
    cases t with
    | nil => exact absurd rfl hne
    | cons c more => exact ⟨c, more ++ w, rfl, hdigits c List.mem_cons_self⟩
  have hitem : ∀ {t selected}, Denotes (Plain bunches) t selected →
      ∃ c more, t = c :: more ∧ c.isDigit := by
    intro t selected h
    cases h with
    | bunch h => exact hnumber h
    | range h =>
        obtain ⟨c, more, rfl, hc⟩ := hnumber h
        exact ⟨c, _, rfl, hc⟩
    | skip h =>
        obtain ⟨c, more, rfl, hc⟩ := hnumber h
        exact ⟨c, _, rfl, hc⟩
  cases h with
  | last h =>
      obtain ⟨c, more, rfl, hc⟩ := hitem h
      exact ⟨c, rfl, hc⟩
  | more h =>
      obtain ⟨c, more, rfl, hc⟩ := hitem h
      exact ⟨c, rfl, hc⟩

/-- Without signs and long numbers a list is a documented list. -/
theorem Lists.plain (h : Takes bunches t selected) (hunsigned : Unsigned t) :
    Lists (Plain bunches) Spaced t selected := by
  induction h with
  | last h => exact .last (h.plain hunsigned)
  | more h hsep _ ih =>
      have hrest := ih (hunsigned.part List.infix_append_right)
      refine .more (h.plain (hunsigned.part List.infix_append_left)) ?_ hrest
      rcases hsep with hsep | hsign
      · exact hsep
      · obtain ⟨c, hc, hdigit⟩ := hrest.head
        rw [hsign c hc] at hdigit
        cases hdigit

end taken

end Mbf.Bunch
