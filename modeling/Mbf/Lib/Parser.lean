import Mathlib.Data.Nat.Notation

/-! # Parsers that return only good values

A parser consumes a list of characters and either returns a value or stops with a message; in
both cases what is left to parse is known.  `Returns p P` says that whatever `p` returns
satisfies `P`.  There is one rule for each way of building a parser, so that a property of the
result of a long parser is proved along its text.

Where it matters what a parser accepts, its successful runs are taken apart (`bind_eq_ok`), down to
the runs of characters that it skips or takes (`Span`). -/

namespace Parsing

/-- A parser over characters that stops with a message. -/
abbrev Parser := EStateM String (List Char)

variable {α β : Type}

/-- Go on if `p` holds, else stop with the message. -/
def test (p : Prop) [Decidable p] (message : String) : Parser Unit :=
  if p then pure () else throw message

/-- What `p` returns satisfies `P`. -/
def Returns (p : Parser α) (P : α → Prop) : Prop :=
  ∀ s a s', p s = .ok a s' → P a

namespace Returns

variable {p : Parser α} {P : α → Prop} {R : β → Prop}

theorem trivial : Returns p fun _ => True := fun _ _ _ _ => True.intro

theorem pure {a : α} (h : P a) : Returns (pure a) P := by
  intro s b s' hb
  cases hb
  exact h

theorem bind {f : α → Parser β} (hp : Returns p P) (hf : ∀ a, P a → Returns (f a) R) :
    Returns (p >>= f) R := by
  intro s b s' hb
  change EStateM.bind p f s = _ at hb
  unfold EStateM.bind at hb
  split at hb
  · next a t ha => exact hf a (hp s a t ha) t b s' hb
  · cases hb

theorem map {f : α → β} (hp : Returns p P) (hf : ∀ a, P a → R (f a)) : Returns (f <$> p) R := by
  intro s b s' hb
  change EStateM.map f p s = _ at hb
  unfold EStateM.map at hb
  split at hb
  · next a t ha =>
      cases hb
      exact hf a (hp s a s' ha)
  · cases hb

theorem ite {c : Prop} [Decidable c] {q : Parser α} (hp : c → Returns p P)
    (hq : ¬ c → Returns q P) : Returns (if c then p else q) P := by
  by_cases h : c
  · rw [if_pos h]
    exact hp h
  · rw [if_neg h]
    exact hq h

/-- After a test its condition holds. -/
theorem test {c : Prop} [Decidable c] {message : String} :
    Returns (test c message) fun _ => c := by
  intro s a s' ha
  unfold Parsing.test at ha
  by_cases h : c
  · exact h
  · rw [if_neg h] at ha
    cases ha

end Returns

/-! ### Successful runs -/

section success
variable {p : Parser α} {f : α → Parser β} {a a' : α} {b : β} {s s' : List Char}

theorem bind_eq_ok : (p >>= f) s = .ok b s' ↔ ∃ a t, p s = .ok a t ∧ f a t = .ok b s' := by
  change EStateM.bind p f s = _ ↔ _
  unfold EStateM.bind
  constructor
  · intro h
    split at h
    · exact ⟨_, _, ‹_›, h⟩
    · cases h
  · rintro ⟨a, t, hp, hf⟩
    rw [hp]
    exact hf

theorem pure_eq_ok : (pure a : Parser α) s = .ok a' s' ↔ a = a' ∧ s = s' := by
  constructor
  · intro h
    cases h
    exact ⟨rfl, rfl⟩
  · rintro ⟨rfl, rfl⟩
    rfl

theorem map_eq_ok {g : α → β} : (g <$> p) s = .ok b s' ↔ ∃ a, p s = .ok a s' ∧ g a = b := by
  change EStateM.map g p s = _ ↔ _
  unfold EStateM.map
  constructor
  · intro h
    split at h
    · cases h
      exact ⟨_, ‹_›, rfl⟩
    · cases h
  · rintro ⟨a, hp, rfl⟩
    rw [hp]

theorem test_eq_ok {c : Prop} [Decidable c] {message : String} {u : Unit} :
    test c message s = .ok u s' ↔ c ∧ s = s' := by
  unfold test
  by_cases h : c
  · rw [if_pos h, pure_eq_ok]
    exact ⟨fun h' => ⟨h, h'.2⟩, fun h' => ⟨rfl, h'.2⟩⟩
  · rw [if_neg h]
    constructor
    · intro h'
      cases h'
    · intro h'
      exact absurd h'.1 h

theorem get_eq_ok {t : List Char} : (get : Parser (List Char)) s = .ok t s' ↔ t = s ∧ s = s' := by
  constructor
  · intro h
    cases h
    exact ⟨rfl, rfl⟩
  · rintro ⟨rfl, rfl⟩
    rfl

theorem set_eq_ok {t : List Char} {u : PUnit} : (set t : Parser PUnit) s = .ok u s' ↔ t = s' := by
  constructor
  · intro h
    cases h
    rfl
  · rintro rfl
    rfl

end success

/-! ### Spans -/

/-- The text starts with `w`, all of which satisfies `p`, and what follows does not go on so. -/
structure Span (p : Char → Bool) (text w rest : List Char) : Prop where
  eq : text = w ++ rest
  all : ∀ c ∈ w, p c
  stops : ∀ c ∈ rest.head?, p c = false

namespace Span

variable {p : Char → Bool} {text w rest : List Char}

theorem refl (p : Char → Bool) (text : List Char) :
    Span p text (text.takeWhile p) (text.dropWhile p) where
  eq := List.takeWhile_append_dropWhile.symm
  all := List.all_eq_true.mp List.all_takeWhile
  stops c hc := by
    have hhead := List.head?_dropWhile_not p text
    rw [Option.mem_def.mp hc] at hhead
    exact hhead

theorem takeWhile_eq (h : Span p text w rest) : text.takeWhile p = w := by
  obtain ⟨rfl, hall, hstops⟩ := h
  rw [List.takeWhile_append_of_pos hall]
  cases rest with
  | nil => exact List.append_nil w
  | cons c rest =>
      have hc : ¬ p c = true := by
        rw [hstops c rfl]
        exact Bool.false_ne_true
      rw [List.takeWhile_cons_of_neg hc, List.append_nil]

theorem dropWhile_eq (h : Span p text w rest) : text.dropWhile p = rest := by
  have happend := (refl p text).eq
  rw [h.takeWhile_eq] at happend
  exact List.append_cancel_left (happend.symm.trans h.eq)

/-- A span taken with a limit, if it stays under it. -/
theorem take_iff {k : ℕ} :
    ((text.take k).takeWhile p = w ∧ text.drop w.length = rest ∧ w.length < k) ↔
      Span p text w rest ∧ w.length < k := by
  rw [← List.take_takeWhile]
  constructor
  · rintro ⟨hw, hrest, hlength⟩
    have hall : (text.takeWhile p).length ≤ k := by
      rw [← hw, List.length_take] at hlength
      omega
    rw [List.take_of_length_le hall] at hw
    have hspan := refl p text
    rw [hw] at hspan
    have hdrop : text.drop w.length = text.dropWhile p :=
      (congrArg (List.drop w.length) hspan.eq).trans List.drop_left
    rw [← hrest, hdrop]
    exact ⟨hspan, hlength⟩
  · rintro ⟨hspan, hlength⟩
    refine ⟨?_, ?_, hlength⟩
    · rw [hspan.takeWhile_eq, List.take_of_length_le (Nat.le_of_lt hlength)]
    · rw [hspan.eq]
      exact List.drop_left

end Span

end Parsing
