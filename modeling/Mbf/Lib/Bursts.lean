import Mathlib.Algebra.Order.Group.Nat
import Mathlib.Data.List.Basic
import Mathlib.Data.List.GetD

/-! # Bursts

A master writes words to a memory in bursts: addresses go on one channel and beats of data on
another, `length` beats for each address.  A beat that is strobed writes its word, at the address of
its burst and its place in it (`writes`); the beat that ends a burst is marked (`Framed`). -/

namespace Bursts

variable {α : Type*} {length n : ℕ} {addresses more : List ℕ}

/-- One transfer of the data channel. -/
structure Beat (α : Type*) where
  data : α
  strobe : Bool
  last : Bool
deriving DecidableEq, Repr

/-- What a beat writes at this word. -/
def Beat.writes (x : Beat α) (word : ℕ) : List (ℕ × α) := if x.strobe then [(word, x.data)] else []

/-- The word of the beat `n`: the addresses count in bursts. -/
def word (length : ℕ) (addresses : List ℕ) (n : ℕ) : ℕ :=
  addresses.getD (n / length) 0 * length + n % length

/-- What these beats have written with these addresses, in order. -/
def writes (length : ℕ) (addresses : List ℕ) (beats : List (Beat α)) : List (ℕ × α) :=
  beats.zipIdx.flatMap fun x => x.1.writes (word length addresses x.2)

/-- The last beat of each burst is marked, and no other. -/
def Framed (length : ℕ) (beats : List (Beat α)) : Prop :=
  ∀ n x, beats[n]? = some x → (x.last = true ↔ n % length + 1 = length)

/-! ### Counting beats -/

theorem mod_add_one (hpos : 0 < length) (n : ℕ) :
    (n + 1) % length = if n % length + 1 = length then 0 else n % length + 1 := by
  have hlt := Nat.mod_lt n hpos
  rw [← Nat.mod_add_mod]
  split
  · next hlast => rw [hlast, Nat.mod_self]
  · next hlast => exact Nat.mod_eq_of_lt (by omega)

theorem div_add_one (hpos : 0 < length) (n : ℕ) :
    (n + 1) / length = n / length + if n % length + 1 = length then 1 else 0 := by
  have hmod := mod_add_one hpos n
  split
  · next hlast =>
      rw [if_pos hlast] at hmod
      exact Nat.succ_div_of_mod_eq_zero hmod
  · next hlast =>
      rw [if_neg hlast] at hmod
      exact Nat.succ_div_of_mod_ne_zero (by omega)

/-! ### Addresses and beats -/

/-- The address of a beat is there before the beat, so later addresses do not change its word. -/
theorem word_append (h : n < length * addresses.length) :
    word length (addresses ++ more) n = word length addresses n := by
  unfold word
  rw [List.getD_append _ _ _ _ (Nat.div_lt_of_lt_mul h)]

theorem writes_append_address {beats : List (Beat α)}
    (h : beats.length ≤ length * addresses.length) :
    writes length (addresses ++ more) beats = writes length addresses beats := by
  unfold writes
  refine List.flatMap_congr fun x hx => ?_
  have hlt := List.snd_lt_of_mem_zipIdx hx
  rw [word_append (by omega)]

theorem writes_append_beat (beats : List (Beat α)) (x : Beat α) :
    writes length addresses (beats ++ [x]) =
      writes length addresses beats ++ x.writes (word length addresses beats.length) := by
  unfold writes
  rw [List.zipIdx_append, List.flatMap_append]
  simp

theorem framed_nil : Framed length ([] : List (Beat α)) := by
  intro n x hx
  cases hx

theorem Framed.append {beats : List (Beat α)} {x : Beat α} (h : Framed length beats)
    (hlast : x.last = true ↔ beats.length % length + 1 = length) :
    Framed length (beats ++ [x]) := by
  intro n y hy
  rcases Nat.lt_or_ge n beats.length with hlt | hge
  · rw [List.getElem?_append_left hlt] at hy
    exact h n y hy
  · rw [List.getElem?_append_right hge, List.getElem?_singleton] at hy
    obtain ⟨hn, rfl⟩ : n = beats.length ∧ x = y := by
      split at hy
      · exact ⟨by omega, Option.some.inj hy⟩
      · cases hy
    rw [hn]
    exact hlast

end Bursts
