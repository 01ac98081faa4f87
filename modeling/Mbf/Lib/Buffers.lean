import Mathlib.Data.List.Basic

/-! # Chains of elastic buffers

A stage holds at most one item.  It takes an item from its input when it is empty, and gives its
item away when its output is ready, so a stage that passes items on alternates between the two.
Stages in a row make a chain; the list of a chain starts at its input.

A source offers an item by holding it: the chain with what its source offers is a queue.  On each
clock the queue gives away its oldest item if the output is ready and there is one at the output,
and nothing else changes (`queue_chain`).  An item that can move does move (`travel_chain_lt`). -/

namespace Buffers

variable {α : Type*}

/-- A stage after a clock on which its input is offered and its output is, or is not, ready. -/
def stage (input : Option α) (ready : Bool) : Option α → Option α
  | none => input
  | some x => if ready then none else some x

/-- The chain takes what is offered to it. -/
def chainReady (ready : Bool) : List (Option α) → Bool
  | [] => ready
  | s :: _ => s.isNone

/-- What the chain offers. -/
def chainOut (input : Option α) : List (Option α) → Option α
  | [] => input
  | s :: rest => chainOut s rest

/-- The chain after a clock. -/
def chain (input : Option α) (ready : Bool) : List (Option α) → List (Option α)
  | [] => []
  | s :: rest => stage input (chainReady ready rest) s :: chain s ready rest

/-- The items in the chain, the oldest first. -/
def contents : List (Option α) → List α
  | [] => []
  | s :: rest => contents rest ++ s.toList

/-- The items in the chain, and what its source offers. -/
def queue (input : Option α) (stages : List (Option α)) : List α := contents stages ++ input.toList

@[simp] theorem chain_length (input : Option α) (ready : Bool) (stages : List (Option α)) :
    (chain input ready stages).length = stages.length := by
  induction stages generalizing input with
  | nil => rfl
  | cons s rest ih => simp [chain, ih]

theorem contents_eq_nil {stages : List (Option α)} :
    contents stages = [] ↔ ∀ s ∈ stages, s = none := by
  induction stages with
  | nil => simp [contents]
  | cons s rest ih =>
      rw [contents, List.append_eq_nil_iff, ih, List.forall_mem_cons, Option.toList_eq_nil_iff,
        and_comm]

/-- What is offered is the oldest item. -/
theorem queue_of_chainOut {input : Option α} {stages : List (Option α)} {x : α}
    (h : chainOut input stages = some x) : ∃ rest, queue input stages = x :: rest := by
  induction stages generalizing input with
  | nil => exact ⟨[], by simp [queue, contents, show input = some x from h]⟩
  | cons s rest ih =>
      obtain ⟨tail, htail⟩ := ih h
      refine ⟨tail ++ input.toList, ?_⟩
      unfold queue at htail ⊢
      rw [contents, htail, List.cons_append]

/-- A chain that is ready for an item offers nothing, or has another item than this one to offer,
so a source may withdraw or replace what the chain has taken. -/
theorem queue_chain (input : Option α) (ready : Bool) (stages : List (Option α)) :
    contents (chain input ready stages) ++ (if chainReady ready stages then [] else input.toList) =
      if ready && (chainOut input stages).isSome then (queue input stages).tail
      else queue input stages := by
  induction stages generalizing input with
  | nil =>
      cases ready with
      | false => simp [chain, contents, chainReady, queue]
      | true => cases input <;> simp [chain, contents, chainReady, chainOut, queue]
  | cons s rest ih =>
      have hrest := ih s
      have hqueue : queue input (s :: rest) = queue s rest ++ input.toList := rfl
      have htail : ready && (chainOut s rest).isSome →
          (queue s rest ++ input.toList).tail = (queue s rest).tail ++ input.toList := by
        intro hout
        simp only [Bool.and_eq_true] at hout
        obtain ⟨x, hx⟩ := Option.isSome_iff_exists.mp hout.2
        obtain ⟨tail, heq⟩ := queue_of_chainOut hx
        rw [heq]
        rfl
      have hboth : (if ready && (chainOut s rest).isSome then (queue s rest ++ input.toList).tail
            else queue s rest ++ input.toList) =
          (if ready && (chainOut s rest).isSome then (queue s rest).tail else queue s rest) ++
            input.toList := by
        split_ifs with hout
        · exact htail hout
        · rfl
      rw [hqueue]
      change _ = if ready && (chainOut s rest).isSome then _ else _
      rw [hboth, ← hrest]
      have hself : chainReady ready (s :: rest) = s.isNone := rfl
      rw [hself, chain, contents]
      cases s with
      | none => simp [stage]
      | some x => cases hready : chainReady ready rest <;> simp [stage]

/-- An item that is offered stays until it is taken. -/
theorem chainOut_keep {input : Option α} {stages : List (Option α)} {x : α}
    (h : chainOut input stages = some x) (hne : stages ≠ []) (input' : Option α) :
    chainOut input' (chain input false stages) = some x := by
  induction stages generalizing input input' with
  | nil => exact absurd rfl hne
  | cons s rest ih =>
      cases rest with
      | nil =>
          have hs : s = some x := h
          simp [chain, chainOut, chainReady, stage, hs]
      | cons t rest =>
          exact ih h (List.cons_ne_nil t rest) (stage input (chainReady false (t :: rest)) s)

/-! ### Progress -/

/-- How many stages the items in the chain have before them. -/
def distance : List (Option α) → ℕ
  | [] => 0
  | s :: rest => distance rest + if s.isSome then rest.length + 1 else 0

/-- The same, with what the source offers. -/
def travel (input : Option α) (stages : List (Option α)) : ℕ :=
  distance stages + if input.isSome then stages.length + 1 else 0

/-- No item moves back. -/
theorem travel_chain_le (input : Option α) (ready : Bool) (stages : List (Option α)) :
    travel (if chainReady ready stages then none else input) (chain input ready stages) ≤
      travel input stages := by
  unfold travel
  rw [chain_length]
  induction stages generalizing input with
  | nil => cases ready <;> cases input <;> simp [chainReady, chain, distance]
  | cons s rest ih =>
      have hrest := ih s
      have hready : chainReady ready (s :: rest) = s.isNone := rfl
      rw [hready]
      unfold chain distance
      rw [chain_length]
      cases s with
      | none =>
          cases input <;> cases h : chainReady ready rest <;> simp [h, stage] at hrest ⊢ <;> omega
      | some x =>
          cases input <;> cases h : chainReady ready rest <;> simp [h, stage] at hrest ⊢ <;> omega

/-- An item moves if one is taken, or none has reached the output. -/
theorem travel_chain_lt {input : Option α} {ready : Bool} {stages : List (Option α)}
    (h : ready = true ∧ (chainOut input stages).isSome = true ∨
      chainOut input stages = none ∧ queue input stages ≠ []) :
    travel (if chainReady ready stages then none else input) (chain input ready stages) <
      travel input stages := by
  unfold travel
  rw [chain_length]
  induction stages generalizing input with
  | nil =>
      rcases h with ⟨rfl, hout⟩ | ⟨hout, hne⟩
      · cases input with
        | none => cases hout
        | some x => simp [chainReady, chain, distance]
      · cases input with
        | none => exact absurd rfl hne
        | some x => cases hout
  | cons s rest ih =>
      have hready : chainReady ready (s :: rest) = s.isNone := rfl
      have hle := travel_chain_le s ready rest
      unfold travel at hle
      rw [chain_length] at hle
      rw [hready]
      unfold chain distance
      rw [chain_length]
      by_cases hmoves : ready = true ∧ (chainOut s rest).isSome = true ∨
          chainOut s rest = none ∧ queue s rest ≠ []
      · have hlt := ih hmoves
        cases s <;> cases input <;> cases h : chainReady ready rest <;>
          simp [h, stage] at hlt ⊢ <;> omega
      · -- nothing moves in the rest of the chain, so the item is one that the source offers
        have hnone : chainOut s rest = none ∧ queue s rest = [] ∧ input.isSome = true := by
          rcases h with hout | ⟨hout, hne⟩
          · exact absurd (Or.inl hout) hmoves
          · have hempty : queue s rest = [] := by
              by_contra hne'
              exact hmoves (Or.inr ⟨hout, hne'⟩)
            refine ⟨hout, hempty, ?_⟩
            have hqueue : queue input (s :: rest) = queue s rest ++ input.toList := rfl
            rw [hqueue, hempty, List.nil_append] at hne
            cases input with
            | none => exact absurd rfl hne
            | some x => rfl
        have hs : s = none := by
          cases s with
          | none => rfl
          | some x => simp [queue] at hnone
        subst hs
        cases input with
        | none => exact absurd hnone.2.2 (by simp)
        | some y => cases h : chainReady ready rest <;> simp [h, stage] at hle ⊢ <;> omega

end Buffers
