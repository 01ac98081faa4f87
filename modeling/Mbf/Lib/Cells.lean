import Mathlib.Data.List.Nodup
import Mathlib.Logic.Function.Basic

/-! # Loops over independent cells

A state with a cell for every index, an append-only log and a remaining part.  An indexed
operation is local when it changes only the cell of its own index, as a function of that cell,
logs something that depends on that cell only, and leaves the remaining part alone.  A loop of
local operations over distinct indices then acts on all of its cells at once, and logs in the
order of the loop.  A loop that copies from place to place is one that needs no log. -/

namespace Cells

open Function

variable {σ ι α ω ρ : Type*} [DecidableEq ι]

/-- The three parts of a state. -/
structure View (σ ι α ω ρ : Type*) where
  cell : σ → ι → α
  log : σ → List ω
  rest : σ → ρ

/-- `f i` changes cell `i` by `g i`, and logs `o i` of the cell it found. -/
structure Local (v : View σ ι α ω ρ) (f : ι → σ → σ) (g : ι → α → α) (o : ι → α → List ω) :
    Prop where
  cell : ∀ i s, v.cell (f i s) = update (v.cell s) i (g i (v.cell s i))
  log : ∀ i s, v.log (f i s) = v.log s ++ o i (v.cell s i)
  rest : ∀ i s, v.rest (f i s) = v.rest s

namespace Local

variable {v : View σ ι α ω ρ} {f : ι → σ → σ} {g : ι → α → α} {o : ι → α → List ω}

/-- A local operation done only on the cells satisfying `p` is local. -/
theorem guard (h : Local v f g o) (p : α → Prop) [DecidablePred p] :
    Local v (fun i s => if p (v.cell s i) then f i s else s)
      (fun i x => if p x then g i x else x) (fun i x => if p x then o i x else []) where
  cell i s := by
    split_ifs
    · exact h.cell i s
    · rw [update_eq_self]
  log i s := by
    split_ifs
    · exact h.log i s
    · rw [List.append_nil]
  rest i s := by
    split_ifs
    · exact h.rest i s
    · rfl

theorem foldl_cell (h : Local v f g o) (l : List ι) (hl : l.Nodup) (s : σ) (i : ι) :
    v.cell (l.foldl (fun s i => f i s) s) i =
      if i ∈ l then g i (v.cell s i) else v.cell s i := by
  induction l generalizing s with
  | nil => simp
  | cons j l ih =>
      rw [List.nodup_cons] at hl
      rw [List.foldl_cons, ih hl.2, h.cell]
      by_cases hij : i = j
      · subst hij
        simp [hl.1]
      · simp [hij]

theorem foldl_log (h : Local v f g o) (l : List ι) (hl : l.Nodup) (s : σ) :
    v.log (l.foldl (fun s i => f i s) s) = v.log s ++ l.flatMap fun i => o i (v.cell s i) := by
  induction l generalizing s with
  | nil => simp
  | cons j l ih =>
      rw [List.nodup_cons] at hl
      have hrest : (l.flatMap fun i => o i (v.cell (f j s) i)) =
          l.flatMap fun i => o i (v.cell s i) := by
        apply List.flatMap_congr
        intro i hi
        rw [h.cell, update_of_ne (by rintro rfl; exact hl.1 hi)]
      rw [List.foldl_cons, ih hl.2, hrest, h.log, List.flatMap_cons, List.append_assoc]

theorem foldl_rest (h : Local v f g o) (l : List ι) (s : σ) :
    v.rest (l.foldl (fun s i => f i s) s) = v.rest s := by
  induction l generalizing s with
  | nil => rfl
  | cons j l ih => rw [List.foldl_cons, ih, h.rest]

end Local

/-! ### Copying -/

variable {κ : Type*}

/-- A loop that copies along a list of pairs of places leaves the others alone. -/
theorem foldl_copy_other (l : List (ι × κ)) (f : κ → α) (g : ι → α) {i : ι}
    (hi : i ∉ l.map Prod.fst) : l.foldl (fun g p => update g p.1 (f p.2)) g i = g i := by
  induction l generalizing g with
  | nil => rfl
  | cons p l ih =>
      rw [List.map_cons, List.mem_cons, not_or] at hi
      rw [List.foldl_cons, ih _ hi.2, update_of_ne hi.1]

/-- If no place is written twice, each gets what is copied there. -/
theorem foldl_copy (l : List (ι × κ)) (hl : (l.map Prod.fst).Nodup) (f : κ → α) (g : ι → α)
    {p : ι × κ} (hp : p ∈ l) : l.foldl (fun g p => update g p.1 (f p.2)) g p.1 = f p.2 := by
  induction l generalizing g with
  | nil => cases hp
  | cons q l ih =>
      rw [List.map_cons, List.nodup_cons] at hl
      rw [List.foldl_cons]
      rcases List.mem_cons.mp hp with rfl | hp
      · rw [foldl_copy_other l f _ hl.1, update_self]
      · exact ih hl.2 _ hp

end Cells
