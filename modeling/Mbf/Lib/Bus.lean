import Mathlib.Data.List.ReduceOption
import Mathlib.Data.Set.Function
import Mathlib.Order.Interval.Set.Defs

/-! # Register writes and clocks

A program writes to the registers of a circuit one write after the other, and the circuit sees at
most one of them on a clock, with any number of clocks in between: the input of a clock is an
`Option`.

A circuit may need some clocks for a write.  If there is a view of it that looks ahead, so that it
changes by a step on a write and not at all on other clocks, then the view after some clocks is
that of the writes alone (`view_foldl`).  Otherwise the circuit has to be given the clocks it needs
before the next write comes (`Paced`), and between the writes it is quiet (`Paced.foldl`).

Writes through an address that counts up fill consecutive places of a memory (`store`). -/

namespace Bus

variable {ι σ τ : Type*} {clock : σ → Option ι → σ} {view : σ → τ} {step : τ → ι → τ}

theorem view_foldl (hidle : ∀ s, view (clock s none) = view s)
    (hwrite : ∀ s w, view (clock s (some w)) = step (view s) w) (clocks : List (Option ι)) (s : σ) :
    view (clocks.foldl clock s) = clocks.reduceOption.foldl step (view s) := by
  induction clocks generalizing s with
  | nil => rfl
  | cons input clocks ih =>
      cases input with
      | none => rw [List.foldl_cons, ih, hidle, List.reduceOption_cons_of_none]
      | some w => rw [List.foldl_cons, ih, hwrite, List.reduceOption_cons_of_some, List.foldl_cons]

/-- A write on every clock. -/
theorem reduceOption_map_some (writes : List ι) : (writes.map some).reduceOption = writes := by
  induction writes with
  | nil => rfl
  | cons w writes ih => rw [List.map_cons, List.reduceOption_cons_of_some, ih]

/-! ### Writes that take some clocks -/

/-- A write, and the clocks that it takes. -/
def settled (settle : ι → ℕ) (w : ι) : List (Option ι) := some w :: List.replicate (settle w) none

/-- The clocks carry the writes, and each write is given at least the clocks it takes. -/
inductive Paced (settle : ι → ℕ) : List (Option ι) → List ι → Prop
  | nil : Paced settle [] []
  | idle {clocks : List (Option ι)} {writes : List ι} (h : Paced settle clocks writes) :
      Paced settle (none :: clocks) writes
  | write (w : ι) {clocks : List (Option ι)} {writes : List ι} (h : Paced settle clocks writes) :
      Paced settle (settled settle w ++ clocks) (w :: writes)

/-- The writes as fast as they can be made. -/
theorem Paced.flatMap_settled (settle : ι → ℕ) (writes : List ι) :
    Paced settle (writes.flatMap (settled settle)) writes := by
  induction writes with
  | nil => exact .nil
  | cons w writes ih => exact .write w ih

/-- A circuit that is quiet between the writes takes them step by step. -/
theorem Paced.foldl {settle : ι → ℕ} {quiet : σ → Prop}
    (hidle : ∀ s, quiet s → quiet (clock s none) ∧ view (clock s none) = view s)
    (hwrite : ∀ s w, quiet s → quiet ((settled settle w).foldl clock s) ∧
      view ((settled settle w).foldl clock s) = step (view s) w)
    {clocks : List (Option ι)} {writes : List ι} (h : Paced settle clocks writes) {s : σ}
    (hs : quiet s) :
    quiet (clocks.foldl clock s) ∧ view (clocks.foldl clock s) = writes.foldl step (view s) := by
  induction h generalizing s with
  | nil => exact ⟨hs, rfl⟩
  | idle h ih =>
      obtain ⟨hquiet, hview⟩ := hidle s hs
      rw [List.foldl_cons, ← hview]
      exact ih hquiet
  | write w h ih =>
      obtain ⟨hquiet, hview⟩ := hwrite s w hs
      rw [List.foldl_append, List.foldl_cons, ← hview]
      exact ih hquiet

/-! ### Consecutive places of a memory -/

section store
variable {κ α : Type*} [DecidableEq κ]

/-- Values stored at the places `k`, `k + 1`, … of a memory. -/
def store (addr : ℕ → κ) : ℕ → List α → (κ → α) → κ → α
  | _, [], memory => memory
  | k, x :: l, memory => store addr (k + 1) l (Function.update memory (addr k) x)

variable {addr : ℕ → κ} {k : ℕ} {l : List α} {memory : κ → α}

/-- The rest of the memory is left alone. -/
theorem store_other {a : κ} (h : ∀ j, k ≤ j → j < k + l.length → addr j ≠ a) :
    store addr k l memory a = memory a := by
  induction l generalizing k memory with
  | nil => rfl
  | cons x l ih =>
      rw [List.length_cons] at h
      have hne : a ≠ addr k := (h k le_rfl (by omega)).symm
      rw [store, ih (fun j hlo hhi => h j (by omega) (by omega)), Function.update_of_ne hne]

/-- Each place holds the value stored there, if no place comes twice. -/
theorem store_place {n j : ℕ} {x : α} (hinj : Set.InjOn addr (Set.Iio n))
    (hfits : k + l.length ≤ n) (hx : l[j]? = some x) : store addr k l memory (addr (k + j)) = x := by
  induction l generalizing k j memory with
  | nil => simp at hx
  | cons y l ih =>
      rw [List.length_cons] at hfits
      cases j with
      | zero =>
          rw [List.getElem?_cons_zero, Option.some.injEq] at hx
          have hne : ∀ i, k + 1 ≤ i → i < k + 1 + l.length → addr i ≠ addr k := by
            intro i hlo hhi heq
            have hik := hinj (Set.mem_Iio.mpr (by omega)) (Set.mem_Iio.mpr (by omega)) heq
            omega
          rw [Nat.add_zero, store, store_other hne, Function.update_self, hx]
      | succ j =>
          rw [List.getElem?_cons_succ] at hx
          rw [store, show k + (j + 1) = k + 1 + j by omega]
          exact ih (by omega) hx

/-- The last value is at its place even if the place comes twice. -/
theorem store_concat (x : α) :
    store addr k (l ++ [x]) memory =
      Function.update (store addr k l memory) (addr (k + l.length)) x := by
  induction l generalizing k memory with
  | nil => rfl
  | cons y l ih =>
      rw [List.cons_append, store, store, ih, List.length_cons,
        show k + 1 + l.length = k + (l.length + 1) by omega]

/-- Where the writes of a value store it at the next place, those of a list fill consecutive
places. -/
theorem foldl_store {β : Type*} {P : ℕ → (κ → α) → τ → Prop} {writes : β → List ι} {value : β → α}
    (h : ∀ k memory x t, P k memory t →
      P (k + 1) (Function.update memory (addr k) (value x)) ((writes x).foldl step t))
    (l : List β) {t : τ} (ht : P k memory t) :
    P (k + l.length) (store addr k (l.map value) memory) ((l.flatMap writes).foldl step t) := by
  induction l generalizing k memory t with
  | nil => exact ht
  | cons x l ih =>
      rw [List.flatMap_cons, List.foldl_append, List.length_cons, List.map_cons, store,
        show k + (l.length + 1) = k + 1 + l.length by omega]
      exact ih (h k memory x t ht)

end store

end Bus
