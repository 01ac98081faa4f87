import Mathlib.Data.List.Basic

/-! # Trees by depth

A text whose lines have a depth stands for a forest: the lines in preorder, each below the nearest
line before it with less depth.  `Block` says when a forest is laid out like this, with all
siblings at the same depth; then the parents in the forest are the nearest lines with less depth
(`Block.parents_eq`). -/

namespace Nesting

universe u

variable {α : Type u}

/-! ### Forests -/

/-- A tree with any number of children. -/
inductive Rose (α : Type u) where
  | node (label : α) (children : List (Rose α))
deriving Repr

def Rose.label : Rose α → α
  | .node a _ => a

def Rose.children : Rose α → List (Rose α)
  | .node _ cs => cs

mutual

/-- A tree in preorder. -/
def Rose.preorder : Rose α → List α
  | .node a cs => a :: preorder cs

/-- A forest in preorder. -/
def preorder : List (Rose α) → List α
  | [] => []
  | t :: ts => t.preorder ++ preorder ts

end

mutual

/-- Each label in preorder, with that of its parent. -/
def Rose.parents (p : Option α) : Rose α → List (α × Option α)
  | .node a cs => (a, p) :: parents (some a) cs

def parents (p : Option α) : List (Rose α) → List (α × Option α)
  | [] => []
  | t :: ts => t.parents p ++ parents p ts

end

mutual

/-- The labels of siblings, for each tree below the root. -/
def Rose.families : Rose α → List (List α)
  | .node _ cs => cs.map Rose.label :: innerFamilies cs

def innerFamilies : List (Rose α) → List (List α)
  | [] => []
  | t :: ts => t.families ++ innerFamilies ts

end

/-- The labels of siblings. -/
def families (ts : List (Rose α)) : List (List α) := ts.map Rose.label :: innerFamilies ts

/-! ### Depth -/

variable (depth : α → ℕ)

/-- The nearest of the lines before that has less depth; the last of these lines comes first. -/
def nearest (before : List α) (a : α) : Option α := before.find? fun b => depth b < depth a

/-- Each line with the nearest line before it that has less depth. -/
def withNearest (before : List α) : List α → List (α × Option α)
  | [] => []
  | a :: l => (a, nearest depth before a) :: withNearest (a :: before) l

/-- The roots are at depth `n`, and below each tree the roots are at one depth as well, a greater
one. -/
inductive Block : ℕ → List (Rose α) → Prop
  | nil (n : ℕ) : Block n []
  | cons {n m : ℕ} {a : α} {cs ts : List (Rose α)} (hdepth : depth a = n) (hlt : n < m)
      (hbelow : Block m cs) (hbeside : Block n ts) : Block n (.node a cs :: ts)

variable {depth} {n : ℕ} {ts : List (Rose α)}

/-- A tree beside others at its depth. -/
theorem Block.beside {t : Rose α} (h : Block depth n [t]) (hts : Block depth n ts) :
    Block depth n (t :: ts) := by
  cases h with
  | cons hdepth hlt hbelow _ => exact .cons hdepth hlt hbelow hts

theorem withNearest_append (before l l' : List α) :
    withNearest depth before (l ++ l') =
      withNearest depth before l ++ withNearest depth (l.reverse ++ before) l' := by
  induction l generalizing before with
  | nil => rfl
  | cons a l ih =>
      rw [List.cons_append, withNearest, ih, withNearest, List.cons_append, List.reverse_cons,
        List.append_assoc]
      rfl

/-- Nothing in a block is less deep than its roots. -/
theorem Block.le_depth (h : Block depth n ts) : ∀ a ∈ preorder ts, n ≤ depth a := by
  induction h with
  | nil n =>
      intro a ha
      cases ha
  | cons hdepth hlt _ _ ihbelow ihbeside =>
      intro b hb
      rw [preorder, Rose.preorder, List.cons_append, List.mem_cons, List.mem_append] at hb
      rcases hb with rfl | hb | hb
      · exact Nat.le_of_eq hdepth.symm
      · exact Nat.le_trans (Nat.le_of_lt hlt) (ihbelow b hb)
      · exact ihbeside b hb

/-- What a block adds to the lines before does not matter at its own depth. -/
theorem nearest_skip {before l : List α} {a : α} (hl : ∀ b ∈ l, depth a ≤ depth b) :
    nearest depth (l.reverse ++ before) a = nearest depth before a := by
  unfold nearest
  have hnone : l.reverse.find? (fun b => depth b < depth a) = none := by
    rw [List.find?_eq_none]
    intro b hb
    have hle := hl b (List.mem_reverse.mp hb)
    rw [decide_eq_true_eq]
    omega
  rw [List.find?_append, hnone, Option.none_or]

/-- The parents in a block are the nearest lines with less depth, if that is so for its roots. -/
theorem Block.parents_eq (h : Block depth n ts) {before : List α} {p : Option α}
    (hroot : ∀ a, depth a = n → nearest depth before a = p) :
    parents p ts = withNearest depth before (preorder ts) := by
  induction h generalizing before p with
  | nil n => rfl
  | @cons n m a cs ts hdepth hlt hbelow hbeside ihbelow ihbeside =>
      have hbelowParent : ∀ b, depth b = m → nearest depth (a :: before) b = some a := by
        intro b hb
        unfold nearest
        rw [List.find?_cons_of_pos]
        exact decide_eq_true (by omega)
      have hbesideParent : ∀ b, depth b = n →
          nearest depth ((preorder cs).reverse ++ a :: before) b = p := by
        intro b hb
        have hskip := @nearest_skip α depth before (a :: preorder cs) b (by
          intro c hc
          rcases List.mem_cons.mp hc with rfl | hc
          · omega
          · have hle := hbelow.le_depth c hc
            omega)
        rw [List.reverse_cons, List.append_assoc] at hskip
        exact hskip.trans (hroot b hb)
      rw [parents, Rose.parents, preorder, Rose.preorder, List.cons_append, List.cons_append,
        withNearest, withNearest_append, ihbelow hbelowParent, ihbeside hbesideParent,
        hroot a hdepth]

theorem Block.label_depth (h : Block depth n ts) : ∀ a ∈ ts.map Rose.label, depth a = n := by
  induction h with
  | nil n =>
      intro a ha
      cases ha
  | cons hdepth _ _ _ _ ihbeside =>
      intro b hb
      rcases List.mem_cons.mp hb with rfl | hb
      · exact hdepth
      · exact ihbeside b hb

/-- Siblings are at the same depth. -/
theorem Block.siblings (h : Block depth n ts) :
    ∀ family ∈ families ts, ∀ a ∈ family, ∀ b ∈ family, depth a = depth b := by
  have hinner : ∀ family ∈ innerFamilies ts, ∀ a ∈ family, ∀ b ∈ family, depth a = depth b := by
    induction h with
    | nil n =>
        intro family hfamily
        cases hfamily
    | cons hdepth hlt hbelow hbeside ihbelow ihbeside =>
        intro family hfamily a ha b hb
        rw [innerFamilies, Rose.families, List.cons_append, List.mem_cons,
          List.mem_append] at hfamily
        rcases hfamily with rfl | hfamily | hfamily
        · exact (hbelow.label_depth a ha).trans (hbelow.label_depth b hb).symm
        · exact ihbelow family hfamily a ha b hb
        · exact ihbeside family hfamily a ha b hb
  intro family hfamily a ha b hb
  rcases List.mem_cons.mp hfamily with rfl | hfamily
  · exact (h.label_depth a ha).trans (h.label_depth b hb).symm
  · exact hinner family hfamily a ha b hb

end Nesting
