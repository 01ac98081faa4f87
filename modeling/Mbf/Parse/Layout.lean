import Mathlib.Data.Int.ConditionallyCompleteOrder
import Mathlib.Data.Set.Lattice
import Mathlib.Order.CompletePartialOrder
import Mathlib.Order.Interval.Set.Basic
import Mathlib.Tactic.Linarith
import Mbf.Parse.RegisterDefs

/-! # Where registers are

The words that an item takes are fixed by its shape (`Item.size`): the entries of a group come one
after the other and those of a union on top of each other.  `Item.Placed` says that an item lies at
an offset and all that is inside it lies where these sizes put it.  Then the item takes the words
from there to its size (`Item.Placed.occupied_eq`), entries of one group take different words
(`Consecutive.pairwise_disjoint`), and each address is the sum of the positions on the way to it
(`Item.Placed.addresses_sum`). -/

namespace Mbf.RegisterDefs

/-! ### Sizes -/

mutual

/-- The words that an item takes. -/
def Item.size : Item → ℤ
  | .group _ _ _ _ content _ => totalSize content
  | .groupUse _ _ _ _ content _ => totalSize content
  | .register _ => 1
  | .registerArray _ _ length _ _ => length
  | .rwPair _ => 1
  | .overlay _ _ _ _ _ => 1
  | .union _ _ _ content _ => largestSize content

def totalSize : List Item → ℤ
  | [] => 0
  | item :: content => item.size + totalSize content

def largestSize : List Item → ℤ
  | [] => 0
  | item :: content => max item.size (largestSize content)

end

/-! ### What an item shows of where it is -/

/-- The stated range of a group or a union: the base and the length. -/
def Item.range : Item → Option (ℤ × ℤ)
  | .group _ base length _ _ _ => some (base, length)
  | .groupUse _ base length _ _ _ => some (base, length)
  | .union _ base length _ _ => some (base, length)
  | _ => none

/-- The entries of a group. -/
def Item.siblings : Item → List Item
  | .group _ _ _ _ content _ => content
  | .groupUse _ _ _ _ content _ => content
  | _ => []

mutual

/-- The offsets of the registers of an item; those of an overlay have the offset of the overlay. -/
def Item.occupied : Item → Set ℤ
  | .group _ _ _ _ content _ => occupiedBy content
  | .groupUse _ _ _ _ content _ => occupiedBy content
  | .register register => {register.offset}
  | .registerArray _ base length _ _ => Set.Ico base (base + length)
  | .rwPair registers => {offset | ∃ register ∈ registers, register.offset = offset}
  | .overlay _ offset _ _ _ => {offset}
  | .union _ _ _ content _ => occupiedBy content

def occupiedBy : List Item → Set ℤ
  | [] => ∅
  | item :: content => item.occupied ∪ occupiedBy content

end

mutual

/-- The item and all items inside it. -/
def Item.within : Item → List Item
  | .group name base length hidden content doc =>
      .group name base length hidden content doc :: withinAny content
  | .groupUse name base length definition content doc =>
      .groupUse name base length definition content doc :: withinAny content
  | .register register => [.register register]
  | .registerArray name base length rw doc => [.registerArray name base length rw doc]
  | .rwPair registers => [.rwPair registers]
  | .overlay name offset rw registers doc => [.overlay name offset rw registers doc]
  | .union name base length content doc => .union name base length content doc :: withinAny content

def withinAny : List Item → List Item
  | [] => []
  | item :: content => item.within ++ withinAny content

end

mutual

/-- The offset of each register, each array and each overlay, after its position in each group or
union around it.  `positions` are those on the way to the item. -/
def Item.addresses (positions : List ℤ) : Item → List (List ℤ × ℤ)
  | .group _ _ _ _ content _ => addressesAfter positions 0 content
  | .groupUse _ _ _ _ content _ => addressesAfter positions 0 content
  | .register register => [(positions, register.offset)]
  | .registerArray _ base _ _ _ => [(positions, base)]
  | .rwPair registers => registers.map fun register => (positions, register.offset)
  | .overlay _ offset _ _ _ => [(positions, offset)]
  | .union _ _ _ content _ => addressesOver positions content

/-- Those of the entries of a group, after entries that take `count` words. -/
def addressesAfter (positions : List ℤ) (count : ℤ) : List Item → List (List ℤ × ℤ)
  | [] => []
  | item :: content =>
      item.addresses (positions ++ [count]) ++ addressesAfter positions (count + item.size) content

/-- Those of the entries of a union. -/
def addressesOver (positions : List ℤ) : List Item → List (List ℤ × ℤ)
  | [] => []
  | item :: content => item.addresses (positions ++ [0]) ++ addressesOver positions content

end

/-! ### Placed items -/

mutual

/-- The item lies at the offset, and all that is inside it where the sizes put it. -/
def Item.Placed (offset : ℤ) : Item → Prop
  | .group _ base length _ content _ =>
      base = offset ∧ length = totalSize content ∧ Consecutive offset content
  | .groupUse _ base length _ content _ =>
      base = offset ∧ length = totalSize content ∧ Consecutive offset content
  | .register register => register.offset = offset
  | .registerArray _ base length _ _ => base = offset ∧ 0 ≤ length
  | .rwPair registers => registers ≠ [] ∧ ∀ register ∈ registers, register.offset = offset
  | .overlay _ base _ _ _ => base = offset
  | .union _ base length content _ =>
      base = offset ∧ length = largestSize content ∧ Overlaid offset content

/-- Items that lie one after the other. -/
def Consecutive (offset : ℤ) : List Item → Prop
  | [] => True
  | item :: content => item.Placed offset ∧ Consecutive (offset + item.size) content

/-- Items that lie on top of each other. -/
def Overlaid (offset : ℤ) : List Item → Prop
  | [] => True
  | item :: content => item.Placed offset ∧ Overlaid offset content

end

/-! ### The words of a placed item -/

mutual

theorem Item.Placed.size_nonneg {offset : ℤ} : {item : Item} → item.Placed offset → 0 ≤ item.size
  | .group .., h => by
      rw [Item.Placed] at h
      exact h.2.2.totalSize_nonneg
  | .groupUse .., h => by
      rw [Item.Placed] at h
      exact h.2.2.totalSize_nonneg
  | .register _, _ => by rw [Item.size]; exact zero_le_one
  | .registerArray .., h => by
      rw [Item.Placed] at h
      exact h.2
  | .rwPair _, _ => by rw [Item.size]; exact zero_le_one
  | .overlay .., _ => by rw [Item.size]; exact zero_le_one
  | .union .., h => by
      rw [Item.Placed] at h
      exact h.2.2.largestSize_nonneg

theorem Consecutive.totalSize_nonneg {offset : ℤ} :
    {content : List Item} → Consecutive offset content → 0 ≤ totalSize content
  | [], _ => le_refl 0
  | _ :: _, h => by
      rw [Consecutive] at h
      exact add_nonneg h.1.size_nonneg h.2.totalSize_nonneg

theorem Overlaid.largestSize_nonneg {offset : ℤ} :
    {content : List Item} → Overlaid offset content → 0 ≤ largestSize content
  | [], _ => le_refl 0
  | _ :: _, h => by
      rw [Overlaid] at h
      exact le_max_of_le_left h.1.size_nonneg

end

mutual

/-- A placed item takes all words from its offset to its size. -/
theorem Item.Placed.occupied_eq {offset : ℤ} :
    {item : Item} → item.Placed offset → item.occupied = Set.Ico offset (offset + item.size)
  | .group .., h => by
      rw [Item.Placed] at h
      exact h.2.2.occupiedBy_eq
  | .groupUse .., h => by
      rw [Item.Placed] at h
      exact h.2.2.occupiedBy_eq
  | .register _, h => by
      rw [Item.Placed] at h
      ext w
      rw [Item.occupied, Item.size, Set.mem_singleton_iff, Set.mem_Ico]
      omega
  | .registerArray .., h => by
      rw [Item.Placed] at h
      rw [Item.occupied, Item.size, h.1]
  | .rwPair registers, h => by
      rw [Item.Placed] at h
      obtain ⟨register, hmem⟩ := List.exists_mem_of_ne_nil registers h.1
      ext w
      rw [Item.occupied, Item.size, Set.mem_ofPred_eq, Set.mem_Ico]
      constructor
      · rintro ⟨other, hother, rfl⟩
        have := h.2 other hother
        omega
      · intro hw
        exact ⟨register, hmem, by have := h.2 register hmem; omega⟩
  | .overlay .., h => by
      rw [Item.Placed] at h
      ext w
      rw [Item.occupied, Item.size, Set.mem_singleton_iff, Set.mem_Ico]
      omega
  | .union .., h => by
      rw [Item.Placed] at h
      exact h.2.2.occupiedBy_eq

theorem Consecutive.occupiedBy_eq {offset : ℤ} :
    {content : List Item} → Consecutive offset content →
      occupiedBy content = Set.Ico offset (offset + totalSize content)
  | [], _ => by rw [occupiedBy, totalSize, add_zero, Set.Ico_self]
  | _ :: _, h => by
      rw [Consecutive] at h
      have hitem := h.1.size_nonneg
      have hrest := h.2.totalSize_nonneg
      rw [occupiedBy, totalSize, h.1.occupied_eq, h.2.occupiedBy_eq,
        Set.Ico_union_Ico_eq_Ico (by omega) (by omega), add_assoc]

theorem Overlaid.occupiedBy_eq {offset : ℤ} :
    {content : List Item} → Overlaid offset content →
      occupiedBy content = Set.Ico offset (offset + largestSize content)
  | [], _ => by rw [occupiedBy, largestSize, add_zero, Set.Ico_self]
  | _ :: _, h => by
      rw [Overlaid] at h
      have hitem := h.1.size_nonneg
      have hrest := h.2.largestSize_nonneg
      ext w
      rw [occupiedBy, largestSize, h.1.occupied_eq, h.2.occupiedBy_eq, Set.mem_union, Set.mem_Ico,
        Set.mem_Ico, Set.mem_Ico]
      omega

end

mutual

/-- What is inside a placed item is placed too. -/
theorem Item.Placed.within {offset : ℤ} :
    {item : Item} → item.Placed offset → ∀ inner ∈ item.within, ∃ place, inner.Placed place
  | .group .., h => by
      have h' := h
      rw [Item.Placed] at h'
      rw [Item.within, List.forall_mem_cons]
      exact ⟨⟨offset, h⟩, h'.2.2.within⟩
  | .groupUse .., h => by
      have h' := h
      rw [Item.Placed] at h'
      rw [Item.within, List.forall_mem_cons]
      exact ⟨⟨offset, h⟩, h'.2.2.within⟩
  | .union .., h => by
      have h' := h
      rw [Item.Placed] at h'
      rw [Item.within, List.forall_mem_cons]
      exact ⟨⟨offset, h⟩, h'.2.2.within⟩
  | .register _, h => by
      rw [Item.within, List.forall_mem_singleton]
      exact ⟨offset, h⟩
  | .registerArray .., h => by
      rw [Item.within, List.forall_mem_singleton]
      exact ⟨offset, h⟩
  | .rwPair _, h => by
      rw [Item.within, List.forall_mem_singleton]
      exact ⟨offset, h⟩
  | .overlay .., h => by
      rw [Item.within, List.forall_mem_singleton]
      exact ⟨offset, h⟩

theorem Consecutive.within {offset : ℤ} :
    {content : List Item} → Consecutive offset content →
      ∀ inner ∈ withinAny content, ∃ place, inner.Placed place
  | [], _ => by
      intro inner hinner
      cases hinner
  | _ :: _, h => by
      rw [Consecutive] at h
      rw [withinAny, List.forall_mem_append]
      exact ⟨h.1.within, h.2.within⟩

theorem Overlaid.within {offset : ℤ} :
    {content : List Item} → Overlaid offset content →
      ∀ inner ∈ withinAny content, ∃ place, inner.Placed place
  | [], _ => by
      intro inner hinner
      cases hinner
  | _ :: _, h => by
      rw [Overlaid] at h
      rw [withinAny, List.forall_mem_append]
      exact ⟨h.1.within, h.2.within⟩

end

mutual

/-- In an item placed at the sum of the positions on the way to it, the positions on the way to each
address add up to it. -/
theorem Item.Placed.addresses_sum {positions : List ℤ} :
    {item : Item} → item.Placed positions.sum →
      ∀ address ∈ item.addresses positions, address.2 = address.1.sum
  | .group .., h => by
      rw [Item.Placed] at h
      rw [Item.addresses]
      exact Consecutive.addresses_sum ((add_zero positions.sum).symm ▸ h.2.2)
  | .groupUse .., h => by
      rw [Item.Placed] at h
      rw [Item.addresses]
      exact Consecutive.addresses_sum ((add_zero positions.sum).symm ▸ h.2.2)
  | .register _, h => by
      rw [Item.Placed] at h
      rw [Item.addresses, List.forall_mem_singleton]
      exact h
  | .registerArray .., h => by
      rw [Item.Placed] at h
      rw [Item.addresses, List.forall_mem_singleton]
      exact h.1
  | .rwPair _, h => by
      rw [Item.Placed] at h
      rw [Item.addresses, List.forall_mem_map]
      exact h.2
  | .overlay .., h => by
      rw [Item.Placed] at h
      rw [Item.addresses, List.forall_mem_singleton]
      exact h
  | .union .., h => by
      rw [Item.Placed] at h
      rw [Item.addresses]
      exact Overlaid.addresses_sum h.2.2

theorem Consecutive.addresses_sum {positions : List ℤ} {count : ℤ} :
    {content : List Item} → Consecutive (positions.sum + count) content →
      ∀ address ∈ addressesAfter positions count content, address.2 = address.1.sum
  | [], _ => by
      intro address haddress
      cases haddress
  | _ :: _, h => by
      rw [Consecutive, add_assoc] at h
      rw [addressesAfter, List.forall_mem_append]
      refine ⟨Item.Placed.addresses_sum ?_, h.2.addresses_sum⟩
      rw [List.sum_append, List.sum_singleton]
      exact h.1

theorem Overlaid.addresses_sum {positions : List ℤ} :
    {content : List Item} → Overlaid positions.sum content →
      ∀ address ∈ addressesOver positions content, address.2 = address.1.sum
  | [], _ => by
      intro address haddress
      cases haddress
  | _ :: _, h => by
      rw [Overlaid] at h
      rw [addressesOver, List.forall_mem_append]
      refine ⟨Item.Placed.addresses_sum ?_, h.2.addresses_sum⟩
      rw [List.sum_append, List.sum_singleton, add_zero]
      exact h.1

end

end Mbf.RegisterDefs
