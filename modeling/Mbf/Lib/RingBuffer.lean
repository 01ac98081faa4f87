import Mathlib.Data.BitVec
import Mathlib.Logic.Function.Basic

/-! # Ring buffers

The items of a queue lie at consecutive addresses of a memory, and the address after the last is the
first.  The queue is told by the address of its oldest item and by its length: the next item goes
to the address that is as far on as the queue is long (`Stores.push`), as long as the memory is not
full. -/

namespace RingBuffer

variable {α : Type*} {n : ℕ} {memory : BitVec n → α} {p q : BitVec n} {x : α} {xs : List α}

/-! ### Addresses -/

/-- Two addresses as far on as `j` and `k` are the same if these differ by a round. -/
theorem add_ofNat_inj {j k : ℕ} :
    p + BitVec.ofNat n j = p + BitVec.ofNat n k ↔ j % 2 ^ n = k % 2 ^ n := by
  rw [BitVec.add_right_inj, ← BitVec.toNat_inj, BitVec.toNat_ofNat, BitVec.toNat_ofNat]

theorem add_ofNat_eq_iff {k : ℕ} : p + BitVec.ofNat n k = p ↔ 2 ^ n ∣ k := by
  have h := @add_ofNat_inj n p k 0
  rwa [BitVec.add_zero, Nat.zero_mod, ← Nat.dvd_iff_mod_eq_zero] at h

theorem add_ofNat_succ (p : BitVec n) (k : ℕ) :
    p + BitVec.ofNat n (k + 1) = p + BitVec.ofNat n k + 1 := by
  rw [BitVec.ofNat_add, ← BitVec.add_assoc]
  rfl

theorem add_one_add_ofNat (p : BitVec n) (k : ℕ) :
    p + 1 + BitVec.ofNat n k = p + BitVec.ofNat n (k + 1) := by
  rw [add_ofNat_succ, BitVec.add_assoc, BitVec.add_assoc, BitVec.add_comm 1]

/-- How far on an address is. -/
theorem add_ofNat_sub (p : BitVec n) {k : ℕ} (hk : k < 2 ^ n) :
    (p + BitVec.ofNat n k - p).toNat = k := by
  rw [BitVec.add_comm, BitVec.add_sub_cancel, BitVec.toNat_ofNat, Nat.mod_eq_of_lt hk]

/-! ### The items -/

/-- The items lie in the memory from the address `p` on. -/
def Stores (memory : BitVec n → α) : BitVec n → List α → Prop
  | _, [] => True
  | p, x :: xs => memory p = x ∧ Stores memory (p + 1) xs

/-- A write outside of the queue. -/
theorem Stores.update (h : Stores memory p xs)
    (hq : ∀ j < xs.length, p + BitVec.ofNat n j ≠ q) (x : α) :
    Stores (Function.update memory q x) p xs := by
  induction xs generalizing p with
  | nil => trivial
  | cons y ys ih =>
      have hfirst : p ≠ q := by
        simpa using hq 0 (Nat.succ_pos _)
      refine ⟨(Function.update_of_ne hfirst _ _).trans h.1, ih h.2 fun j hj => ?_⟩
      rw [add_one_add_ofNat]
      exact hq (j + 1) (Nat.succ_lt_succ hj)

theorem stores_concat :
    Stores memory p (xs ++ [x]) ↔
      Stores memory p xs ∧ memory (p + BitVec.ofNat n xs.length) = x := by
  induction xs generalizing p with
  | nil => simp [Stores]
  | cons y ys ih =>
      rw [List.cons_append, Stores, Stores, ih, add_one_add_ofNat, List.length_cons, and_assoc]

/-- A write at the end of the queue adds an item to it. -/
theorem Stores.push (h : Stores memory p xs) (hlt : xs.length < 2 ^ n) (x : α) :
    Stores (Function.update memory (p + BitVec.ofNat n xs.length) x) p (xs ++ [x]) := by
  refine stores_concat.mpr ⟨h.update (fun j hj heq => ?_) x, Function.update_self _ _ _⟩
  rw [add_ofNat_inj, Nat.mod_eq_of_lt (hj.trans hlt), Nat.mod_eq_of_lt hlt] at heq
  omega

end RingBuffer
