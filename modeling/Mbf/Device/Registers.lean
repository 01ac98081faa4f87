import Mathlib.Data.Nat.Notation

/-! # The lock of the register device

A board has one `struct register_locking`, shared by all the handles open on its register
device.  Each of the four functions below is what one operation does while it holds
`locking->mutex`.  A handle is known by the address of its `struct register_context`. -/

namespace Mbf.Device

/-- The error codes of the driver's open and ioctl operations. -/
inductive Errno where
  | enxio
  | enomem
  | ebusy
  | einval
deriving DecidableEq, Repr

/-- `struct register_locking`. -/
structure RegisterLocking where
  /-- Number of users. -/
  referenceCount : ℕ
  /-- The locking owner, if locked. -/
  lockedBy : Option ℕ
deriving DecidableEq, Repr

namespace RegisterLocking

/-- The state `kmalloc` and the initialiser of `struct amc525_mbf` leave. -/
def unlocked : RegisterLocking := ⟨0, none⟩

/-- `mbf_reg_open`: check for lock state and count ourself in if we can. -/
def mbfRegOpen (locking : RegisterLocking) : Except Errno RegisterLocking :=
  if locking.lockedBy.isSome then .error .ebusy
  else .ok { locking with referenceCount := locking.referenceCount + 1 }

/-- `mbf_reg_release`. -/
def mbfRegRelease (context : ℕ) (locking : RegisterLocking) : RegisterLocking where
  lockedBy := if locking.lockedBy = some context then none else locking.lockedBy
  referenceCount := locking.referenceCount - 1

/-- `lock_register`. -/
def lockRegister (context : ℕ) (locking : RegisterLocking) :
    Except Errno Unit × RegisterLocking :=
  if 1 < locking.referenceCount then (.error .ebusy, locking)
  else if locking.lockedBy.isSome then (.error .ebusy, locking)
  else (.ok (), { locking with lockedBy := some context })

/-- `unlock_register`. -/
def unlockRegister (context : ℕ) (locking : RegisterLocking) :
    Except Errno Unit × RegisterLocking :=
  if locking.lockedBy = some context then (.ok (), { locking with lockedBy := none })
  else (.error .einval, locking)

/-! ### What each operation does -/

variable {context : ℕ} {locking : RegisterLocking}

theorem mbfRegOpen_free (h : locking.lockedBy = none) :
    locking.mbfRegOpen = .ok ⟨locking.referenceCount + 1, none⟩ := by
  unfold mbfRegOpen
  rw [h]
  rfl

theorem mbfRegOpen_locked (h : locking.lockedBy = some context) :
    locking.mbfRegOpen = .error .ebusy := by
  unfold mbfRegOpen
  rw [h]
  rfl

@[simp] theorem mbfRegRelease_count :
    (locking.mbfRegRelease context).referenceCount = locking.referenceCount - 1 := rfl

theorem mbfRegRelease_holder (h : locking.lockedBy = some context) :
    (locking.mbfRegRelease context).lockedBy = none := if_pos h

theorem mbfRegRelease_other (h : locking.lockedBy ≠ some context) :
    (locking.mbfRegRelease context).lockedBy = locking.lockedBy := if_neg h

/-- A lock request leaves the count; what it leaves locked was locked before, or is locked by the
caller, who then is the only user. -/
theorem lockRegister_cases (context : ℕ) (locking : RegisterLocking) :
    (locking.lockRegister context).2 = locking ∨
      locking.referenceCount ≤ 1 ∧ locking.lockedBy = none ∧
        (locking.lockRegister context) = (.ok (), ⟨locking.referenceCount, some context⟩) := by
  unfold lockRegister
  by_cases hbusy : 1 < locking.referenceCount
  · rw [if_pos hbusy]
    exact .inl rfl
  · rw [if_neg hbusy]
    cases hlocked : locking.lockedBy with
    | some holder =>
        exact .inl rfl
    | none =>
        exact .inr ⟨Nat.le_of_not_lt hbusy, rfl, rfl⟩

theorem unlockRegister_cases (context : ℕ) (locking : RegisterLocking) :
    (locking.unlockRegister context).2 = locking ∨
      locking.lockedBy = some context ∧
        locking.unlockRegister context = (.ok (), ⟨locking.referenceCount, none⟩) := by
  unfold unlockRegister
  by_cases hown : locking.lockedBy = some context
  · rw [if_pos hown]
    exact .inr ⟨hown, rfl⟩
  · rw [if_neg hown]
    exact .inl rfl

end RegisterLocking

end Mbf.Device
