import Mbf.Device.Steps

/-! # The exclusive lock of the register device

The lock is granted only to the only user, and while it is held no open call succeeds, so that
its holder stays the only user (`Locked`).  Each section under the mutex is one step, and the
contexts of the open files are distinct, so that `locked_by` names one handle. -/

namespace Mbf.Device

open Runs

/-- File `i` is an open handle on the register device with this context. -/
def Board.RegisterHandle (s : Board) (i context : ℕ) : Prop :=
  s.files[i]? = some ⟨.reg, .opened context⟩

/-- The number of open handles on the register device. -/
def Board.registerHandles (s : Board) : ℕ := s.files.countP File.isRegister

/-! ### Contexts -/

/-- No two files have one context. -/
def Distinct (files : List File) : Prop :=
  ∀ (i j : ℕ) (f g : File) (c : ℕ), files[i]? = some f → files[j]? = some g →
    f.stage.context = some c → g.stage.context = some c → i = j

namespace Distinct

variable {files : List File} {i : ℕ} {f : File} {stage : Stage}

/-- A step that gives the file no context it did not have. -/
theorem keep (h : Distinct files) (hf : files[i]? = some f)
    (hstage : stage.context = none ∨ stage.context = f.stage.context) :
    Distinct (files.set i { f with stage := stage }) := by
  intro j k g g' c hg hg' hc hc'
  have hold : ∀ {j : ℕ} {g : File}, (files.set i { f with stage := stage })[j]? = some g →
      g.stage.context = some c → ∃ g₀, files[j]? = some g₀ ∧ g₀.stage.context = some c := by
    intro j g hg hc
    rcases Tally.set_cases hg with ⟨rfl, rfl⟩ | ⟨-, hg⟩
    · rcases hstage with hnone | hsame
      · rw [hnone] at hc
        cases hc
      · exact ⟨f, hf, hsame ▸ hc⟩
    · exact ⟨g, hg, hc⟩
  obtain ⟨g₀, hg₀, hc₀⟩ := hold hg hc
  obtain ⟨g₁, hg₁, hc₁⟩ := hold hg' hc'
  exact h j k g₀ g₁ c hg₀ hg₁ hc₀ hc₁

/-- What `kmalloc` returns belongs to no other file. -/
theorem fresh {s : Board} {c : ℕ} (h : Distinct s.files) (hfresh : s.isFresh c)
    (hstage : stage.context = some c) :
    Distinct (s.files.set i { f with stage := stage }) := by
  have hnot : ∀ {j : ℕ} {g : File}, s.files[j]? = some g → g.stage.context ≠ some c := by
    intro j g hg
    have := List.all_eq_true.mp hfresh g (List.mem_of_getElem? hg)
    simpa using this
  intro j k g g' c' hg hg' hc hc'
  rcases Tally.set_cases hg with ⟨hj, hnew⟩ | ⟨-, hold⟩ <;>
    rcases Tally.set_cases hg' with ⟨hk, hnew'⟩ | ⟨-, hold'⟩
  · exact hj.trans hk.symm
  · rw [hnew] at hc
    obtain rfl : c = c' := Option.some.inj (hstage.symm.trans hc)
    exact absurd hc' (hnot hold')
  · rw [hnew'] at hc'
    obtain rfl : c = c' := Option.some.inj (hstage.symm.trans hc')
    exact absurd hc (hnot hold)
  · exact h j k g g' c' hold hold' hc hc'

theorem add (h : Distinct files) (minor : Minor) : Distinct (files ++ [⟨minor, .entered⟩]) := by
  have hold : ∀ {j c : ℕ} {g : File}, (files ++ [⟨minor, .entered⟩])[j]? = some g →
      g.stage.context = some c → files[j]? = some g := by
    intro j c g hg hc
    rw [List.getElem?_append] at hg
    split at hg
    · exact hg
    · obtain rfl := List.mem_singleton.mp (List.mem_of_getElem? hg)
      cases hc
  intro j k g g' c hg hg' hc hc'
  exact h j k g g' c (hold hg hc) (hold hg' hc') hc hc'

end Distinct

/-! ### The invariant -/

/-- What holds of the locking at any time. -/
structure Locked (s : Board) : Prop where
  distinct : Distinct s.files
  /-- Only files of the register device wait for the mutex. -/
  minor : ∀ f ∈ s.files, ∀ c, f.stage = .allocated c → f.minor = .reg
  count : s.locking.referenceCount = s.registerHandles
  /-- The holder is open, and no one else is. -/
  holder : ∀ c, s.locking.lockedBy = some c → s.registerHandles ≤ 1 ∧ ∃ i, s.RegisterHandle i c
  /-- There are no files before the nodes exist. -/
  hidden : s.owner.isHidden → s.files = []

namespace Locked

variable {s s' : Board} {i : ℕ} {f : File} {stage : Stage}

/-- The parts of the invariant that a step at one file keeps whatever it does to the locking. -/
theorem advance (h : Locked s) (hf : s.files[i]? = some f) (howner : s'.owner = s.owner)
    (hfiles : s'.files = s.files.set i { f with stage := stage }) (hdistinct : Distinct s'.files)
    (hminor : ∀ c, stage = .allocated c → f.minor = .reg)
    (hcount : s'.locking.referenceCount = s'.registerHandles)
    (hholder : ∀ c, s'.locking.lockedBy = some c →
      s'.registerHandles ≤ 1 ∧ ∃ i, s'.RegisterHandle i c) : Locked s' := by
  refine ⟨hdistinct, ?_, hcount, hholder, ?_⟩
  · intro g hg c hc
    rw [hfiles] at hg
    rcases List.mem_or_eq_of_mem_set hg with hg | rfl
    · exact h.minor g hg c hc
    · exact hminor c hc
  · intro hhidden
    rw [h.hidden (howner ▸ hhidden)] at hf
    cases hf

/-- A step at a file that is no handle, and does not become one, under the same locking. -/
theorem still (h : Locked s) (hf : s.files[i]? = some f) (howner : s'.owner = s.owner)
    (hlocking : s'.locking = s.locking)
    (hfiles : s'.files = s.files.set i { f with stage := stage }) (hdistinct : Distinct s'.files)
    (hminor : ∀ c, stage = .allocated c → f.minor = .reg) (hno : f.isRegister = false)
    (hno' : File.isRegister { f with stage := stage } = false) : Locked s' := by
  have hcount : s'.registerHandles = s.registerHandles := by
    unfold Board.registerHandles
    rw [hfiles]
    exact Tally.keep hf (hno'.trans hno.symm)
  refine h.advance hf howner hfiles hdistinct hminor (by rw [hlocking, hcount]; exact h.count) ?_
  intro c hheld
  rw [hlocking] at hheld
  obtain ⟨hle, j, hj⟩ := h.holder c hheld
  refine ⟨hcount ▸ hle, j, ?_⟩
  have hne : i ≠ j := by
    rintro rfl
    obtain rfl : f = _ := Option.some.inj (hf.symm.trans hj)
    cases hno
  show s'.files[j]? = _
  rw [hfiles, List.getElem?_set_ne hne]
  exact hj

/-- A section under the mutex that counts no one in or out. -/
theorem relock (h : Locked s) (locking : RegisterLocking)
    (hcount : locking.referenceCount = s.locking.referenceCount)
    (hholder : ∀ c, locking.lockedBy = some c →
      s.registerHandles ≤ 1 ∧ ∃ i, s.RegisterHandle i c) :
    Locked { s with locking := locking } :=
  ⟨h.distinct, h.minor, hcount.trans h.count, hholder, h.hidden⟩

/-- The section of an open call counts its file in where no lock is held. -/
theorem openReg {c : ℕ} (h : Locked s) (hf : s.files[i]? = some f)
    (hstage : f.stage = .allocated c) :
    Locked { s.setStage i f (.opened c) with
      locking := ⟨s.locking.referenceCount + 1, none⟩ } := by
  have hreg := h.minor f (List.mem_of_getElem? hf) c hstage
  obtain ⟨minor, stage⟩ := f
  obtain rfl : minor = .reg := hreg
  obtain rfl : stage = .allocated c := hstage
  have hjoin : s.files.countP File.isRegister + 1 =
      (s.files.set i ⟨.reg, .opened c⟩).countP File.isRegister := (Tally.join hf rfl rfl).symm
  refine h.advance hf rfl rfl (h.distinct.keep hf (.inr rfl)) (fun c' hc' => by cases hc') ?_ ?_
  · show s.locking.referenceCount + 1 = _
    rw [h.count]
    exact hjoin
  · rintro holder ⟨⟩

/-- The section of a release call counts its file out, and unlocks what the file had locked. -/
theorem releaseReg {c : ℕ} (h : Locked s) (hf : s.files[i]? = some ⟨.reg, .opened c⟩) :
    Locked { s.setStage i ⟨.reg, .opened c⟩ .releasing with
      locking := s.locking.mbfRegRelease c } := by
  have hquit : (s.files.set i ⟨.reg, .releasing⟩).countP File.isRegister + 1 =
      s.files.countP File.isRegister := Tally.quit hf rfl rfl
  have hcount := h.count
  unfold Board.registerHandles at hcount
  refine h.advance hf rfl rfl (h.distinct.keep hf (.inl rfl)) (fun c' hc' => by cases hc') ?_ ?_
  · show s.locking.referenceCount - 1 = (s.files.set i ⟨.reg, .releasing⟩).countP File.isRegister
    omega
  · intro holder hheld
    replace hheld : (s.locking.mbfRegRelease c).lockedBy = some holder := hheld
    have hother : s.locking.lockedBy ≠ some c := by
      intro hown
      rw [RegisterLocking.mbfRegRelease_holder hown] at hheld
      cases hheld
    rw [RegisterLocking.mbfRegRelease_other hother] at hheld
    -- another handle cannot hold the lock while this one is open
    obtain ⟨hle, j, hj⟩ := h.holder holder hheld
    have hji : j = i := Tally.only hle hf rfl hj rfl
    subst hji
    obtain rfl : c = holder := by
      have := Option.some.inj (hf.symm.trans hj)
      injection this with _ hopen
      injection hopen
    exact absurd hheld hother

/-- What a step at one file preserves, a case for each step of the calls. -/
theorem fileStep {a : Input} (h : Locked s) (hf : s.files[i]? = some f)
    (hstep : FileStep s i f a s') : Locked s' := by
  cases hstep with
  | dead hstage hzero | count hstage hpos | noContext hstage =>
      obtain ⟨minor, stage⟩ := f
      obtain rfl := hstage
      exact h.still hf rfl rfl rfl (h.distinct.keep hf (.inl rfl)) (fun c hc => by cases hc)
        (by cases minor <;> rfl) (by cases minor <;> rfl)
  | busy c holder hstage hheld | abandon rc hstage | finish hstage =>
      obtain ⟨minor, stage⟩ := f
      obtain rfl := hstage
      exact h.still hf rfl rfl rfl (h.distinct.keep hf (.inl rfl)) (fun c hc => by cases hc)
        (by cases minor <;> rfl) (by cases minor <;> rfl)
  | context c hstage hfresh hminor =>
      obtain ⟨minor, stage⟩ := f
      obtain rfl := hstage
      exact h.still hf rfl rfl rfl (h.distinct.fresh hfresh rfl) (fun _ _ => hminor)
        (by cases minor <;> rfl) (by cases minor <;> rfl)
  | openDma c hstage hfresh hminor =>
      obtain ⟨minor, stage⟩ := f
      obtain rfl := hstage
      refine h.still hf rfl rfl rfl (h.distinct.fresh hfresh rfl) (fun c hc => by cases hc)
        (by cases minor <;> rfl) ?_
      cases minor with
      | reg => exact absurd rfl hminor
      | ddr0 => rfl
      | ddr1 => rfl
  | openReg c hstage hfree => exact h.openReg hf hstage
  | lock c hreg =>
      obtain rfl := hreg
      rcases RegisterLocking.lockRegister_cases c s.locking with hsame | ⟨hle, hfree, hlock⟩
      · rw [hsame]
        exact h
      · rw [hlock]
        refine h.relock _ rfl ?_
        rintro holder ⟨⟩
        exact ⟨h.count ▸ hle, i, hf⟩
  | unlock c hreg =>
      rcases RegisterLocking.unlockRegister_cases c s.locking with hsame | ⟨hown, hunlock⟩
      · rw [hsame]
        exact h
      · rw [hunlock]
        exact h.relock _ rfl (fun holder hheld => by cases hheld)
  | operate c hstage => exact h
  | releaseReg c hreg =>
      obtain rfl := hreg
      exact h.releaseReg hf
  | releaseDma c hstage hminor =>
      obtain ⟨minor, stage⟩ := f
      obtain rfl := hstage
      refine h.still hf rfl rfl rfl (h.distinct.keep hf (.inl rfl)) (fun c hc => by cases hc) ?_
        (by cases minor <;> rfl)
      cases minor with
      | reg => exact absurd rfl hminor
      | ddr0 => rfl
      | ddr1 => rfl

theorem enter (h : Locked s) (minor : Minor) (hlive : s.owner = .live) :
    Locked { s with files := s.files ++ [⟨minor, .entered⟩] } := by
  have hcount : (s.files ++ [File.mk minor .entered]).countP File.isRegister =
      s.files.countP File.isRegister := Tally.add (by cases minor <;> rfl)
  refine ⟨h.distinct.add minor, ?_, h.count.trans hcount.symm, ?_, ?_⟩
  · intro f hf c hc
    rcases List.mem_append.mp hf with hf | hf
    · exact h.minor f hf c hc
    · obtain rfl := List.mem_singleton.mp hf
      cases hc
  · intro c hheld
    obtain ⟨hle, i, hi⟩ := h.holder c hheld
    refine ⟨Nat.le_trans (Nat.le_of_eq hcount) hle, i, ?_⟩
    exact (List.getElem?_append_left (Tally.lt_length hi)).trans hi
  · intro hhidden
    replace hhidden : s.owner.isHidden = true := hhidden
    rw [hlive] at hhidden
    cases hhidden

theorem step {a : Input} {o : Except Errno Unit} (h : Locked s)
    (hstep : step s a = some (s', o)) : Locked s' := by
  rcases step_cases hstep with ⟨ok, -, howner⟩ | ⟨minor, -, hlive, rfl⟩ | ⟨i, f, -, hf, hfile⟩
  · have hfiles := ownerStep_files howner
    have hcount : s'.registerHandles = s.registerHandles :=
      congrArg (List.countP File.isRegister) hfiles
    have hhidden := fun hh => hfiles.trans (h.hidden (ownerStep_hidden howner hh))
    refine ⟨hfiles ▸ h.distinct, hfiles ▸ h.minor, ?_, ?_, hhidden⟩ <;>
      rcases ownerStep_locking howner with hlocking | ⟨hnumbered, hlocking⟩
    · rw [hlocking, hcount]
      exact h.count
    · rw [hlocking, hcount, Board.registerHandles, h.hidden (by rw [hnumbered]; rfl)]
      rfl
    · intro c hheld
      rw [hlocking] at hheld
      obtain ⟨hle, i, hi⟩ := h.holder c hheld
      refine ⟨hcount ▸ hle, i, ?_⟩
      show s'.files[i]? = _
      rw [hfiles]
      exact hi
    · intro c hheld
      rw [hlocking] at hheld
      cases hheld
  · exact h.enter minor hlive
  · exact h.fileStep hf hfile

theorem start : Locked .start where
  distinct i j f g c hf := by cases hf
  minor f hf := by cases hf
  count := rfl
  holder c hc := by cases hc
  hidden _ := rfl

theorem of_reachable (h : Reachable machine.system s) : Locked s :=
  h.invariant (fun s hs => by obtain rfl := hs; exact start) (fun _ _ _ hs ha => hs.step ha)

end Locked

/-! ### The exclusive lock -/

/-- An open call cannot get past the mutex while the lock is held: its file fails, and nothing
else changes. -/
theorem step_busy {s s' : Board} {i c holder : ℕ} {minor : Minor} {k : Option ℕ}
    {o : Except Errno Unit} (hf : s.files[i]? = some ⟨minor, .allocated c⟩)
    (hheld : s.locking.lockedBy = some holder) (h : step s (.proceed i k) = some (s', o)) :
    s' = s.setStage i ⟨minor, .allocated c⟩ (.failing .ebusy) := by
  have hstep : proceed i k s = some (s.setStage i ⟨minor, .allocated c⟩ (.failing .ebusy)) := by
    unfold proceed
    rw [hf]
    dsimp only
    rw [RegisterLocking.mbfRegOpen_locked hheld]
  simp only [step, hstep] at h
  exact (Prod.mk.inj (Option.some.inj h)).1.symm

/-- What remains of an open call that has failed only gives back the board's count. -/
theorem step_failing {s s' : Board} {i : ℕ} {minor : Minor} {rc : Errno} {k : Option ℕ}
    {o : Except Errno Unit} (hf : s.files[i]? = some ⟨minor, .failing rc⟩)
    (h : step s (.proceed i k) = some (s', o)) :
    s' = s.amc525MbfRelease.setStage i ⟨minor, .failing rc⟩ (.failed rc) := by
  simp only [step, proceed, hf] at h
  exact (Prod.mk.inj (Option.some.inj h)).1.symm

theorem step_release {s s' : Board} {i c : ℕ} {o : Except Errno Unit}
    (hi : s.RegisterHandle i c) (h : step s (.release i) = some (s', o)) :
    s'.locking = s.locking.mbfRegRelease c := by
  simp only [step, handle_of_open hi] at h
  exact congrArg Board.locking (Prod.mk.inj (Option.some.inj h)).1.symm

/-- **The exclusive lock.**  At any time the reference count is the number of open handles; the
holder of the lock is an open handle and the only one; an open call that reaches the mutex while
the lock is held fails with `-EBUSY`, changing nothing but what becomes of it, and leaves the
locking alone until it returns; and when the holder is closed the lock is free. -/
theorem register_lock_exclusive {s : Board} (h : Reachable machine.system s) :
    s.locking.referenceCount = s.registerHandles ∧
    (∀ c, s.locking.lockedBy = some c →
      ∃ i, s.RegisterHandle i c ∧ ∀ j c', s.RegisterHandle j c' → j = i ∧ c' = c) ∧
    (∀ i minor c holder k o s', s.files[i]? = some ⟨minor, .allocated c⟩ →
      s.locking.lockedBy = some holder → machine.system.Step s (.proceed i k, o) s' →
      s' = s.setStage i ⟨minor, .allocated c⟩ (.failing .ebusy)) ∧
    (∀ i minor rc k o s', s.files[i]? = some ⟨minor, .failing rc⟩ →
      machine.system.Step s (.proceed i k, o) s' →
      s'.files[i]? = some ⟨minor, .failed rc⟩ ∧ s'.locking = s.locking) ∧
    ∀ i c o s', s.RegisterHandle i c → s.locking.lockedBy = some c →
      machine.system.Step s (.release i, o) s' → s'.locking.lockedBy = none := by
  have hlocked := Locked.of_reachable h
  refine ⟨hlocked.count, ?_, ?_, ?_, ?_⟩
  · intro c hheld
    obtain ⟨hle, i, hi⟩ := hlocked.holder c hheld
    refine ⟨i, hi, fun j c' hj => ?_⟩
    have hji : j = i := Tally.only hle hi rfl hj rfl
    subst hji
    have hsame := Option.some.inj (hj.symm.trans hi)
    injection hsame with _ hopen
    injection hopen with hc
    exact ⟨rfl, hc⟩
  · intro i minor c holder k o s' hf hheld hstep
    exact step_busy hf hheld hstep
  · intro i minor rc k o s' hf hstep
    rw [step_failing hf hstep]
    exact ⟨Tally.set_self hf, rfl⟩
  · intro i c o s' hi hheld hstep
    rw [step_release hi hstep]
    exact RegisterLocking.mbfRegRelease_holder hheld

/-- Two handles are opened, the first is closed and the second locks the device. -/
theorem register_lock_exclusive_second :
    let s := machine.after .start ([true, true, true, true, true].map .owner ++
      [.enter .reg, .proceed 0 none, .enter .reg, .proceed 1 none, .proceed 0 (some 16),
        .proceed 1 (some 32), .proceed 1 none, .proceed 0 none, .release 0, .lock 1])
    s.locking = ⟨1, some 32⟩ ∧ s.registerHandles = 1 := by
  intro s
  have hreach : Reachable machine.system s := machine.reachable_after rfl _
  exact ⟨rfl, (register_lock_exclusive hreach).1.symm⟩

end Mbf.Device
