import Mbf.Device.Board
import Mbf.Lib.Tally

/-! # What a step of a board can do

A step is one of three kinds: a step of the probe or the removal (`OwnerStep`), which leaves the
files alone; an open call entering, which adds a file; or a step of the calls on one file
(`FileStep`), which leaves every other file and the owner alone. -/

namespace Mbf.Device

/-- The file whose calls an input is a step of. -/
def Input.file : Input → Option ℕ
  | .proceed i _ => some i
  | .lock i => some i
  | .unlock i => some i
  | .operate i => some i
  | .release i => some i
  | _ => none

namespace Board

@[simp] theorem setStage_files (i : ℕ) (f : File) (stage : Stage) (s : Board) :
    (s.setStage i f stage).files = s.files.set i { f with stage := stage } := rfl
@[simp] theorem setStage_owner (i : ℕ) (f : File) (stage : Stage) (s : Board) :
    (s.setStage i f stage).owner = s.owner := rfl
@[simp] theorem setStage_refcount (i : ℕ) (f : File) (stage : Stage) (s : Board) :
    (s.setStage i f stage).refcount = s.refcount := rfl
@[simp] theorem setStage_completion (i : ℕ) (f : File) (stage : Stage) (s : Board) :
    (s.setStage i f stage).completion = s.completion := rfl
@[simp] theorem setStage_locking (i : ℕ) (f : File) (stage : Stage) (s : Board) :
    (s.setStage i f stage).locking = s.locking := rfl
@[simp] theorem setStage_taken (i : ℕ) (f : File) (stage : Stage) (s : Board) :
    (s.setStage i f stage).taken = s.taken := rfl
@[simp] theorem setStage_freed (i : ℕ) (f : File) (stage : Stage) (s : Board) :
    (s.setStage i f stage).freed = s.freed := rfl

end Board

/-! ### The calls on one file -/

/-- What a step of the calls on file `i`, which is `f`, leads to. -/
inductive FileStep (s : Board) (i : ℕ) (f : File) : Input → Board → Prop
  | dead {k} (hf : f.stage = .entered) (hzero : s.refcount = 0) :
      FileStep s i f (.proceed i k) (s.setStage i f (.failed .enxio))
  | count {k} (hf : f.stage = .entered) (hpos : s.refcount ≠ 0) :
      FileStep s i f (.proceed i k) { s.setStage i f .counted with refcount := s.refcount + 1 }
  | noContext (hf : f.stage = .counted) :
      FileStep s i f (.proceed i none) (s.setStage i f (.failing .enomem))
  | context (c : ℕ) (hf : f.stage = .counted) (hfresh : s.isFresh c) (hminor : f.minor = .reg) :
      FileStep s i f (.proceed i (some c)) (s.setStage i f (.allocated c))
  | openDma (c : ℕ) (hf : f.stage = .counted) (hfresh : s.isFresh c) (hminor : f.minor ≠ .reg) :
      FileStep s i f (.proceed i (some c)) (s.setStage i f (.opened c))
  | busy {k} (c holder : ℕ) (hf : f.stage = .allocated c) (hheld : s.locking.lockedBy = some holder) :
      FileStep s i f (.proceed i k) (s.setStage i f (.failing .ebusy))
  | openReg {k} (c : ℕ) (hf : f.stage = .allocated c) (hfree : s.locking.lockedBy = none) :
      FileStep s i f (.proceed i k) { s.setStage i f (.opened c) with
        locking := ⟨s.locking.referenceCount + 1, none⟩ }
  | abandon {k} (rc : Errno) (hf : f.stage = .failing rc) :
      FileStep s i f (.proceed i k) (s.amc525MbfRelease.setStage i f (.failed rc))
  | finish {k} (hf : f.stage = .releasing) :
      FileStep s i f (.proceed i k) (s.amc525MbfRelease.setStage i f .released)
  | lock (c : ℕ) (hf : f = ⟨.reg, .opened c⟩) :
      FileStep s i f (.lock i) { s with locking := (s.locking.lockRegister c).2 }
  | unlock (c : ℕ) (hf : f = ⟨.reg, .opened c⟩) :
      FileStep s i f (.unlock i) { s with locking := (s.locking.unlockRegister c).2 }
  | operate (c : ℕ) (hf : f.stage = .opened c) : FileStep s i f (.operate i) s
  | releaseReg (c : ℕ) (hf : f = ⟨.reg, .opened c⟩) :
      FileStep s i f (.release i) { s.setStage i f .releasing with
        locking := s.locking.mbfRegRelease c }
  | releaseDma (c : ℕ) (hf : f.stage = .opened c) (hminor : f.minor ≠ .reg) :
      FileStep s i f (.release i) (s.setStage i f .releasing)

/-- The other files are left alone. -/
theorem FileStep.other {s s' : Board} {i j : ℕ} {f : File} {a : Input} (h : FileStep s i f a s')
    (hj : j ≠ i) : s'.files[j]? = s.files[j]? := by
  cases h with
  | lock | unlock | operate => rfl
  | _ => exact List.getElem?_set_ne (Ne.symm hj)

theorem FileStep.frame {s s' : Board} {i : ℕ} {f : File} {a : Input} (h : FileStep s i f a s') :
    s'.owner = s.owner ∧ s'.taken = s.taken ∧ s'.freed = s.freed := by
  cases h <;> exact ⟨rfl, rfl, rfl⟩

theorem proceed_cases {s s' : Board} {i : ℕ} {k : Option ℕ} (h : proceed i k s = some s') :
    ∃ f, s.files[i]? = some f ∧ FileStep s i f (.proceed i k) s' := by
  unfold proceed at h
  cases hfile : s.files[i]? with
  | none => rw [hfile] at h; cases h
  | some f =>
      rw [hfile] at h
      refine ⟨f, rfl, ?_⟩
      obtain ⟨minor, stage⟩ := f
      cases stage with
      | entered =>
          dsimp only at h
          split at h
          · obtain rfl := Option.some.inj h
            exact .dead rfl ‹_›
          · obtain rfl := Option.some.inj h
            exact .count rfl ‹_›
      | counted =>
          dsimp only at h
          cases k with
          | none =>
              obtain rfl := Option.some.inj h
              exact .noContext rfl
          | some c =>
              dsimp only at h
              split at h
              · rename_i hfresh
                cases minor with
                | reg =>
                    obtain rfl := Option.some.inj h
                    exact .context c rfl hfresh rfl
                | ddr0 =>
                    obtain rfl := Option.some.inj h
                    exact .openDma c rfl hfresh (by decide)
                | ddr1 =>
                    obtain rfl := Option.some.inj h
                    exact .openDma c rfl hfresh (by decide)
              · cases h
      | allocated c =>
          dsimp only at h
          cases hheld : s.locking.lockedBy with
          | some holder =>
              rw [RegisterLocking.mbfRegOpen_locked hheld] at h
              obtain rfl := Option.some.inj h
              exact .busy c holder rfl hheld
          | none =>
              rw [RegisterLocking.mbfRegOpen_free hheld] at h
              obtain rfl := Option.some.inj h
              exact .openReg c rfl hheld
      | failing rc =>
          obtain rfl := Option.some.inj h
          exact .abandon rc rfl
      | releasing =>
          obtain rfl := Option.some.inj h
          exact .finish rfl
      | failed rc => cases h
      | opened c => cases h
      | released => cases h

theorem handle_eq {s : Board} {i : ℕ} {r : File × ℕ} (h : handle i s = some r) :
    s.files[i]? = some r.1 ∧ r.1.stage = .opened r.2 := by
  unfold handle at h
  split at h
  · rename_i minor c hfile
    obtain rfl := Option.some.inj h
    exact ⟨hfile, rfl⟩
  · cases h

theorem handle_of_open {s : Board} {i c : ℕ} {minor : Minor}
    (h : s.files[i]? = some ⟨minor, .opened c⟩) :
    handle i s = some (⟨minor, .opened c⟩, c) := by
  unfold handle
  rw [h]

/-- The kinds of steps. -/
theorem step_cases {s s' : Board} {a : Input} {o : Except Errno Unit}
    (h : step s a = some (s', o)) :
    (∃ ok, a = .owner ok ∧ ownerStep ok s = some s') ∨
    (∃ minor, a = .enter minor ∧ s.owner = .live ∧
      s' = { s with files := s.files ++ [⟨minor, .entered⟩] }) ∨
    ∃ i f, a.file = some i ∧ s.files[i]? = some f ∧ FileStep s i f a s' := by
  cases a with
  | owner ok =>
      obtain ⟨t, ht, heq⟩ := Option.map_eq_some_iff.mp h
      obtain ⟨rfl, -⟩ := Prod.mk.inj heq
      exact .inl ⟨ok, rfl, ht⟩
  | enter minor =>
      simp only [step] at h
      split at h
      · obtain ⟨rfl, -⟩ := Prod.mk.inj (Option.some.inj h)
        exact .inr (.inl ⟨minor, rfl, ‹_›, rfl⟩)
      · cases h
  | proceed i k =>
      obtain ⟨t, ht, heq⟩ := Option.map_eq_some_iff.mp h
      obtain ⟨rfl, -⟩ := Prod.mk.inj heq
      obtain ⟨f, hf, hstep⟩ := proceed_cases ht
      exact .inr (.inr ⟨i, f, rfl, hf, hstep⟩)
  | lock i =>
      simp only [step] at h
      split at h
      · rename_i stage c hhandle
        obtain ⟨rfl, -⟩ := Prod.mk.inj (Option.some.inj h)
        obtain ⟨hfile, hopen⟩ := handle_eq hhandle
        exact .inr (.inr ⟨i, _, rfl, hfile, .lock c (congrArg (File.mk .reg) hopen)⟩)
      · cases h
  | unlock i =>
      simp only [step] at h
      split at h
      · rename_i stage c hhandle
        obtain ⟨rfl, -⟩ := Prod.mk.inj (Option.some.inj h)
        obtain ⟨hfile, hopen⟩ := handle_eq hhandle
        exact .inr (.inr ⟨i, _, rfl, hfile, .unlock c (congrArg (File.mk .reg) hopen)⟩)
      · cases h
  | operate i =>
      obtain ⟨⟨f, c⟩, hhandle, heq⟩ := Option.map_eq_some_iff.mp h
      obtain ⟨rfl, -⟩ := Prod.mk.inj heq
      obtain ⟨hfile, hopen⟩ := handle_eq hhandle
      exact .inr (.inr ⟨i, f, rfl, hfile, .operate c hopen⟩)
  | release i =>
      simp only [step] at h
      split at h
      · rename_i f c hhandle
        obtain ⟨rfl, -⟩ := Prod.mk.inj (Option.some.inj h)
        obtain ⟨hfile, hopen⟩ := handle_eq hhandle
        obtain ⟨minor, stage⟩ := f
        obtain rfl : stage = .opened c := hopen
        refine .inr (.inr ⟨i, _, rfl, hfile, ?_⟩)
        cases minor with
        | reg => exact .releaseReg c rfl
        | ddr0 => exact .releaseDma c rfl (show Minor.ddr0 ≠ .reg by decide)
        | ddr1 => exact .releaseDma c rfl (show Minor.ddr1 ≠ .reg by decide)
      · cases h

/-! ### Probe and removal -/

namespace Owner

/-- The probe is taking what the board needs. -/
def isProbing : Owner → Bool
  | .probing | .numbered | .allocated | .enabled => true
  | _ => false

/-- The nodes do not exist and never did. -/
def isHidden : Owner → Bool
  | .probing | .numbered | .allocated | .enabled | .initialised => true
  | .noCdev | .noInitialise | .noEnable | .noMemory | .noBoard => true
  | _ => false

/-- The owner's own part of the reference count. -/
def own : Owner → ℤ
  | .allocated | .enabled | .initialised | .live | .unlinked => 1
  | .noCdev | .noInitialise | .noEnable => 1
  | _ => 0

/-- The removal has waited for the clients. -/
def isGone : Owner → Bool
  | .idle | .terminated | .disabled | .unnumbered | .removed => true
  | _ => false

/-- Whether the resource is the owner's. -/
def holds : Owner → Resource → ℕ
  | .numbered, .number => 1
  | .noMemory, .number => 1
  | .allocated, .number | .allocated, .memory => 1
  | .noEnable, .number | .noEnable, .memory => 1
  | .enabled, .number | .enabled, .memory | .enabled, .device => 1
  | .noInitialise, .number | .noInitialise, .memory | .noInitialise, .device => 1
  | .initialised, _ => 1
  | .noCdev, _ => 1
  | .live, _ => 1
  | .unlinked, _ => 1
  | .waiting, _ => 1
  | .idle, _ => 1
  | .terminated, .number | .terminated, .memory | .terminated, .device => 1
  | .disabled, .number | .disabled, .memory => 1
  | .unnumbered, .memory => 1
  | _, _ => 0

/-- While the object exists it has the owner's count, or the removal has given it up. -/
theorem holds_memory {o : Owner} (h : o.holds .memory = 1) :
    o.own = 1 ∨ o.own = 0 ∧ (o = .waiting ∨ o.isGone) := by
  cases o with
  | allocated | enabled | initialised | live | unlinked => exact .inl rfl
  | noCdev | noInitialise | noEnable => exact .inl rfl
  | waiting => exact .inr ⟨rfl, .inl rfl⟩
  | idle | terminated | disabled | unnumbered | removed => exact .inr ⟨rfl, .inr rfl⟩
  | probing | numbered | noMemory | noBoard => cases h

/-- The object is the last thing that the removal frees. -/
theorem gone_memory {o : Owner} (hgone : o.isGone) (h : o.holds .memory = 0) : o = .removed := by
  cases o with
  | removed => rfl
  | idle | terminated | disabled | unnumbered => cases h
  | _ => cases hgone

theorem holds_zero {o : Owner} {r : Resource} (h : o.holds r = 0) : o.isHidden ∨ o.isGone := by
  cases o with
  | probing | numbered | allocated | enabled | initialised => exact .inl rfl
  | noCdev | noInitialise | noEnable | noMemory | noBoard => exact .inl rfl
  | live | unlinked | waiting => cases h
  | idle | terminated | disabled | unnumbered | removed => exact .inr rfl

end Owner

/-- A step of the owner leaves the files alone. -/
theorem ownerStep_files {s s' : Board} {ok : Bool} (h : ownerStep ok s = some s') :
    s'.files = s.files := by
  unfold ownerStep at h
  split at h
  case h_13 => split at h <;> cases h; rfl
  all_goals first
    | cases h; done
    | cases ok <;> (obtain rfl := Option.some.inj h; rfl)

/-- It leaves the locking alone but for the initialisation of the object. -/
theorem ownerStep_locking {s s' : Board} {ok : Bool} (h : ownerStep ok s = some s') :
    s'.locking = s.locking ∨ s.owner = .numbered ∧ s'.locking = .unlocked := by
  unfold ownerStep at h
  split at h
  case h_2 =>
    cases ok with
    | false => obtain rfl := Option.some.inj h; exact .inl rfl
    | true => obtain rfl := Option.some.inj h; exact .inr ⟨‹_›, rfl⟩
  case h_13 => split at h <;> cases h; exact .inl rfl
  all_goals first
    | cases h; done
    | cases ok <;> (obtain rfl := Option.some.inj h; exact .inl rfl)

/-- Once the nodes have existed the owner does not come back. -/
theorem ownerStep_hidden {s s' : Board} {ok : Bool} (h : ownerStep ok s = some s')
    (hhidden : s'.owner.isHidden) : s.owner.isHidden := by
  cases howner : s.owner with
  | probing | numbered | allocated | enabled | initialised => rfl
  | noCdev | noInitialise | noEnable | noMemory | noBoard => rfl
  | live | unlinked | idle | terminated | disabled | unnumbered =>
      unfold ownerStep at h
      rw [howner] at h
      obtain rfl := Option.some.inj h
      cases hhidden
  | waiting =>
      unfold ownerStep at h
      rw [howner] at h
      dsimp only at h
      split at h
      · obtain rfl := Option.some.inj h
        cases hhidden
      · cases h
  | removed =>
      unfold ownerStep at h
      rw [howner] at h
      cases h

/-- The nodes begin to exist when all the resources are held. -/
theorem ownerStep_shown {s s' : Board} {ok : Bool} (h : ownerStep ok s = some s')
    (hhidden : s.owner.isHidden) : s'.owner.isHidden ∨ s'.owner = .live := by
  unfold ownerStep at h
  cases howner : s.owner with
  | probing | numbered | allocated | enabled =>
      rw [howner] at h
      cases ok <;> obtain rfl := Option.some.inj h <;> exact .inl rfl
  | initialised =>
      rw [howner] at h
      obtain rfl := Option.some.inj h
      cases ok with
      | false => exact .inl rfl
      | true => exact .inr rfl
  | noCdev | noInitialise | noEnable | noMemory =>
      rw [howner] at h
      obtain rfl := Option.some.inj h
      exact .inl rfl
  | noBoard =>
      rw [howner] at h
      cases h
  | live | unlinked | waiting | idle | terminated | disabled | unnumbered | removed =>
      rw [howner] at hhidden
      cases hhidden

theorem ownerStep_removed {s s' : Board} {ok : Bool} (h : ownerStep ok s = some s')
    (hremoved : s'.owner = .removed) : s.owner = .unnumbered := by
  unfold ownerStep at h
  cases howner : s.owner with
  | unnumbered => rfl
  | probing | numbered | allocated | enabled | initialised =>
      rw [howner] at h
      cases ok <;> obtain rfl := Option.some.inj h <;> cases hremoved
  | noCdev | noInitialise | noEnable | noMemory | live | unlinked | idle | terminated | disabled =>
      rw [howner] at h
      obtain rfl := Option.some.inj h
      cases hremoved
  | waiting =>
      rw [howner] at h
      dsimp only at h
      split at h
      · obtain rfl := Option.some.inj h
        cases hremoved
      · cases h
  | noBoard | removed =>
      rw [howner] at h
      cases h

/-- What a step of the owner does to the count: it begins with one, gives its own part back, goes on
when the wait is completed, or leaves the count alone. -/
theorem ownerStep_count {s s' : Board} {ok : Bool} (h : ownerStep ok s = some s') :
    (s.owner = .numbered ∧ s'.owner = .allocated ∧ s'.refcount = 1 ∧ s'.completion = 0) ∨
    (s.owner = .unlinked ∧ s'.owner = .waiting ∧ s'.refcount = s.amc525MbfRelease.refcount ∧
      s'.completion = s.amc525MbfRelease.completion) ∨
    (s.owner = .waiting ∧ 0 < s.completion ∧ s'.owner = .idle ∧ s'.refcount = s.refcount ∧
      s'.completion = s.completion - 1) ∨
    (s'.refcount = s.refcount ∧ s'.completion = s.completion ∧ s'.owner ≠ .waiting ∧
      (s'.owner.own = 1 → s.owner.own = 1) ∧ (s'.owner.isGone → s.owner.isGone)) := by
  unfold ownerStep at h
  cases howner : s.owner with
  | numbered =>
      rw [howner] at h
      cases ok with
      | false =>
          obtain rfl := Option.some.inj h
          exact .inr (.inr (.inr ⟨rfl, rfl, nofun, nofun, nofun⟩))
      | true =>
          obtain rfl := Option.some.inj h
          exact .inl ⟨rfl, rfl, rfl, rfl⟩
  | unlinked =>
      rw [howner] at h
      obtain rfl := Option.some.inj h
      exact .inr (.inl ⟨rfl, rfl, rfl, rfl⟩)
  | waiting =>
      rw [howner] at h
      dsimp only at h
      split at h
      · obtain rfl := Option.some.inj h
        exact .inr (.inr (.inl ⟨rfl, ‹_›, rfl, rfl, rfl⟩))
      · cases h
  | probing =>
      rw [howner] at h
      cases ok <;> obtain rfl := Option.some.inj h <;>
        exact .inr (.inr (.inr ⟨rfl, rfl, nofun, id, nofun⟩))
  | allocated | enabled | initialised =>
      rw [howner] at h
      cases ok <;> obtain rfl := Option.some.inj h <;>
        exact .inr (.inr (.inr ⟨rfl, rfl, nofun, fun _ => rfl, nofun⟩))
  | noCdev | noInitialise | noEnable | live =>
      rw [howner] at h
      obtain rfl := Option.some.inj h
      exact .inr (.inr (.inr ⟨rfl, rfl, nofun, fun _ => rfl, nofun⟩))
  | noMemory =>
      rw [howner] at h
      obtain rfl := Option.some.inj h
      exact .inr (.inr (.inr ⟨rfl, rfl, nofun, id, nofun⟩))
  | idle | terminated | disabled | unnumbered =>
      rw [howner] at h
      obtain rfl := Option.some.inj h
      exact .inr (.inr (.inr ⟨rfl, rfl, nofun, nofun, fun _ => rfl⟩))
  | noBoard | removed =>
      rw [howner] at h
      cases h

/-- What a step of the owner does to the resources: it takes one, which it did not have, frees
one, which it has, or neither. -/
theorem ownerStep_resources {s s' : Board} {ok : Bool} (h : ownerStep ok s = some s') :
    (∃ r, s.owner.isProbing ∧ s.owner.holds r = 0 ∧
      s'.taken = Function.update s.taken r (s.taken r + 1) ∧ s'.freed = s.freed ∧
      s'.owner.holds = Function.update s.owner.holds r 1) ∨
    (∃ r, s'.owner.isProbing = false ∧ s.owner.holds r = 1 ∧
      s'.freed = Function.update s.freed r (s.freed r + 1) ∧ s'.taken = s.taken ∧
      s'.owner.holds = Function.update s.owner.holds r 0) ∨
    s'.owner.isProbing = false ∧ s'.taken = s.taken ∧ s'.freed = s.freed ∧
      s'.owner.holds = s.owner.holds := by
  unfold ownerStep at h
  cases howner : s.owner with
  | probing | allocated | enabled =>
      rw [howner] at h
      cases ok with
      | false =>
          obtain rfl := Option.some.inj h
          exact .inr (.inr ⟨rfl, rfl, rfl, by funext r; cases r <;> rfl⟩)
      | true =>
          obtain rfl := Option.some.inj h
          exact .inl ⟨_, rfl, rfl, rfl, rfl, by funext r; cases r <;> rfl⟩
  | numbered =>
      rw [howner] at h
      cases ok with
      | false =>
          obtain rfl := Option.some.inj h
          exact .inr (.inr ⟨rfl, rfl, rfl, by funext r; cases r <;> rfl⟩)
      | true =>
          obtain rfl := Option.some.inj h
          exact .inl ⟨.memory, rfl, rfl, rfl, rfl, by funext r; cases r <;> rfl⟩
  | initialised =>
      rw [howner] at h
      obtain rfl := Option.some.inj h
      cases ok <;> exact .inr (.inr ⟨rfl, rfl, rfl, by funext r; cases r <;> rfl⟩)
  | noCdev | noInitialise | noEnable | noMemory | idle | terminated | disabled | unnumbered =>
      rw [howner] at h
      obtain rfl := Option.some.inj h
      exact .inr (.inl ⟨_, rfl, rfl, rfl, rfl, by funext r; cases r <;> rfl⟩)
  | live | unlinked =>
      rw [howner] at h
      obtain rfl := Option.some.inj h
      exact .inr (.inr ⟨rfl, rfl, rfl, by funext r; cases r <;> rfl⟩)
  | waiting =>
      rw [howner] at h
      dsimp only at h
      split at h
      · obtain rfl := Option.some.inj h
        exact .inr (.inr ⟨rfl, rfl, rfl, by funext r; cases r <;> rfl⟩)
      · cases h
  | noBoard | removed =>
      rw [howner] at h
      cases h

end Mbf.Device
