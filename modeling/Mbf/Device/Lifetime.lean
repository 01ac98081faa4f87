import Mbf.Device.Steps
import Mathlib.Tactic.Ring

/-! # The lifetime of a board

The reference count is one for each file that an open call has counted and no release has given
back, and one for the owner until the removal gives it up (`Counted`).  So the last of them, in
whichever order, completes the wait of the removal, and only what comes after the wait frees
anything (`Held`).

The count is part of what the removal frees.  An open call that has found its node but not yet
counted its file holds nothing, so the board may be freed under it: the condition on the runs is
that the removal does not free the object over such a call (`Settled`). -/

namespace Mbf.Device

open Runs

/-- The file has a part in the reference count. -/
def File.isUser (f : File) : Bool := f.isOpening || f.isOpen

namespace Board

/-- The number of handles that were opened and are not yet released. -/
def opened (s : Board) : ℕ := s.files.countP File.isOpen

/-- The number of open calls that have counted their file and not yet returned. -/
def opening (s : Board) : ℕ := s.files.countP File.isOpening

def users (s : Board) : ℕ := s.files.countP File.isUser

theorem users_eq (s : Board) : s.users = s.opened + s.opening := by
  unfold users opened opening
  induction s.files with
  | nil => rfl
  | cons f l ih =>
      rw [List.countP_cons, List.countP_cons, List.countP_cons, ih]
      obtain ⟨minor, stage⟩ := f
      cases stage <;> simp only [File.isUser, File.isOpening, File.isOpen] <;> simp <;> omega

end Board

/-! ### Counting -/

/-- What a step of the calls on a file does to the count: nothing, or it counts the file in, or it
gives its part back. -/
theorem FileStep.counts {s s' : Board} {i : ℕ} {f : File} {a : Input}
    (hf : s.files[i]? = some f) (h : FileStep s i f a s') :
    (s'.users = s.users ∧ s'.refcount = s.refcount ∧ s'.completion = s.completion) ∨
    (s'.users = s.users + 1 ∧ s.refcount ≠ 0 ∧ s'.refcount = s.refcount + 1 ∧
      s'.completion = s.completion) ∨
    (s'.users + 1 = s.users ∧ s'.refcount = s.amc525MbfRelease.refcount ∧
      s'.completion = s.amc525MbfRelease.completion) := by
  obtain ⟨minor, stage⟩ := f
  cases h with
  | dead hstage hzero | noContext hstage =>
      obtain rfl := hstage
      exact .inl ⟨Tally.keep hf rfl, rfl, rfl⟩
  | context c hstage hfresh hminor | openDma c hstage hfresh hminor =>
      obtain rfl := hstage
      exact .inl ⟨Tally.keep hf rfl, rfl, rfl⟩
  | busy c holder hstage hheld =>
      obtain rfl := hstage
      exact .inl ⟨Tally.keep hf rfl, rfl, rfl⟩
  | openReg c hstage hfree =>
      obtain rfl := hstage
      exact .inl ⟨Tally.keep hf rfl, rfl, rfl⟩
  | lock c hreg | unlock c hreg => exact .inl ⟨rfl, rfl, rfl⟩
  | operate c hstage => exact .inl ⟨rfl, rfl, rfl⟩
  | releaseReg c hreg =>
      obtain ⟨rfl, rfl⟩ := File.mk.inj hreg
      exact .inl ⟨Tally.keep hf rfl, rfl, rfl⟩
  | releaseDma c hstage hminor =>
      obtain rfl := hstage
      exact .inl ⟨Tally.keep hf rfl, rfl, rfl⟩
  | count hstage hpos =>
      obtain rfl := hstage
      exact .inr (.inl ⟨Tally.join hf rfl rfl, hpos, rfl, rfl⟩)
  | abandon rc hstage =>
      obtain rfl := hstage
      exact .inr (.inr ⟨Tally.quit hf rfl rfl, rfl, rfl⟩)
  | finish hstage =>
      obtain rfl := hstage
      exact .inr (.inr ⟨Tally.quit hf rfl rfl, rfl, rfl⟩)

/-- The reference count at each stage of the board's life. -/
structure Counted (s : Board) : Prop where
  hidden : s.owner.isHidden → s.files = []
  own : s.owner.own = 1 → s.refcount = s.users + 1 ∧ s.completion = 0
  waiting : s.owner = .waiting →
    s.refcount = s.users ∧ s.completion = if s.users = 0 then 1 else 0
  gone : s.owner.isGone → s.refcount = 0 ∧ s.users = 0

namespace Counted

variable {s s' : Board}

theorem fileStep {i : ℕ} {f : File} {a : Input} (h : Counted s) (hf : s.files[i]? = some f)
    (hstep : FileStep s i f a s') : Counted s' := by
  obtain ⟨howner, -, -⟩ := hstep.frame
  have hcounts := hstep.counts hf
  simp only [Board.amc525MbfRelease] at hcounts
  refine ⟨?_, ?_, ?_, ?_⟩ <;> rw [howner]
  · intro hhidden
    rw [h.hidden hhidden] at hf
    cases hf
  · intro hown
    obtain ⟨hcount, hcompletion⟩ := h.own hown
    rcases hcounts with ⟨hu, hr, hc⟩ | ⟨hu, -, hr, hc⟩ | ⟨hu, hr, hc⟩
    · exact ⟨by omega, hc.trans hcompletion⟩
    · exact ⟨by omega, hc.trans hcompletion⟩
    · refine ⟨by omega, ?_⟩
      rw [hc, if_neg (by omega)]
      exact hcompletion
  · intro hwaiting
    obtain ⟨hcount, hcompletion⟩ := h.waiting hwaiting
    rcases hcounts with ⟨hu, hr, hc⟩ | ⟨hu, hpos, hr, hc⟩ | ⟨hu, hr, hc⟩
    · exact ⟨by omega, by rw [hc, hu]; exact hcompletion⟩
    · refine ⟨by omega, ?_⟩
      rw [hc, hcompletion, if_neg (by omega), if_neg (by omega)]
    · refine ⟨by omega, ?_⟩
      rw [hc, hcompletion, if_neg (by omega : ¬ s.users = 0)]
      by_cases hlast : s'.users = 0
      · rw [if_pos (by omega), if_pos hlast]
      · rw [if_neg (by omega), if_neg hlast]
  · intro hgone
    obtain ⟨hcount, husers⟩ := h.gone hgone
    rcases hcounts with ⟨hu, hr, hc⟩ | ⟨hu, hpos, -, -⟩ | ⟨hu, -, -⟩
    · exact ⟨hr.trans hcount, hu.trans husers⟩
    · exact absurd hcount hpos
    · omega

theorem enter (h : Counted s) (minor : Minor) (hlive : s.owner = .live) :
    Counted { s with files := s.files ++ [⟨minor, .entered⟩] } := by
  have husers : (s.files ++ [File.mk minor .entered]).countP File.isUser =
      s.files.countP File.isUser := Tally.add rfl
  obtain ⟨hcount, hcompletion⟩ := h.own (by rw [hlive]; rfl)
  constructor
  · intro hhidden
    replace hhidden : s.owner.isHidden = true := hhidden
    rw [hlive] at hhidden
    cases hhidden
  · intro _
    refine ⟨?_, hcompletion⟩
    show s.refcount = ((s.files ++ [File.mk minor .entered]).countP File.isUser : ℕ) + 1
    rw [husers]
    exact hcount
  · intro hwaiting
    cases hlive.symm.trans hwaiting
  · intro hgone
    replace hgone : s.owner.isGone = true := hgone
    rw [hlive] at hgone
    cases hgone

theorem ownerStep {ok : Bool} (h : Counted s) (hstep : ownerStep ok s = some s') :
    Counted s' := by
  have hfiles := ownerStep_files hstep
  have husers : s'.users = s.users := congrArg (List.countP File.isUser) hfiles
  have hhidden := fun hh => hfiles.trans (h.hidden (ownerStep_hidden hstep hh))
  rcases ownerStep_count hstep with ⟨hn, ha, hr, hc⟩ | ⟨hu, hw, hr, hc⟩ |
    ⟨hw, hpos, hi, hr, hc⟩ | ⟨hr, hc, hne, hown, hgone⟩
  · have hempty : s.users = 0 := by
      rw [Board.users, h.hidden (by rw [hn]; rfl)]
      rfl
    refine ⟨hhidden, fun _ => ⟨by omega, hc⟩, ?_, ?_⟩ <;> rw [ha] <;> nofun
  · obtain ⟨hcount, hcompletion⟩ := h.own (by rw [hu]; rfl)
    simp only [Board.amc525MbfRelease] at hr hc
    refine ⟨hhidden, by rw [hw]; nofun, fun _ => ⟨by omega, ?_⟩, by rw [hw]; nofun⟩
    rw [hc, hcompletion, husers]
    by_cases hlast : s.users = 0
    · rw [if_pos (by omega), if_pos hlast]
    · rw [if_neg (by omega), if_neg hlast]
  · obtain ⟨hcount, hcompletion⟩ := h.waiting hw
    have hzero : s.users = 0 := by
      by_contra hsome
      rw [if_neg hsome] at hcompletion
      omega
    refine ⟨hhidden, by rw [hi]; nofun, by rw [hi]; nofun, fun _ => ⟨by omega, by omega⟩⟩
  · refine ⟨hhidden, fun ho => ?_, fun hw => absurd hw hne, fun hg => ?_⟩
    · rw [hr, hc, husers]
      exact h.own (hown ho)
    · rw [hr, husers]
      exact h.gone (hgone hg)

theorem step {a : Input} {o : Except Errno Unit} (h : Counted s)
    (hstep : step s a = some (s', o)) : Counted s' := by
  rcases step_cases hstep with ⟨ok, -, howner⟩ | ⟨minor, -, hlive, rfl⟩ | ⟨i, f, -, hf, hfile⟩
  · exact h.ownerStep howner
  · exact h.enter minor hlive
  · exact h.fileStep hf hfile

end Counted

/-! ### The resources -/

/-- A resource is taken at most once; it was freed if it was taken and is not held. -/
structure Held (s : Board) : Prop where
  balance : ∀ r, s.taken r = s.freed r + s.owner.holds r
  once : ∀ r, s.taken r ≤ 1
  fresh : s.owner.isProbing → ∀ r, s.freed r = 0
  /-- Once the nodes exist everything has been taken. -/
  shown : s.owner.isHidden = false → ∀ r, s.taken r = 1

namespace Held

variable {s s' : Board}

/-- From the balance, all the rest: what is held at the end of the probe was taken. -/
theorem ownerStep_shown {ok : Bool} (h : Held s) (hstep : ownerStep ok s = some s')
    (hbalance : ∀ r, s'.taken r = s'.freed r + s'.owner.holds r) (honce : ∀ r, s'.taken r ≤ 1)
    (htaken : ∀ r, s.taken r ≤ s'.taken r) (hshown : s'.owner.isHidden = false) (r : Resource) :
    s'.taken r = 1 := by
  have hle := honce r
  cases hhidden : s.owner.isHidden with
  | false =>
      have := h.shown hhidden r
      have := htaken r
      omega
  | true =>
      rcases Mbf.Device.ownerStep_shown hstep hhidden with hhidden' | hlive
      · rw [hshown] at hhidden'
        cases hhidden'
      · have hheld := hbalance r
        rw [hlive] at hheld
        have : Owner.live.holds r = 1 := rfl
        omega

theorem ownerStep {ok : Bool} (h : Held s) (hstep : ownerStep ok s = some s') : Held s' := by
  rcases ownerStep_resources hstep with ⟨r, hup, hfree, htaken, hfreed, hholds⟩ |
    ⟨r, hdown, hheld, hfreed, htaken, hholds⟩ | ⟨hdown, htaken, hfreed, hholds⟩
  · have hnone := h.fresh hup r
    have hzero := h.balance r
    have hbalance : ∀ q, s'.taken q = s'.freed q + s'.owner.holds q := by
      intro q
      have := h.balance q
      rw [htaken, hfreed, hholds]
      by_cases hq : q = r
      · subst hq
        rw [Function.update_self, Function.update_self]
        omega
      · rw [Function.update_of_ne hq, Function.update_of_ne hq]
        exact this
    have honce : ∀ q, s'.taken q ≤ 1 := by
      intro q
      rw [htaken]
      by_cases hq : q = r
      · subst hq
        rw [Function.update_self]
        omega
      · rw [Function.update_of_ne hq]
        exact h.once q
    refine ⟨hbalance, honce, fun _ => hfreed ▸ h.fresh hup, fun hshown => ?_⟩
    refine h.ownerStep_shown hstep hbalance honce (fun q => ?_) hshown
    rw [htaken, Function.update_apply]
    split
    · subst q
      exact Nat.le_succ _
    · exact Nat.le_refl _
  · have hbalance : ∀ q, s'.taken q = s'.freed q + s'.owner.holds q := by
      intro q
      have := h.balance q
      rw [htaken, hfreed, hholds]
      by_cases hq : q = r
      · subst hq
        rw [Function.update_self, Function.update_self]
        omega
      · rw [Function.update_of_ne hq, Function.update_of_ne hq]
        exact this
    have honce : ∀ q, s'.taken q ≤ 1 := fun q => htaken ▸ h.once q
    refine ⟨hbalance, honce, fun hup => ?_,
      h.ownerStep_shown hstep hbalance honce (fun q => Nat.le_of_eq (congrFun htaken q).symm)⟩
    rw [hdown] at hup
    cases hup
  · have hbalance : ∀ q, s'.taken q = s'.freed q + s'.owner.holds q := by
      intro q
      rw [htaken, hfreed, hholds]
      exact h.balance q
    have honce : ∀ q, s'.taken q ≤ 1 := fun q => htaken ▸ h.once q
    refine ⟨hbalance, honce, fun hup => ?_,
      h.ownerStep_shown hstep hbalance honce (fun q => Nat.le_of_eq (congrFun htaken q).symm)⟩
    rw [hdown] at hup
    cases hup

theorem of_frame (h : Held s) (howner : s'.owner = s.owner) (htaken : s'.taken = s.taken)
    (hfreed : s'.freed = s.freed) : Held s' := by
  obtain ⟨hbalance, honce, hfresh, hshown⟩ := h
  rw [← howner, ← htaken, ← hfreed] at hbalance
  rw [← htaken] at honce
  rw [← howner, ← hfreed] at hfresh
  rw [← howner, ← htaken] at hshown
  exact ⟨hbalance, honce, hfresh, hshown⟩

theorem step {a : Input} {o : Except Errno Unit} (h : Held s)
    (hstep : step s a = some (s', o)) : Held s' := by
  rcases step_cases hstep with ⟨ok, -, howner⟩ | ⟨minor, -, -, rfl⟩ | ⟨i, f, -, -, hfile⟩
  · exact h.ownerStep howner
  · exact h.of_frame rfl rfl rfl
  · obtain ⟨howner, htaken, hfreed⟩ := hfile.frame
    exact h.of_frame howner htaken hfreed

/-- What has been freed was freed by a failed probe, or after the wait for the clients. -/
theorem freed_cases (h : Held s) {r : Resource} (hfreed : s.freed r ≠ 0) :
    s.owner.isHidden ∨ s.owner.isGone := by
  have hbalance := h.balance r
  have honce := h.once r
  have hnone : s.owner.holds r = 0 := by omega
  exact Owner.holds_zero hnone

end Held

/-! ### Runs -/

/-- What is promised of a state: the count is the number of opened handles, with the open calls
under way, and one for the owner until the removal; nothing is freed twice, or while anyone is
left; nothing stays behind; and the removal goes on after the last release. -/
structure Accounted (s : Board) : Prop where
  count : s.taken .memory = 1 → s.freed .memory = 0 →
    s.refcount = s.opened + s.opening + s.owner.own
  once : ∀ r, s.freed r ≤ s.taken r ∧ s.taken r ≤ 1
  last : ∀ r, s.freed r ≠ 0 → s.opened = 0 ∧ s.opening = 0 ∧ (s.owner.isGone ∨ s.files = [])
  removed : s.owner = .removed → ∀ r, s.freed r = 1
  failed : s.owner = .noBoard → ∀ r, s.freed r = s.taken r
  wakes : s.owner = .waiting → s.opened = 0 → s.opening = 0 → (ownerStep true s).isSome

/-- What is promised of a step: no operation on a file runs after the object is freed, and none
on a file that has been counted after anything is freed. -/
def Clean (s : Board) (a : Input) : Prop :=
  ∀ i f, a.file = some i → s.files[i]? = some f →
    s.freed .memory = 0 ∧ (f.stage ≠ .entered → ∀ r, s.freed r = 0)

/-- The removal does not free the object while an open call has found its node and not yet counted
its file. -/
def Settled (s : Board) (a : Input) : Prop :=
  ∀ ok, a = .owner ok → s.owner = .unnumbered → ∀ f ∈ s.files, f.stage ≠ .entered

/-- The invariant of the runs whose steps are settled. -/
structure Alive (s : Board) : Prop where
  counted : Counted s
  held : Held s
  emptied : s.owner = .removed → ∀ f ∈ s.files, f.stage ≠ .entered

theorem FileStep.not_entered {s s' : Board} {i : ℕ} {f g : File} {a : Input}
    (h : FileStep s i f a s') (hf : s.files[i]? = some f) (hg : s'.files[i]? = some g) :
    g.stage ≠ .entered := by
  have hset : ∀ {stage : Stage}, (s.files.set i { f with stage := stage })[i]? = some g →
      g.stage = stage := by
    intro stage hg
    rw [Tally.set_self hf] at hg
    exact (congrArg File.stage (Option.some.inj hg)).symm
  cases h with
  | lock c hreg | unlock c hreg =>
      obtain rfl := Option.some.inj (hf.symm.trans hg)
      subst hreg
      nofun
  | operate c hstage =>
      obtain rfl := Option.some.inj (hf.symm.trans hg)
      rw [hstage]
      nofun
  | _ =>
      rw [hset hg]
      nofun

/-- The file of an operation is not yet counted, or is a user of the board. -/
theorem FileStep.user {s s' : Board} {i : ℕ} {f : File} {a : Input} (h : FileStep s i f a s') :
    f.stage = .entered ∨ f.isUser = true := by
  obtain ⟨minor, stage⟩ := f
  cases h with
  | dead hstage | count hstage => exact .inl hstage
  | lock c hreg | unlock c hreg | releaseReg c hreg =>
      obtain ⟨-, rfl⟩ := File.mk.inj hreg
      exact .inr rfl
  | noContext hstage | context _ hstage | openDma _ hstage | busy _ _ hstage =>
      obtain rfl := hstage
      exact .inr rfl
  | openReg _ hstage | abandon _ hstage | finish hstage | operate _ hstage | releaseDma _ hstage =>
      obtain rfl := hstage
      exact .inr rfl

namespace Alive

variable {s s' : Board} {a : Input} {o : Except Errno Unit}

theorem start : Alive .start where
  counted := ⟨fun _ => rfl, nofun, nofun, nofun⟩
  held := ⟨fun _ => rfl, fun _ => Nat.zero_le 1, fun _ _ => rfl, nofun⟩
  emptied := nofun

theorem step (h : Alive s) (hsettled : Settled s a) (hstep : step s a = some (s', o)) :
    Alive s' := by
  refine ⟨h.counted.step hstep, h.held.step hstep, fun hremoved g hg => ?_⟩
  rcases step_cases hstep with ⟨ok, ha, howner⟩ | ⟨minor, -, hlive, rfl⟩ | ⟨i, f, -, hf, hfile⟩
  · rw [ownerStep_files howner] at hg
    exact hsettled ok ha (ownerStep_removed howner hremoved) g hg
  · cases hlive.symm.trans hremoved
  · obtain ⟨j, hj⟩ := List.mem_iff_getElem?.mp hg
    by_cases hji : j = i
    · subst hji
      exact hfile.not_entered hf hj
    · have hold : s.files[j]? = some g := by
        rw [← hfile.other hji]
        exact hj
      exact h.emptied (hfile.frame.1 ▸ hremoved) g (List.mem_of_getElem? hold)

theorem accounted (h : Alive s) : Accounted s := by
  obtain ⟨hcounted, hheld, hemptied⟩ := h
  have husers := s.users_eq
  refine ⟨fun htaken hfreed => ?_, fun r => ⟨?_, hheld.once r⟩, fun r hfreed => ?_,
    fun hremoved r => ?_, fun hfailed r => ?_, fun hwaiting hopened hopening => ?_⟩
  · have hholds : s.owner.holds .memory = 1 := by
      have := hheld.balance .memory
      omega
    rcases Owner.holds_memory hholds with hown | ⟨hown, hwaiting | hgone⟩
    · have := (hcounted.own hown).1
      omega
    · have := (hcounted.waiting hwaiting).1
      omega
    · have := hcounted.gone hgone
      omega
  · have := hheld.balance r
    omega
  · rcases hheld.freed_cases hfreed with hhidden | hgone
    · have hnil := hcounted.hidden hhidden
      refine ⟨?_, ?_, .inr hnil⟩
      · rw [Board.opened, hnil]
        rfl
      · rw [Board.opening, hnil]
        rfl
    · obtain ⟨-, hzero⟩ := hcounted.gone hgone
      exact ⟨by omega, by omega, .inl hgone⟩
  · have hbalance := hheld.balance r
    have htaken := hheld.shown (by rw [hremoved]; rfl) r
    rw [hremoved, htaken] at hbalance
    exact hbalance.symm
  · have hbalance := hheld.balance r
    rw [hfailed] at hbalance
    exact hbalance.symm
  · obtain ⟨-, hcompletion⟩ := hcounted.waiting hwaiting
    rw [if_pos (by omega)] at hcompletion
    unfold ownerStep
    rw [hwaiting]
    dsimp only
    rw [if_pos (by omega)]
    rfl

theorem clean (h : Alive s) (hstep : Mbf.Device.step s a = some (s', o)) : Clean s a := by
  intro i f ha hf
  have hnone : ∀ {r}, s.freed r ≠ 0 → s.owner.isGone ∧ s.users = 0 := by
    intro r hfreed
    rcases h.held.freed_cases hfreed with hhidden | hgone
    · rw [h.counted.hidden hhidden] at hf
      cases hf
    · exact ⟨hgone, (h.counted.gone hgone).2⟩
  obtain ⟨g, hg, hfile⟩ : ∃ g, s.files[i]? = some g ∧ FileStep s i g a s' := by
    rcases step_cases hstep with ⟨ok, rfl, -⟩ | ⟨minor, rfl, -, -⟩ | ⟨j, g, hj, hg, hfile⟩
    · cases ha
    · cases ha
    · obtain rfl := Option.some.inj (ha.symm.trans hj)
      exact ⟨g, hg, hfile⟩
  obtain rfl := Option.some.inj (hf.symm.trans hg)
  have huser : f.isUser = true → ∀ r, s.freed r = 0 := by
    intro huser r
    by_contra hfreed
    have := (hnone hfreed).2
    exact absurd (Tally.pos hf huser) (by unfold Board.users at this; omega)
  rcases hfile.user with hentered | hcounted
  · refine ⟨?_, fun hne => absurd hentered hne⟩
    by_contra hfreed
    -- the object is gone, and with it every call that had not counted its file
    have hremoved : s.owner = .removed := by
      have hbalance := h.held.balance .memory
      have honce := h.held.once .memory
      exact Owner.gone_memory (hnone hfreed).1 (by omega)
    exact h.emptied hremoved f (List.mem_of_getElem? hf) hentered
  · exact ⟨huser hcounted .memory, fun _ => huser hcounted⟩

end Alive

/-! ### An open call by itself -/

theorem proceed_entered {s : Board} {i : ℕ} {minor : Minor} (k : Option ℕ)
    (hentered : s.files[i]? = some ⟨minor, .entered⟩) : ∃ u, proceed i k s = some u := by
  unfold proceed
  rw [hentered]
  dsimp only
  split
  · exact ⟨_, rfl⟩
  · exact ⟨_, rfl⟩

/-- What the open call on a file has changed since state `s₀`: it has its part in the count until
it returns, and nothing else before it succeeds. -/
def OpenCall (s₀ s : Board) (f : File) : Prop :=
  f.isOpen = true ∨ f.stage = .released ∨
    s.refcount = s₀.refcount + (if f.isOpening then 1 else 0) ∧ s.locking = s₀.locking ∧
      s.taken = s₀.taken ∧ s.freed = s₀.freed

theorem OpenCall.step {s₀ s s' : Board} {i : ℕ} {f : File} {k : Option ℕ}
    (h : OpenCall s₀ s f) (hf : s.files[i]? = some f)
    (hstep : FileStep s i f (.proceed i k) s') :
    ∃ g, s'.files[i]? = some g ∧ OpenCall s₀ s' g := by
  obtain ⟨minor, stage⟩ := f
  cases hstep with
  | dead hstage hzero =>
      obtain rfl := hstage
      obtain hopen | hreleased | ⟨hcount, hrest⟩ := h
      · cases hopen
      · cases hreleased
      · exact ⟨_, Tally.set_self hf, .inr (.inr ⟨hcount, hrest⟩)⟩
  | count hstage hpos =>
      obtain rfl := hstage
      obtain hopen | hreleased | ⟨hcount, hrest⟩ := h
      · cases hopen
      · cases hreleased
      · replace hcount : s.refcount = s₀.refcount + 0 := hcount
        refine ⟨_, Tally.set_self hf, .inr (.inr ⟨?_, hrest⟩)⟩
        show s.refcount + 1 = s₀.refcount + 1
        omega
  | noContext hstage | context _ hstage | busy _ _ hstage =>
      obtain rfl := hstage
      obtain hopen | hreleased | hcount := h
      · cases hopen
      · cases hreleased
      · exact ⟨_, Tally.set_self hf, .inr (.inr hcount)⟩
  | openDma _ hstage | openReg _ hstage =>
      obtain rfl := hstage
      exact ⟨_, Tally.set_self hf, .inl rfl⟩
  | abandon rc hstage =>
      obtain rfl := hstage
      obtain hopen | hreleased | ⟨hcount, hrest⟩ := h
      · cases hopen
      · cases hreleased
      · replace hcount : s.refcount = s₀.refcount + 1 := hcount
        refine ⟨_, Tally.set_self hf, .inr (.inr ⟨?_, hrest⟩)⟩
        show s.refcount - 1 = s₀.refcount + 0
        omega
  | finish hstage =>
      obtain rfl := hstage
      exact ⟨_, Tally.set_self hf, .inr (.inl rfl)⟩

/-- An open call that fails leaves the count, the locking and the resources as they were. -/
theorem failed_open {s s' : Board} {i : ℕ} {minor : Minor} {rc : Errno}
    {l : List (Board × Input × Except Errno Unit)}
    (hentered : s.files[i]? = some ⟨minor, .entered⟩) (hpath : Path machine.system s l s')
    (hcall : ∀ x ∈ l, ∃ k, x.2.1 = .proceed i k)
    (hfailed : s'.files[i]? = some ⟨minor, .failed rc⟩) :
    s'.refcount = s.refcount ∧ s'.locking = s.locking ∧ s'.taken = s.taken ∧
      s'.freed = s.freed := by
  have hend := hpath.guarded (P := fun t => ∃ f, t.files[i]? = some f ∧ OpenCall s t f)
    (C := fun _ a => ∃ k, a.1 = .proceed i k) ?_ hcall
    ⟨_, hentered, .inr (.inr ⟨(Int.add_zero _).symm, rfl, rfl, rfl⟩)⟩
  · obtain ⟨f, hf, hopencall⟩ := hend
    obtain rfl := Option.some.inj (hf.symm.trans hfailed)
    obtain hopen | hreleased | ⟨hcount, hrest⟩ := hopencall
    · cases hopen
    · cases hreleased
    · exact ⟨hcount.trans (Int.add_zero _), hrest⟩
  · rintro t ⟨a, o⟩ t' ⟨f, hf, hopencall⟩ ⟨k, hk⟩ hstep
    obtain rfl : a = .proceed i k := hk
    obtain ⟨u, hu, heq⟩ := Option.map_eq_some_iff.mp (machine.system_step.mp hstep)
    obtain ⟨rfl, -⟩ := Prod.mk.inj heq
    obtain ⟨g, hg, hfile⟩ := proceed_cases hu
    obtain rfl := Option.some.inj (hf.symm.trans hg)
    exact hopencall.step hf hfile

/-! ### The lifetime -/

/-- **The lifetime of a board.**  In every run in which the removal frees the object only when no
open call is short of counting its file, every state is accounted for and every operation runs on
a board that is not freed.  An open call that fails leaves the count as it was.  And where the
removal is about to free the object under an open call, that call is next to run on freed
memory. -/
theorem board_lifetime {s : Board} {l : List (Board × Input × Except Errno Unit)}
    (hpath : Path machine.system .start l s) :
    ((∀ x ∈ l, Settled x.1 x.2.1) → Always Accounted l s ∧ ∀ x ∈ l, Clean x.1 x.2.1) ∧
    (∀ i minor rc l' s', s.files[i]? = some ⟨minor, .entered⟩ → Path machine.system s l' s' →
      (∀ x ∈ l', ∃ k, x.2.1 = .proceed i k) → s'.files[i]? = some ⟨minor, .failed rc⟩ →
      s'.refcount = s.refcount ∧ s'.locking = s.locking ∧ s'.taken = s.taken ∧
        s'.freed = s.freed) ∧
    ∀ i minor, s.owner = .unnumbered → s.files[i]? = some ⟨minor, .entered⟩ →
      ∃ t o o' u, machine.system.Step s (.owner true, o) t ∧
        machine.system.Step t (.proceed i none, o') u ∧ ¬ Clean t (.proceed i none) := by
  refine ⟨fun hsettled => ?_, ?_, ?_⟩
  · have halive := hpath.guarded_always (P := Alive) (C := fun s a => Settled s a.1)
      (fun t a t' ht hC hstep => ht.step hC hstep) hsettled .start
    refine ⟨halive.mono fun _ => Alive.accounted, ?_⟩
    exact hpath.until (J := Alive) (R := fun s a => ¬ Settled s a.1)
      (G := fun s a => Clean s a.1)
      (fun t a t' ht hC hstep => ⟨ht.step (not_not.mp hC) hstep, ht.clean hstep⟩) .start
      (fun x hx => not_not.mpr (hsettled x hx))
  · intro i minor rc l' s' hentered hcallpath hcall hfailed
    exact failed_open hentered hcallpath hcall hfailed
  · intro i minor howner hentered
    have hfree : ownerStep true s = some { s.free .memory with owner := .removed } := by
      unfold ownerStep
      rw [howner]
    obtain ⟨u, hu⟩ := proceed_entered (s := { s.free .memory with owner := .removed }) none hentered
    refine ⟨{ s.free .memory with owner := .removed }, .ok (), .ok (), u, ?_, ?_, ?_⟩
    · show (ownerStep true s).map (·, Except.ok ()) = _
      rw [hfree]
      rfl
    · show (proceed i none { s.free .memory with owner := .removed }).map (·, Except.ok ()) = _
      rw [hu]
      rfl
    · intro hclean
      have hfreed := (hclean i _ rfl hentered).1
      simp only [Board.free, Function.update_self] at hfreed
      omega

/-- An open call finds its node and is held up; the board is removed and freed; then the call goes
on. -/
theorem board_lifetime_stalled_open :
    ¬ ∀ l s, Path machine.system .start l s → ∀ x ∈ l, Clean x.1 x.2.1 := by
  intro hall
  have hmem : (machine.trace .start ([true, true, true, true, true].map .owner ++ .enter .reg ::
      [true, true, true, true, true, true, true].map .owner ++ [.proceed 0 none]))[13]? =
      some (machine.after .start ([true, true, true, true, true].map .owner ++ .enter .reg ::
        [true, true, true, true, true, true, true].map .owner), .proceed 0 none, .ok ()) := rfl
  have hclean := hall _ _ (machine.path_trace _ _) _ (List.mem_of_getElem? hmem)
  exact absurd (hclean 0 ⟨.reg, .entered⟩ rfl rfl).1 (by decide)

/-- A handle is open when the removal begins: the removal waits for it, and its release, the last,
lets the removal go on. -/
theorem board_lifetime_handle :
    let s := machine.after .start ([true, true, true, true, true].map .owner ++
      [.enter .ddr0, .proceed 0 none, .proceed 0 (some 16), .owner true, .owner true, .release 0,
        .proceed 0 none, .owner true, .owner true])
    s.owner = .terminated ∧ s.freed .control = 1 ∧ Accounted s := by
  intro s
  have hbefore : ∀ x ∈ machine.trace .start ([true, true, true, true, true].map .owner ++
      [.enter .ddr0, .proceed 0 none, .proceed 0 (some 16), .owner true, .owner true, .release 0,
        .proceed 0 none, .owner true, .owner true]), x.1.owner ≠ .unnumbered := by
    decide
  have haccounted := (board_lifetime (machine.path_trace .start _)).1
    (fun x hx _ _ howner => absurd howner (hbefore x hx))
  exact ⟨rfl, rfl, haccounted.1.2⟩

end Mbf.Device
