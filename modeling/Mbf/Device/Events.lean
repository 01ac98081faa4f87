import Mathlib.Data.BitVec
import Mathlib.Data.List.Perm.Basic
import Mbf.Lib.Runs

/-! # The events of the register device

The interrupts of the hardware are merged into one mask of pending events, `event_interrupt`, and a
read of the register device takes the whole mask, `mbf_reg_read`.  A step is one atomic operation
on the mask, or one of the other things that a call does; the steps of the interrupt handler and of
any number of reads interleave freely.

A read takes the mask before it copies it to the user.  If the copy fails the events are gone: they
are neither delivered nor pending any more.  Nothing else loses or repeats an event
(`events_delivered_iff`). -/

namespace Mbf.Device.Events

open Runs

/-- The type of `control->events`. -/
abbrev Mask := BitVec 32

/-! ### The interrupt handler -/

/-- Where `mbf_isr` is. -/
inductive Handler where
  | idle
  /-- In the loop of `event_interrupt`, before `atomic_read`. -/
  | reading (events : Mask)
  /-- Before `atomic_cmpxchg`. -/
  | exchanging (events oldEvents : Mask)
deriving DecidableEq, Repr

/-- The events that have not been merged yet. -/
def Handler.events : Handler → Mask
  | .idle => 0
  | .reading events => events
  | .exchanging events _ => events

/-- `mbf_isr` up to the call of `event_interrupt`: interrupt number 1 belongs to the DMA engine. -/
def mbfIsr (isr : Mask) : Handler := if isr >>> 1 ≠ 0 then .reading (isr >>> 1) else .idle

/-! ### Reading the device -/

/-- Where a call of `mbf_reg_read` is. -/
inductive Read where
  | entered (noWait : Bool) (count : ℕ)
  /-- Before `atomic_xchg`, which without `no_wait` is the condition of a wait. -/
  | taking (noWait : Bool)
  /-- Before `copy_to_user`. -/
  | copying (events : Mask)
deriving DecidableEq, Repr

/-- What a read fails with. -/
inductive ReadError where
  | eagain
  | eio
  | efault
  | erestartsys
deriving DecidableEq, Repr

/-- What can be seen of a step. -/
inductive Note where
  | quiet
  /-- The hardware has raised some events. -/
  | raised (events : Mask)
  /-- They have been merged into the pending ones. -/
  | merged (events : Mask)
  /-- A read has taken all pending events. -/
  | took (events : Mask)
  /-- A read has delivered what it has taken. -/
  | delivered (events : Mask)
  /-- A read has failed, and had taken some events. -/
  | failed (error : ReadError) (events : Mask)
deriving DecidableEq, Repr

def Note.raised? : Note → Option Mask
  | .raised events => some events
  | _ => none

def Note.delivered? : Note → Option Mask
  | .delivered events => some events
  | _ => none

/-- The next thing a read does: the pending events it leaves, and where it is then.  A wait can be
interrupted by a signal, and `copy_to_user` may leave some bytes uncopied. -/
def Read.step (pending : Mask) (signal : Bool) (uncopied : ℕ) : Read → Mask × Option Read × Note
  | .entered noWait count =>
      if noWait = true ∧ pending = 0 then (pending, none, .failed .eagain 0)
      else if count < 4 then (pending, none, .failed .eio 0)
      else (pending, some (.taking noWait), .quiet)
  | .taking true => (0, some (.copying pending), .took pending)
  | .taking false =>
      if pending ≠ 0 then (0, some (.copying pending), .took pending)
      else if signal then (0, none, .failed .erestartsys 0)
      else (0, some (.taking false), .quiet)
  | .copying events =>
      if 0 < uncopied then (pending, none, .failed .efault events)
      else if events = 0 then (pending, none, .failed .eagain 0)
      else (pending, none, .delivered events)

/-! ### The device -/

/-- `struct interrupt_control`, the interrupt handler, and the reads in progress. -/
structure Control where
  events : Mask := 0
  handler : Handler := .idle
  reads : List Read := []
deriving DecidableEq, Repr

/-- What happens next. -/
inductive Input where
  /-- The interrupt controller has these interrupts active. -/
  | interrupt (isr : Mask)
  | handle
  /-- A client calls `read`. -/
  | call (noWait : Bool) (count : ℕ)
  /-- The read at this place goes on. -/
  | read (i : ℕ) (signal : Bool) (uncopied : ℕ)

namespace Control

/-- The reads when the one at place `i` has gone on, or returned. -/
def replace (reads : List Read) (i : ℕ) : Option Read → List Read
  | none => reads.eraseIdx i
  | some r => reads.set i r

/-- One step.  The handler is not interrupted by itself. -/
def step (s : Control) : Input → Option (Control × Note)
  | .interrupt isr =>
      if s.handler = .idle then
        some ({ s with handler := mbfIsr isr }, .raised (isr >>> 1))
      else none
  | .handle =>
      match s.handler with
      | .idle => none
      | .reading events => some ({ s with handler := .exchanging events s.events }, .quiet)
      | .exchanging events oldEvents =>
          if s.events = oldEvents then
            some ({ s with events := oldEvents ||| events, handler := .idle }, .merged events)
          else some ({ s with handler := .reading events }, .quiet)
  | .call noWait count => some ({ s with reads := s.reads ++ [.entered noWait count] }, .quiet)
  | .read i signal uncopied =>
      match s.reads[i]? with
      | none => none
      | some r =>
          let (events, next, note) := r.step s.events signal uncopied
          some ({ s with events, reads := replace s.reads i next }, note)

/-- The device, from `initialise_interrupt_control` on. -/
def machine : Machine Control Input Note where
  init s := s = {}
  step := step

end Control

/-! ### The law of the events -/

/-- A path of the device. -/
abbrev Log := List (Control × Input × Note)

/-- The bitwise or of some masks. -/
def orAll (masks : List Mask) : Mask := masks.foldr (· ||| ·) 0

/-- The masks of the events that were raised. -/
def raised (l : Log) : List Mask := l.filterMap fun x => x.2.2.raised?

/-- The masks that were delivered. -/
def delivered (l : Log) : List Mask := l.filterMap fun x => x.2.2.delivered?

/-- The mask of each maximal run of events that are merged before one read takes them, if some are
pending at the start. -/
def runs : Mask → Log → List Mask
  | _, [] => []
  | pending, (_, _, .merged events) :: l => runs (pending ||| events) l
  | pending, (_, _, .took _) :: l => (if pending = 0 then [] else [pending]) ++ runs 0 l
  | pending, _ :: l => runs pending l

/-- The events that a read holds. -/
def Read.held : Read → List Mask
  | .copying events => if events = 0 then [] else [events]
  | _ => []

/-- The masks that some reads have taken and not delivered yet. -/
def Control.held (s : Control) : List Mask := s.reads.flatMap Read.held

/-- The events that are still to be delivered. -/
def Control.pending (s : Control) : Mask := s.events ||| s.handler.events ||| orAll s.held

/-- What becomes of the events on a path. -/
structure Law (l : Log) (s : Control) : Prop where
  /-- No event is lost or made up. -/
  conserved : orAll (delivered l) ||| s.pending = orAll (raised l)
  /-- Each run of events is delivered, or held, by one read. -/
  once : (delivered l ++ s.held).Perm (runs 0 l)
  /-- A read that fails has taken nothing. -/
  failed : ∀ x ∈ l, ∀ error events, x.2.2 = .failed error events → events = 0

/-- The read cannot copy what it has taken. -/
def Spills (s : Control) : Input → Prop
  | .read i _ uncopied => 0 < uncopied ∧ ∃ events ≠ 0, s.reads[i]? = some (.copying events)
  | _ => False

/-! ### The bits of the masks -/

theorem getLsbD_orAll {masks : List Mask} {i : ℕ} :
    (orAll masks).getLsbD i = true ↔ ∃ events ∈ masks, events.getLsbD i = true := by
  induction masks with
  | nil => simp [orAll]
  | cons events masks ih =>
      have hcons : orAll (events :: masks) = events ||| orAll masks := rfl
      rw [hcons, BitVec.getLsbD_or, Bool.or_eq_true, ih, List.exists_mem_cons_iff]

theorem orAll_append (masks masks' : List Mask) :
    orAll (masks ++ masks') = orAll masks ||| orAll masks' := by
  apply BitVec.eq_of_getLsbD_eq
  intro i _
  rw [Bool.eq_iff_iff, BitVec.getLsbD_or, Bool.or_eq_true]
  simp only [getLsbD_orAll, List.mem_append, or_and_right, exists_or]

theorem orAll_perm {masks masks' : List Mask} (h : masks.Perm masks') :
    orAll masks = orAll masks' := by
  apply BitVec.eq_of_getLsbD_eq
  intro i _
  rw [Bool.eq_iff_iff]
  simp only [getLsbD_orAll, h.mem_iff]

/-! ### What a step does -/

section step
variable {s t : Control} {i : Input} {note : Note}

/-- What a read that is not over holds. -/
def heldBy (next : Option Read) : List Mask := next.elim [] Read.held

/-- A read takes all that is pending, or leaves it and delivers what it holds, or goes on holding
it. -/
theorem Read.step_cases (r : Read) (pending : Mask) (signal : Bool) {uncopied : ℕ}
    (hcopied : ∀ events ≠ 0, r = .copying events → uncopied = 0) :
    r.step pending signal uncopied = (0, some (.copying pending), .took pending) ∧ r.held = [] ∨
    ∃ next note, r.step pending signal uncopied = (pending, next, note) ∧
      note.delivered?.toList ++ heldBy next = r.held ∧ note.raised? = none ∧
      (∀ l x y, runs pending ((x, y, note) :: l) = runs pending l) ∧
      ∀ error events, note = .failed error events → events = 0 := by
  cases r with
  | entered noWait count =>
      right
      by_cases hready : noWait = true ∧ pending = 0
      · exact ⟨_, _, if_pos hready, rfl, rfl, fun _ _ _ => rfl, by simp⟩
      · by_cases hcount : count < 4
        · exact ⟨_, _, (if_neg hready).trans (if_pos hcount), rfl, rfl, fun _ _ _ => rfl, by simp⟩
        · exact ⟨_, _, (if_neg hready).trans (if_neg hcount), rfl, rfl, fun _ _ _ => rfl, nofun⟩
  | taking noWait =>
      cases noWait with
      | true => exact .inl ⟨rfl, rfl⟩
      | false =>
          by_cases hpending : pending = 0
          · right
            subst hpending
            cases signal with
            | true => exact ⟨_, _, rfl, rfl, rfl, fun _ _ _ => rfl, by simp⟩
            | false => exact ⟨_, _, rfl, rfl, rfl, fun _ _ _ => rfl, nofun⟩
          · left
            exact ⟨if_pos hpending, rfl⟩
  | copying events =>
      right
      by_cases huncopied : 0 < uncopied
      · have hevents : events = 0 := by
          by_contra hne
          exact absurd (hcopied events hne rfl) huncopied.ne'
        subst hevents
        exact ⟨_, _, if_pos huncopied, rfl, rfl, fun _ _ _ => rfl, by simp⟩
      · by_cases hzero : events = 0
        · subst hzero
          exact ⟨_, _, if_neg huncopied, rfl, rfl, fun _ _ _ => rfl, by simp⟩
        · exact ⟨_, _, (if_neg huncopied).trans (if_neg hzero), (if_neg hzero).symm, rfl,
            fun _ _ _ => rfl, nofun⟩

/-- A read that goes on changes what it holds itself. -/
theorem held_replace {reads : List Read} {i : ℕ} {r : Read} (h : reads[i]? = some r) :
    ∃ rest, (reads.flatMap Read.held).Perm (r.held ++ rest) ∧
      ∀ next, ((Control.replace reads i next).flatMap Read.held).Perm (heldBy next ++ rest) := by
  obtain ⟨hi, rfl⟩ := List.getElem?_eq_some_iff.mp h
  refine ⟨(reads.eraseIdx i).flatMap Read.held, ?_, fun next => ?_⟩
  · exact ((List.getElem_cons_eraseIdx_perm hi).flatMap_right Read.held).symm
  · cases next with
    | none => exact List.Perm.refl _
    | some r => exact (List.set_perm_cons_eraseIdx hi r).flatMap_right Read.held

theorem orAll_held_copying (events : Mask) : orAll (Read.copying events).held = events := by
  change orAll (if events = 0 then [] else [events]) = events
  split_ifs with hzero
  · exact hzero.symm
  · exact BitVec.or_zero

/-- What the next step does to the runs of events, and to what is held and pending. -/
structure Kept (s : Control) (note : Note) (t : Control) : Prop where
  runs : ∃ closed, (∀ l x y, runs s.events ((x, y, note) :: l) = closed ++ runs t.events l) ∧
    (note.delivered?.toList ++ t.held).Perm (s.held ++ closed)
  conserved : orAll note.delivered?.toList ||| t.pending = orAll note.raised?.toList ||| s.pending
  failed : ∀ error events, note = .failed error events → events = 0

/-- A step of the handler, or a call. -/
theorem Kept.of_still (hheld : t.held = s.held) (hdelivered : note.delivered? = none)
    (hruns : ∀ l x y, Events.runs s.events ((x, y, note) :: l) = Events.runs t.events l)
    (hconserved : t.events ||| t.handler.events =
      orAll note.raised?.toList ||| (s.events ||| s.handler.events))
    (hfailed : ∀ error events, note = .failed error events → events = 0) : Kept s note t where
  runs := ⟨[], hruns, by rw [hheld, hdelivered, List.append_nil]; rfl⟩
  conserved := by
    unfold Control.pending
    rw [hheld, hdelivered, hconserved]
    exact BitVec.zero_or.trans (BitVec.or_assoc ..)
  failed := hfailed

theorem kept_interrupt {isr : Mask} (h : s.step (.interrupt isr) = some (t, note)) :
    Kept s note t := by
  change (if _ then some _ else none) = _ at h
  split_ifs at h with hidle
  cases h
  refine .of_still rfl rfl (fun _ _ _ => rfl) ?_ nofun
  rw [hidle]
  unfold mbfIsr
  split_ifs with hzero
  · simp [Handler.events, Note.raised?, orAll, BitVec.or_comm]
  · simp [Handler.events, Note.raised?, orAll, not_not.mp hzero]

theorem kept_handle (h : s.step .handle = some (t, note)) : Kept s note t := by
  unfold Control.step at h
  cases hhandler : s.handler with
  | idle =>
      rw [hhandler] at h
      cases h
  | reading events =>
      rw [hhandler] at h
      cases h
      refine .of_still rfl rfl (fun _ _ _ => rfl) ?_ nofun
      rw [hhandler]
      exact BitVec.zero_or.symm
  | exchanging events oldEvents =>
      rw [hhandler] at h
      dsimp only at h
      split_ifs at h with hsame
      · cases h
        subst hsame
        refine .of_still rfl rfl (fun _ _ _ => rfl) ?_ nofun
        rw [hhandler]
        simp [Handler.events, Note.raised?, orAll]
      · cases h
        refine .of_still rfl rfl (fun _ _ _ => rfl) ?_ nofun
        rw [hhandler]
        exact BitVec.zero_or.symm

theorem kept_read {i uncopied : ℕ} {signal : Bool}
    (h : s.step (.read i signal uncopied) = some (t, note))
    (hspills : ¬ Spills s (.read i signal uncopied)) : Kept s note t := by
  simp only [Control.step] at h
  cases hread : s.reads[i]? with
  | none =>
      rw [hread] at h
      cases h
  | some r =>
      rw [hread] at h
      dsimp only at h
      obtain ⟨rest, hheld, hnext⟩ := held_replace hread
      have hcopied : ∀ events ≠ 0, r = .copying events → uncopied = 0 := by
        intro events hne hcopying
        by_contra huncopied
        exact hspills ⟨Nat.pos_of_ne_zero huncopied, events, hne, hread.trans (hcopying ▸ rfl)⟩
      rcases r.step_cases s.events signal hcopied with
        ⟨hstep, hnone⟩ | ⟨next, note', hstep, hdelivered, hraised, hruns, hfailed⟩
      · rw [hstep] at h
        cases h
        have hrest : (s.reads.flatMap Read.held).Perm rest := by
          rw [hnone, List.nil_append] at hheld
          exact hheld
        have htaken := hnext (some (.copying s.events))
        constructor
        · exact ⟨(Read.copying s.events).held, fun l x y => rfl,
            htaken.trans (List.perm_append_comm.trans (hrest.symm.append_right _))⟩
        · have hafter := orAll_perm htaken
          rw [orAll_append, ← orAll_perm hrest] at hafter
          have hevents : orAll (heldBy (some (.copying s.events))) = s.events :=
            orAll_held_copying s.events
          rw [hevents] at hafter
          change 0#32 ||| (0#32 ||| s.handler.events ||| orAll (List.flatMap Read.held _)) =
            0#32 ||| (s.events ||| s.handler.events ||| orAll (s.reads.flatMap Read.held))
          rw [hafter, BitVec.zero_or, BitVec.zero_or, BitVec.zero_or]
          ac_rfl
        · nofun
      · rw [hstep] at h
        cases h
        constructor
        · refine ⟨[], fun l x y => hruns l x y, ?_⟩
          rw [List.append_nil]
          refine ((hnext next).append_left _).trans ?_
          rw [← List.append_assoc, hdelivered]
          exact hheld.symm
        · have hafter := orAll_perm (hnext next)
          have hbefore := orAll_perm hheld
          rw [orAll_append] at hafter hbefore
          rw [← hdelivered, orAll_append] at hbefore
          rw [hraised]
          change _ ||| (s.events ||| s.handler.events ||| orAll (List.flatMap Read.held _)) =
            0#32 ||| (s.events ||| s.handler.events ||| orAll (s.reads.flatMap Read.held))
          rw [hafter, hbefore, BitVec.zero_or]
          ac_rfl
        · exact hfailed

theorem kept_step (h : s.step i = some (t, note)) (hspills : ¬ Spills s i) : Kept s note t := by
  cases i with
  | interrupt isr => exact kept_interrupt h
  | handle => exact kept_handle h
  | call noWait count =>
      cases h
      have hheld : (s.reads ++ [Read.entered noWait count]).flatMap Read.held =
          s.reads.flatMap Read.held := by
        rw [List.flatMap_append]
        exact List.append_nil _
      exact .of_still hheld rfl (fun _ _ _ => rfl) BitVec.zero_or.symm nofun
  | read i signal uncopied => exact kept_read h hspills

/-- A read that spills fails, and had taken some events. -/
theorem failed_of_spills (h : s.step i = some (t, note)) (hspills : Spills s i) :
    ∃ events ≠ 0, note = .failed .efault events := by
  cases i with
  | interrupt isr => exact hspills.elim
  | handle => exact hspills.elim
  | call noWait count => exact hspills.elim
  | read i signal uncopied =>
      obtain ⟨huncopied, events, hne, hread⟩ := hspills
      have hstep : (Read.copying events).step s.events signal uncopied =
          (s.events, none, .failed .efault events) := if_pos huncopied
      simp only [Control.step, hread, hstep, Option.some.injEq, Prod.mk.injEq] at h
      exact ⟨events, hne, h.2.symm⟩

end step

/-! ### What a run does -/

section run
variable {s t : Control} {l : Log}

theorem delivered_cons (x : Control × Input × Note) (l : Log) :
    delivered (x :: l) = x.2.2.delivered?.toList ++ delivered l := by
  unfold delivered
  rw [List.filterMap_cons]
  cases x.2.2.delivered? with
  | none => rfl
  | some events => rfl

theorem raised_cons (x : Control × Input × Note) (l : Log) :
    raised (x :: l) = x.2.2.raised?.toList ++ raised l := by
  unfold raised
  rw [List.filterMap_cons]
  cases x.2.2.raised? with
  | none => rfl
  | some events => rfl

/-- A run in which no read spills: what was held at its start is delivered or held, with each run of
events that was taken, and nothing is lost. -/
theorem kept_path (hp : Path Control.machine.system s l t)
    (hspills : ∀ x ∈ l, ¬ Spills x.1 x.2.1) :
    (delivered l ++ t.held).Perm (s.held ++ runs s.events l) ∧
      orAll (delivered l) ||| t.pending = orAll (raised l) ||| s.pending ∧
      ∀ x ∈ l, ∀ error events, x.2.2 = .failed error events → events = 0 := by
  induction hp with
  | nil s => exact ⟨by simp [delivered, runs], rfl, nofun⟩
  | @cons s u t label l hstep _ ih =>
      have hkept : Kept s label.2 u := kept_step hstep (hspills _ List.mem_cons_self)
      obtain ⟨hruns, hconserved, hfailed⟩ := ih fun x hx => hspills x (List.mem_cons_of_mem _ hx)
      obtain ⟨closed, hclosed, hheld⟩ := hkept.runs
      refine ⟨?_, ?_, fun x hx => ?_⟩
      · rw [delivered_cons, hclosed l s label.1, List.append_assoc, ← List.append_assoc s.held]
        refine (hruns.append_left _).trans ?_
        rw [← List.append_assoc]
        exact hheld.append_right _
      · rw [delivered_cons, raised_cons, orAll_append, orAll_append, BitVec.or_assoc, hconserved,
          ← BitVec.or_assoc, BitVec.or_comm _ (orAll (raised l)), BitVec.or_assoc,
          hkept.conserved, ← BitVec.or_assoc, BitVec.or_comm (orAll (raised l))]
      · rcases List.mem_cons.mp hx with rfl | hx
        · exact hkept.failed
        · exact hfailed x hx

/-- **The law of the events**: no event is lost or repeated, and a read that fails leaves the
pending events as they were, exactly when no read fails to copy events that it has taken. -/
theorem events_delivered_iff (s t : Control) (l : Log) (hp : Path Control.machine.system s l t)
    (hinit : Control.machine.init s) : Law l t ↔ ∀ x ∈ l, ¬ Spills x.1 x.2.1 := by
  cases hinit with | refl =>
  constructor
  · intro hlaw x hx hspills
    -- Every label of the path is that of a step.
    have hsteps := hp.until (J := fun _ => True) (R := fun _ _ => False)
      (G := fun s a => ∃ s', Control.machine.system.Step s a s')
      (fun s a s' _ _ hstep => ⟨trivial, s', hstep⟩) trivial (fun _ _ h => h)
    obtain ⟨u, hstep⟩ := hsteps x hx
    obtain ⟨events, hne, hnote⟩ := failed_of_spills hstep hspills
    exact hne (hlaw.failed x hx _ _ hnote)
  · intro hspills
    obtain ⟨hruns, hconserved, hfailed⟩ := kept_path hp hspills
    exact ⟨hconserved.trans BitVec.or_zero, hruns, hfailed⟩

/-- Two clients read while the handler merges: each takes the events of one interrupt. -/
theorem events_delivered_two_readers :
    let inputs : List Input := [.call false 4, .interrupt 6, .read 0 false 0, .handle, .handle,
      .call true 4, .read 1 false 0, .read 0 false 0, .interrupt 4, .handle, .handle,
      .read 1 false 0, .read 0 false 0, .read 0 false 0]
    delivered (Control.machine.trace {} inputs) = [3, 2] ∧
      Law (Control.machine.trace {} inputs) (Control.machine.after {} inputs) := by
  intro inputs
  refine ⟨by decide +kernel, ?_⟩
  refine (events_delivered_iff _ _ _ (Control.machine.path_trace _ _) rfl).mpr ?_
  intro x hx
  have hinput := Control.machine.mem_trace hx
  simp only [inputs, List.mem_cons, List.not_mem_nil, or_false] at hinput
  rcases hinput with h | h | h | h | h | h | h | h | h | h | h | h | h | h <;>
    simp [h, Spills]

/-- A read whose buffer is bad loses the events that it has taken. -/
theorem events_lost_at_bad_buffer :
    ¬ ∀ (s t : Control) (l : Log), Path Control.machine.system s l t →
      Control.machine.init s → Law l t := by
  intro h
  let inputs : List Input := [.interrupt 2, .handle, .handle, .call true 4, .read 0 false 0,
    .read 0 false 0, .read 0 false 4]
  have hlaw := h {} _ _ (Control.machine.path_trace {} inputs) rfl
  have hlost : orAll (delivered (Control.machine.trace {} inputs)) |||
      (Control.machine.after {} inputs).pending ≠
        orAll (raised (Control.machine.trace {} inputs)) := by
    decide +kernel
  exact hlost hlaw.conserved

end run

end Mbf.Device.Events
