import Mbf.Trigger.Target
import Mbf.Command.Parse
import Mathlib.Data.Int.Init
import Mathlib.Tactic.Ring
import Mathlib.Tactic.Linarith

/-! # The deadlines of a lock request

`wait_trigger_ready` with the arithmetic of `timespec.h`, from the parse of the request on.  The
timeout is an `unsigned int`, but `interval_to_timespec` takes an `int`: from `2 ^ 31` on the
deadline lies before the request, and `add_timespec` does not borrow, so that its nanoseconds can be
negative; `pthread_cond_timedwait` refuses such a deadline and the assertion of `pwait_deadline`
fails (`lock_deadlines_valid_iff`).

The returns of `pthread_cond_timedwait` come from a `World`: whether the deadline was reached, what
the target is like, and what `poll` finds then. -/

namespace Mbf.Trigger

open Parsing Mbf.Command

/-! ### The request -/

/-- `struct lock_parse`. -/
structure LockParse where
  lock : Bool
  /-- In milliseconds. -/
  timeout : ℕ
deriving DecidableEq, Repr

/-- `parse_lock`. -/
def parseLock : Parser LockParse := do
  let lock ← readChar 'L'
  if lock then
    if ← readChar 'W' then
      let timeout ← parseUint
      return ⟨lock, timeout⟩
    else return ⟨lock, 0⟩
  else return ⟨lock, 0⟩

/-! ### `timespec.h` -/

/-- `struct timespec`, whose fields are wide enough. -/
structure Timespec where
  sec : ℤ
  nsec : ℤ
deriving DecidableEq, Repr

/-- `MSECS`. -/
def msecs : ℤ := 1000

/-- `NSECS`. -/
def nsecs : ℤ := 1000000000

/-- The division of C rounds towards zero. -/
def intervalToTimespec (interval units : ℤ) : Timespec where
  sec := interval.tdiv units
  nsec := interval.tmod units * nsecs.tdiv units

def addTimespec (a b : Timespec) : Timespec :=
  let result : Timespec := ⟨a.sec + b.sec, a.nsec + b.nsec⟩
  if result.nsec ≥ nsecs then ⟨result.sec + 1, result.nsec - nsecs⟩ else result

def compareTimespecLe (a b : Timespec) : Bool :=
  if a.sec < b.sec then true
  else if a.sec > b.sec then false
  else a.nsec ≤ b.nsec

def compareTimespecEq (a b : Timespec) : Bool := a.sec = b.sec && a.nsec = b.nsec

def earliestTimespec (a b : Timespec) : Timespec := if compareTimespecLe a b then a else b

/-- The nanoseconds are a proper fraction of a second. -/
def Timespec.Normalised (a : Timespec) : Prop := 0 ≤ a.nsec ∧ a.nsec < nsecs

instance (a : Timespec) : Decidable a.Normalised := inferInstanceAs (Decidable (_ ∧ _))

/-- The time in nanoseconds. -/
def Timespec.total (a : Timespec) : ℤ := a.sec * nsecs + a.nsec

/-! ### Waiting -/

/-- A return of `pthread_cond_timedwait`. -/
structure Wakeup where
  timedOut : Bool
  /-- The target, now that the mutex is held again. -/
  target : Target
  /-- The error of the poll callback, if it is called. -/
  poll : Option String

/-- The returns of one request. -/
abbrev World := ℕ → Wakeup

/-- What `pthread_cond_timedwait` returns. -/
inductive WaitResult where
  | ok
  | timedOut
  /-- `EINVAL`. -/
  | invalid
deriving DecidableEq, Repr

/-- `pthread_cond_timedwait` refuses a deadline that is not normalised. -/
def pthreadCondTimedwait (deadline : Timespec) (wakeup : Wakeup) : WaitResult :=
  if ¬ deadline.Normalised then .invalid
  else if wakeup.timedOut then .timedOut
  else .ok

/-- `pwait_deadline`; `none` where its assertion fails. -/
def pwaitDeadline (deadline : Timespec) (wakeup : Wakeup) : Option Bool :=
  match pthreadCondTimedwait deadline wakeup with
  | .timedOut => some true
  | .ok => some false
  | .invalid => none

/-- The variables of `wait_trigger_ready`. -/
structure Wait where
  nextTick : Timespec
  finalDeadline : Timespec

/-- `POLL_INTERVAL`. -/
def pollInterval : ℤ := 10

/-- The deadline for the next wait. -/
def Wait.tick (w : Wait) : Wait :=
  { w with
    nextTick := earliestTimespec (addTimespec w.nextTick (intervalToTimespec pollInterval 1))
      w.finalDeadline }

def Wait.lastTick (w : Wait) : Bool := compareTimespecEq w.nextTick w.finalDeadline

/-- `final_deadline`: the timeout is cast to `int`. -/
def requestDeadline (now : Timespec) (timeout : ℕ) : Timespec :=
  addTimespec now (intervalToTimespec ((timeout : ℤ).bmod (2 ^ 32)) msecs)

/-- The first wait. -/
def Wait.first (now : Timespec) (timeout : ℕ) : Wait :=
  Wait.tick ⟨now, requestDeadline now timeout⟩

/-- How far a request is. -/
inductive Stage where
  /-- In `pthread_cond_timedwait`, until `nextTick`. -/
  | waiting (w : Wait)
  | granted
  | failed (error : String)
  /-- The assertion has failed. -/
  | aborted

/-- `lock_trigger_ready` up to its first wait. -/
def Stage.start (now : Timespec) (timeout : ℕ) (target : Target) : Stage :=
  if checkTriggerReady target then .granted
  else if timeout = 0 then .failed "Trigger not ready"
  else .waiting (Wait.first now timeout)

/-- From a return of `pthread_cond_timedwait` to the next wait. -/
def Wait.next (w : Wait) (wakeup : Wakeup) : Stage :=
  match pwaitDeadline w.nextTick wakeup with
  | none => .aborted
  | some timedOut =>
      if checkTriggerReady wakeup.target then .granted
      else if !timedOut then .waiting w
      else if w.lastTick then .failed "Timed out waiting for trigger"
      else match wakeup.poll with
        | some error => .failed error
        | none => .waiting w.tick

def Stage.next (wakeup : Wakeup) : Stage → Stage
  | .waiting w => w.next wakeup
  | stage => stage

/-- The request after a number of returns. -/
def requestRun (now : Timespec) (timeout : ℕ) (target : Target) (world : World) : ℕ → Stage
  | 0 => Stage.start now timeout target
  | n + 1 => (requestRun now timeout target world n).next (world n)

/-! ### The statement -/

/-- A wait ends at its deadline if nothing ends it before. -/
def World.Fair (world : World) : Prop := ∀ n, ∃ m ≥ n, (world m).timedOut

/-- The client stays connected. -/
def World.Connected (world : World) : Prop := ∀ n, (world n).poll = none

/-- The lock is granted, or the client hears that the trigger did not become ready in time. -/
def Stage.Answered (timeout : ℕ) : Stage → Prop
  | .granted => True
  | .failed error =>
      error = if timeout = 0 then "Trigger not ready" else "Timed out waiting for trigger"
  | _ => False

/-- The deadline can be handed to `pthread_cond_timedwait`, and is in the time of the request. -/
structure ValidDeadline (now : Timespec) (timeout : ℕ) (deadline : Timespec) : Prop where
  normalised : deadline.Normalised
  notBefore : now.sec ≤ deadline.sec
  bounded : deadline.total ≤ now.total + timeout * (nsecs / msecs)

/-- Whatever wakes the request up, its deadlines are valid, no assertion fails, and it is answered. -/
def RequestSound (now : Timespec) (timeout : ℕ) : Prop :=
  ∀ (target : Target) (world : World),
    (∀ n w, requestRun now timeout target world n = .waiting w →
      ValidDeadline now timeout w.nextTick) ∧
    (∀ n, requestRun now timeout target world n ≠ .aborted) ∧
    (world.Fair → world.Connected →
      ∃ n, (requestRun now timeout target world n).Answered timeout)

/-! ### The arithmetic of times -/

section times
variable {a b now : Timespec} {timeout : ℕ}

theorem compareTimespecLe_iff (ha : a.Normalised) (hb : b.Normalised) :
    compareTimespecLe a b ↔ a.total ≤ b.total := by
  unfold Timespec.Normalised nsecs at ha hb
  unfold compareTimespecLe Timespec.total nsecs
  split
  · exact iff_of_true rfl (by omega)
  · split
    · exact iff_of_false Bool.false_ne_true (by omega)
    · rw [decide_eq_true_iff]
      omega

theorem compareTimespecEq_iff : compareTimespecEq a b ↔ a = b := by
  unfold compareTimespecEq
  rw [Bool.and_eq_true, decide_eq_true_iff, decide_eq_true_iff]
  constructor
  · rintro ⟨hsec, hnsec⟩
    cases a
    cases b
    exact congrArg₂ Timespec.mk hsec hnsec
  · rintro rfl
    exact ⟨rfl, rfl⟩

/-- The sum is exact. -/
theorem addTimespec_total : (addTimespec a b).total = a.total + b.total := by
  unfold addTimespec Timespec.total nsecs
  dsimp only
  split <;> dsimp only <;> ring

theorem addTimespec_normalised (ha : a.Normalised) (hb : b.Normalised) :
    (addTimespec a b).Normalised := by
  unfold Timespec.Normalised nsecs at ha hb ⊢
  unfold addTimespec nsecs
  dsimp only
  split <;> dsimp only <;> omega

theorem addTimespec_sec :
    a.sec + b.sec ≤ (addTimespec a b).sec := by
  unfold addTimespec nsecs
  dsimp only
  split <;> dsimp only <;> omega

/-- A time that is not earlier in nanoseconds is not earlier in seconds. -/
theorem Timespec.sec_le (ha : a.Normalised) (hb : b.Normalised) (h : a.total ≤ b.total) :
    a.sec ≤ b.sec := by
  unfold Timespec.Normalised nsecs at ha hb
  unfold Timespec.total nsecs at h
  omega

theorem Timespec.eq_of_total (ha : a.Normalised) (hb : b.Normalised) (h : a.total = b.total) :
    a = b := by
  have hsec := le_antisymm (sec_le ha hb h.le) (sec_le hb ha h.ge)
  unfold Timespec.total at h
  rw [hsec] at h
  cases a
  cases b
  exact congrArg₂ Timespec.mk hsec (Int.add_left_cancel h)

theorem earliestTimespec_cases : earliestTimespec a b = a ∨ earliestTimespec a b = b := by
  unfold earliestTimespec
  split
  · exact .inl rfl
  · exact .inr rfl

theorem earliestTimespec_le (ha : a.Normalised) (hb : b.Normalised) :
    (earliestTimespec a b).total ≤ b.total := by
  unfold earliestTimespec
  split
  · rename_i h
    exact (compareTimespecLe_iff ha hb).mp h
  · exact le_rfl

theorem delta_normalised : (intervalToTimespec pollInterval 1).Normalised := by decide

theorem delta_total : (intervalToTimespec pollInterval 1).total = 10 * nsecs := by decide

theorem delta_sec : (intervalToTimespec pollInterval 1).sec = 10 := by decide

end times

/-! ### The final deadline -/

section final
variable {now : Timespec} {timeout : ℕ}

/-- What an admitted timeout becomes. -/
theorem cast_timeout (h : timeout < 2 ^ 32) : (timeout : ℤ).bmod (2 ^ 32) =
    if timeout < 2 ^ 31 then (timeout : ℤ) else timeout - 2 ^ 32 := by
  rw [Int.bmod_def]
  split <;> split <;> omega

/-- A timeout below `2 ^ 31` is taken as it is. -/
theorem requestDeadline_of_lt (hnow : now.Normalised) (h : timeout < 2 ^ 31) :
    (requestDeadline now timeout).Normalised ∧
      (requestDeadline now timeout).total = now.total + timeout * (nsecs / msecs) := by
  have hcast := @cast_timeout timeout (by omega)
  rw [if_pos h] at hcast
  have hdiv : (timeout : ℤ).tdiv 1000 = timeout / 1000 := Int.tdiv_eq_ediv_of_nonneg (by omega)
  have hmod : (timeout : ℤ).tmod 1000 = timeout % 1000 := Int.tmod_eq_emod_of_nonneg (by omega)
  have hinterval : intervalToTimespec timeout msecs = ⟨timeout / 1000, timeout % 1000 * 1000000⟩ := by
    unfold intervalToTimespec msecs nsecs
    rw [hdiv, hmod]
    rfl
  unfold requestDeadline
  rw [hcast, addTimespec_total, hinterval]
  refine ⟨addTimespec_normalised hnow ?_, ?_⟩
  · unfold Timespec.Normalised nsecs
    dsimp only
    omega
  · unfold Timespec.total nsecs msecs
    dsimp only
    omega

/-- A greater one is negative, and the nanoseconds are not normalised. -/
theorem requestDeadline_of_ge (hnow : now.Normalised) (h : 2 ^ 31 ≤ timeout)
    (hmax : timeout < 2 ^ 32) : requestDeadline now timeout = ⟨now.sec - (2 ^ 32 - timeout) / 1000,
      now.nsec - (2 ^ 32 - timeout) % 1000 * 1000000⟩ := by
  have hcast := cast_timeout hmax
  rw [if_neg (by omega)] at hcast
  have hneg : (timeout : ℤ) - 2 ^ 32 = -(2 ^ 32 - (timeout : ℤ)) := by ring
  have hdiv : (2 ^ 32 - (timeout : ℤ)).tdiv 1000 = (2 ^ 32 - (timeout : ℤ)) / 1000 :=
    Int.tdiv_eq_ediv_of_nonneg (by omega)
  have hmod : (2 ^ 32 - (timeout : ℤ)).tmod 1000 = (2 ^ 32 - (timeout : ℤ)) % 1000 :=
    Int.tmod_eq_emod_of_nonneg (by omega)
  have hinterval : intervalToTimespec (timeout - 2 ^ 32) msecs =
      ⟨-((2 ^ 32 - (timeout : ℤ)) / 1000), -((2 ^ 32 - (timeout : ℤ)) % 1000) * 1000000⟩ := by
    unfold intervalToTimespec msecs nsecs
    rw [hneg, Int.neg_tdiv, Int.neg_tmod, hdiv, hmod]
    rfl
  unfold requestDeadline
  rw [hcast, hinterval]
  unfold Timespec.Normalised nsecs at hnow
  unfold addTimespec nsecs
  dsimp only
  rw [if_neg (by omega)]
  exact congrArg₂ Timespec.mk (by ring) (by ring)

/-- The final deadline can be waited for, and is in no earlier second. -/
def Proper (now final : Timespec) : Prop := final.Normalised ∧ now.sec ≤ final.sec

/-- The timeouts whose deadline can be waited for. -/
def TimeoutFits (now : Timespec) (timeout : ℕ) : Prop :=
  timeout < 2 ^ 31 ∨ 2 ^ 32 - 1000 < timeout ∧ (2 ^ 32 - timeout) * 1000000 ≤ now.nsec

theorem proper_iff (hnow : now.Normalised) (hmax : timeout < 2 ^ 32) :
    Proper now (requestDeadline now timeout) ↔ TimeoutFits now timeout := by
  by_cases h : timeout < 2 ^ 31
  · obtain ⟨hnormalised, htotal⟩ := requestDeadline_of_lt hnow h
    refine iff_of_true ⟨hnormalised, Timespec.sec_le hnow hnormalised ?_⟩ (.inl h)
    unfold nsecs msecs at htotal
    omega
  · rw [requestDeadline_of_ge hnow (by omega) hmax]
    unfold Timespec.Normalised nsecs at hnow
    unfold Proper TimeoutFits Timespec.Normalised nsecs
    dsimp only
    omega

/-- It is never too late. -/
theorem requestDeadline_bounded (hnow : now.Normalised) (hmax : timeout < 2 ^ 32) :
    (requestDeadline now timeout).total ≤ now.total + timeout * (nsecs / msecs) := by
  by_cases h : timeout < 2 ^ 31
  · exact (requestDeadline_of_lt hnow h).2.le
  · rw [requestDeadline_of_ge hnow (by omega) hmax]
    unfold Timespec.Normalised nsecs at hnow
    unfold Timespec.total nsecs msecs
    dsimp only
    omega

end final

/-! ### The loop -/

section loop
variable {now : Timespec} {timeout n : ℕ} {target : Target} {world : World} {w w' : Wait}

theorem pwaitDeadline_of_normalised (h : w.nextTick.Normalised) (wakeup : Wakeup) :
    pwaitDeadline w.nextTick wakeup = some wakeup.timedOut := by
  unfold pwaitDeadline pthreadCondTimedwait
  rw [if_neg (not_not.mpr h)]
  cases wakeup.timedOut <;> rfl

/-- The deadline of the wait, where the final deadline can be waited for. -/
structure Wait.Sound (now final : Timespec) (w : Wait) : Prop where
  final_eq : w.finalDeadline = final
  proper : Proper now w.nextTick
  le : w.nextTick.total ≤ final.total

theorem Wait.Sound.tick {final : Timespec} (hfinal : Proper now final) (heq : w.finalDeadline = final)
    (h : Proper now w.nextTick) : w.tick.Sound now final := by
  obtain ⟨hnormalised, hsec⟩ := h
  have hnext : Proper now (addTimespec w.nextTick (intervalToTimespec pollInterval 1)) := by
    refine ⟨addTimespec_normalised hnormalised delta_normalised, ?_⟩
    have hadd := @addTimespec_sec w.nextTick (intervalToTimespec pollInterval 1)
    rw [delta_sec] at hadd
    omega
  subst heq
  refine ⟨rfl, ?_, earliestTimespec_le hnext.1 hfinal.1⟩
  unfold Wait.tick
  dsimp only
  rcases @earliestTimespec_cases (addTimespec w.nextTick (intervalToTimespec pollInterval 1))
    w.finalDeadline with h | h
  · rw [h]
    exact hnext
  · rw [h]
    exact hfinal

/-- What a return does to a wait with a deadline that is normalised. -/
theorem Wait.next_cases (h : w.nextTick.Normalised) (wakeup : Wakeup) :
    w.next wakeup = .granted ∨
    wakeup.timedOut = false ∧ w.next wakeup = .waiting w ∨
    w.next wakeup = .failed "Timed out waiting for trigger" ∨
    (∃ error, wakeup.poll = some error ∧ w.next wakeup = .failed error) ∨
    w.nextTick ≠ w.finalDeadline ∧ w.next wakeup = .waiting w.tick := by
  unfold Wait.next
  rw [pwaitDeadline_of_normalised h]
  dsimp only
  split_ifs with hready htimedOut hlast
  · exact .inl rfl
  · rw [Bool.not_eq_true'] at htimedOut
    exact .inr (.inl ⟨htimedOut, rfl⟩)
  · exact .inr (.inr (.inl rfl))
  · have hne : w.nextTick ≠ w.finalDeadline := fun heq => hlast (compareTimespecEq_iff.mpr heq)
    cases hpoll : wakeup.poll with
    | some error => exact .inr (.inr (.inr (.inl ⟨error, rfl, rfl⟩)))
    | none => exact .inr (.inr (.inr (.inr ⟨hne, rfl⟩)))

/-- A request with a proper deadline stays sound. -/
def Stage.Sound (now final : Timespec) : Stage → Prop
  | .waiting w => w.Sound now final
  | .aborted => False
  | _ => True

theorem first_sound (hnow : now.Normalised) (h : Proper now (requestDeadline now timeout)) :
    (Wait.first now timeout).Sound now (requestDeadline now timeout) :=
  .tick h rfl ⟨hnow, le_rfl⟩

theorem Stage.sound_start (hnow : now.Normalised) (h : Proper now (requestDeadline now timeout)) :
    (Stage.start now timeout target).Sound now (requestDeadline now timeout) := by
  unfold Stage.start
  split_ifs
  · trivial
  · trivial
  · exact first_sound hnow h

theorem Stage.Sound.next {final : Timespec} {stage : Stage} (hfinal : Proper now final)
    (h : stage.Sound now final) (wakeup : Wakeup) : (stage.next wakeup).Sound now final := by
  cases stage with
  | waiting w =>
      have hw : w.Sound now final := h
      change (w.next wakeup).Sound now final
      rcases Wait.next_cases hw.proper.1 wakeup with hnext | ⟨-, hnext⟩ | hnext |
        ⟨error, -, hnext⟩ | ⟨-, hnext⟩
      · rw [hnext]
        trivial
      · rw [hnext]
        exact h
      · rw [hnext]
        trivial
      · rw [hnext]
        trivial
      · rw [hnext]
        exact .tick hfinal hw.final_eq hw.proper
  | granted => trivial
  | failed error => trivial
  | aborted => exact h

theorem request_sound (hnow : now.Normalised) (h : Proper now (requestDeadline now timeout)) (n : ℕ) :
    (requestRun now timeout target world n).Sound now (requestDeadline now timeout) := by
  induction n with
  | zero => exact Stage.sound_start hnow h
  | succ n ih => exact ih.next h (world n)

/-- A tick that is not the last one leaves less time. -/
theorem Wait.Sound.progress {final : Timespec} (hfinal : Proper now final) (h : w.Sound now final)
    (hne : w.nextTick ≠ w.finalDeadline) :
    w.nextTick.total < w.tick.nextTick.total ∧ w.tick.nextTick.total ≤ final.total := by
  refine ⟨?_, (Wait.Sound.tick hfinal h.final_eq h.proper).le⟩
  have hlt : w.nextTick.total < final.total := by
    refine lt_of_le_of_ne h.le fun htotal => hne ?_
    rw [h.final_eq]
    exact Timespec.eq_of_total h.proper.1 hfinal.1 htotal
  unfold Wait.tick
  dsimp only
  rcases @earliestTimespec_cases (addTimespec w.nextTick (intervalToTimespec pollInterval 1))
    w.finalDeadline with heq | heq
  · rw [heq, addTimespec_total, delta_total]
    unfold nsecs
    omega
  · rw [heq, h.final_eq]
    exact hlt

/-- The wait goes on for no more ticks than there are, and each of them ends. -/
theorem wait_ends (hfinal : Proper now (requestDeadline now timeout)) (hfair : world.Fair)
    (hconnected : world.Connected) (hw : w.Sound now (requestDeadline now timeout))
    (hrun : requestRun now timeout target world n = .waiting w) :
    ∃ m, requestRun now timeout target world m = .granted ∨
      requestRun now timeout target world m = .failed "Timed out waiting for trigger" := by
  induction hleft : ((requestDeadline now timeout).total - w.nextTick.total).toNat using
    Nat.strong_induction_on generalizing n w with
  | _ left ih =>
      obtain ⟨m, hm, htimedOut⟩ := hfair n
      -- Until the time-out the wait stays as it is, or is over.
      induction hgap : m - n generalizing n with
      | zero =>
          obtain rfl : m = n := by omega
          have hnext : requestRun now timeout target world (m + 1) = w.next (world m) := by
            rw [requestRun, hrun]
            rfl
          rcases Wait.next_cases hw.proper.1 (world m) with h | ⟨hfalse, -⟩ | h |
            ⟨error, hpoll, -⟩ | ⟨hne, h⟩
          · exact ⟨m + 1, .inl (hnext.trans h)⟩
          · rw [htimedOut] at hfalse
            cases hfalse
          · exact ⟨m + 1, .inr (hnext.trans h)⟩
          · rw [hconnected m] at hpoll
            cases hpoll
          · obtain ⟨hlt, hle⟩ := hw.progress hfinal hne
            exact ih _ (by omega) (.tick hfinal hw.final_eq hw.proper) (hnext.trans h) rfl
      | succ gap ihgap =>
          have hnext : requestRun now timeout target world (n + 1) = w.next (world n) := by
            rw [requestRun, hrun]
            rfl
          rcases Wait.next_cases hw.proper.1 (world n) with h | ⟨-, h⟩ | h |
            ⟨error, hpoll, -⟩ | ⟨hne, h⟩
          · exact ⟨n + 1, .inl (hnext.trans h)⟩
          · exact ihgap (hnext.trans h) (by omega) (by omega)
          · exact ⟨n + 1, .inr (hnext.trans h)⟩
          · rw [hconnected n] at hpoll
            cases hpoll
          · obtain ⟨hlt, hle⟩ := hw.progress hfinal hne
            exact ih _ (by omega) (.tick hfinal hw.final_eq hw.proper) (hnext.trans h) rfl

end loop

/-! ### Requests -/

section requests
variable {now : Timespec} {timeout : ℕ} {target : Target} {world : World} {text rest : List Char}
  {args : LockParse} {t : TargetId} {c : Context}

/-- Every number of 32 bits is admitted. -/
theorem parseLock_lt : Returns parseLock fun args => args.timeout < 2 ^ 32 := by
  unfold parseLock
  refine .bind .trivial fun lock _ => .ite (fun _ => .bind .trivial fun wait _ => .ite (fun _ => ?_)
    fun _ => .pure (Nat.two_pow_pos 32)) fun _ => .pure (Nat.two_pow_pos 32)
  exact .bind parseUint_lt fun timeout h => .pure h

/-- How a request stands, in the terms of the state machine; `none` where the server has died. -/
def Stage.outcome : Stage → Option LockOutcome
  | .waiting _ => some .blocked
  | .granted => some .granted
  | .failed error => some (.failed error)
  | .aborted => none

/-- The start is that of the state machine. -/
theorem start_outcome :
    (Stage.start now timeout (c.targets t)).outcome = some (lockTriggerReady t timeout c).1 := by
  unfold Stage.start lockTriggerReady
  split_ifs <;> rfl

/-- So is a pass through the loop, if the deadline can be waited for. -/
theorem next_outcome {w : Wait} {wakeup : Wakeup} (h : w.nextTick.Normalised)
    (htarget : wakeup.target = c.targets t) : (w.next wakeup).outcome =
      some (waitTriggerReady t wakeup.timedOut w.lastTick wakeup.poll c).1 := by
  unfold Wait.next waitTriggerReady
  rw [pwaitDeadline_of_normalised h, htarget]
  dsimp only
  split_ifs
  · rfl
  · rfl
  · rfl
  · cases wakeup.poll <;> rfl

theorem RequestSound.of_proper (hnow : now.Normalised) (hmax : timeout < 2 ^ 32)
    (h : Proper now (requestDeadline now timeout)) : RequestSound now timeout := by
  intro target world
  refine ⟨fun n w hw => ?_, fun n hn => ?_, fun hfair hconnected => ?_⟩
  · have hsound := @request_sound now timeout target world hnow h n
    rw [hw] at hsound
    obtain ⟨-, hproper, hle⟩ := (hsound : w.Sound now (requestDeadline now timeout))
    exact ⟨hproper.1, hproper.2, hle.trans (requestDeadline_bounded hnow hmax)⟩
  · have hsound := @request_sound now timeout target world hnow h n
    rw [hn] at hsound
    exact hsound
  · cases hstart : Stage.start now timeout target with
    | granted =>
        refine ⟨0, ?_⟩
        change (Stage.start now timeout target).Answered timeout
        rw [hstart]
        trivial
    | failed error =>
        refine ⟨0, ?_⟩
        change (Stage.start now timeout target).Answered timeout
        rw [hstart]
        unfold Stage.start at hstart
        split_ifs at hstart with hready hzero
        cases hstart
        exact (if_pos hzero).symm
    | aborted =>
        unfold Stage.start at hstart
        split_ifs at hstart
    | waiting w =>
        have hsound := @Stage.sound_start now timeout target hnow h
        rw [hstart] at hsound
        have hne : timeout ≠ 0 := by
          rintro rfl
          unfold Stage.start at hstart
          split_ifs at hstart with hready hzero
          exact hzero rfl
        obtain ⟨m, hm | hm⟩ := wait_ends h hfair hconnected hsound
          (show requestRun now timeout target world 0 = .waiting w from hstart)
        · refine ⟨m, ?_⟩
          rw [hm]
          trivial
        · refine ⟨m, ?_⟩
          rw [hm]
          exact (if_neg hne).symm

/-- A target that is not ready. -/
def busyTarget : Target := ⟨.oneShot, false, .busy, 0⟩

/-- The first deadline of a request that is too long is its final one. -/
theorem first_of_ge (hnow : now.Normalised) (h : 2 ^ 31 ≤ timeout) (hmax : timeout < 2 ^ 32) :
    (Wait.first now timeout).nextTick = requestDeadline now timeout := by
  have hlater := @addTimespec_sec now (intervalToTimespec pollInterval 1)
  rw [delta_sec] at hlater
  have hfinal := congrArg Timespec.sec (requestDeadline_of_ge hnow h hmax)
  dsimp only at hfinal
  have hle : compareTimespecLe (addTimespec now (intervalToTimespec pollInterval 1))
      (requestDeadline now timeout) = false := by
    unfold compareTimespecLe
    rw [if_neg (by omega), if_pos (by omega)]
  change earliestTimespec (addTimespec now (intervalToTimespec pollInterval 1))
    (requestDeadline now timeout) = _
  unfold earliestTimespec
  rw [hle]
  exact if_neg Bool.false_ne_true

theorem RequestSound.proper (hnow : now.Normalised) (h : 2 ^ 31 ≤ timeout) (hmax : timeout < 2 ^ 32)
    (hsound : RequestSound now timeout) : Proper now (requestDeadline now timeout) := by
  obtain ⟨hvalid, -, -⟩ := hsound busyTarget fun _ => ⟨false, busyTarget, none⟩
  have hzero : timeout ≠ 0 := by omega
  have hstart : Stage.start now timeout busyTarget = .waiting (Wait.first now timeout) := by
    unfold Stage.start
    rw [if_neg (by decide), if_neg hzero]
  obtain ⟨hnormalised, hsec, -⟩ := hvalid 0 _ hstart
  rw [first_of_ge hnow h hmax] at hnormalised hsec
  exact ⟨hnormalised, hsec⟩

/-- Of the requests that the parser admits those are sound whose timeout is not negative as an `int`,
or is so small a negative number that the deadline stays in the second of the request. -/
theorem lock_deadlines_valid_iff (hparse : parseLock text = .ok args rest) (hnow : now.Normalised) :
    RequestSound now args.timeout ↔ TimeoutFits now args.timeout := by
  have hmax : args.timeout < 2 ^ 32 := parseLock_lt text args rest hparse
  rw [← proper_iff hnow hmax]
  constructor
  · intro hsound
    by_cases h : args.timeout < 2 ^ 31
    · exact (proper_iff hnow hmax).mpr (.inl h)
    · exact hsound.proper hnow (by omega) hmax
  · exact .of_proper hnow hmax

theorem lock_deadlines_valid_minute :
    RequestSound ⟨86400, 999999999⟩ 60000 ↔ TimeoutFits ⟨86400, 999999999⟩ 60000 :=
  lock_deadlines_valid_iff
    (show parseLock ['L', 'W', '6', '0', '0', '0', '0'] = .ok ⟨true, 60000⟩ [] from rfl) (by decide)

/-- A timeout of one millisecond less than `2 ^ 32` is admitted, and kills the server. -/
theorem lock_deadline_invalid :
    parseLock ['L', 'W', '4', '2', '9', '4', '9', '6', '7', '2', '9', '5'] = .ok ⟨true, 4294967295⟩ [] ∧
      requestRun ⟨86400, 0⟩ 4294967295 busyTarget (fun _ => ⟨true, busyTarget, none⟩) 1 matches
        .aborted ∧
      ¬ RequestSound ⟨86400, 0⟩ 4294967295 := by
  refine ⟨rfl, rfl, fun h => ?_⟩
  obtain ⟨-, hlive, -⟩ := h busyTarget fun _ => ⟨true, busyTarget, none⟩
  exact hlive 1 rfl

end requests

end Mbf.Trigger
