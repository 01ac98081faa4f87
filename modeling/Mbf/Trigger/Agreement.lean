import Mbf.Trigger.Locking
import Mbf.Trigger.Strobes

/-! # Agreement of the software with the hardware

For every target the software's idea of its state, the calls still to be made, the hardware and
the interrupts on their way fit together in one of a few ways (`Agrees`), as long as no disarm
races with the trigger: no disarm reaches the hardware while the target's trigger is on its way to
the engine or is not yet reported, nor in the clock in which the handler sends the trigger, or a
sequencer's handler accepts it (`Race`).  `Agrees`
then governs every step of a run, and gives the two facts that are wanted of it: the hardware
behind a lock is quiet, and no event finds its target in an unexpected state.

A step that races is not excluded by anything in the code, and what follows from one is shown
at the end. -/

namespace Mbf.Trigger

open Function

/-! ### Clocks of a port -/

/-- The two interrupts of a target. -/
inductive Report where
  | trigger
  | complete
deriving DecidableEq, Repr

/-- What the notice reports of `t`. -/
def Notice.report (t : TargetId) : Notice → Option Report
  | .readout _ => none
  | .trigger u => if u = t then some .trigger else none
  | .complete u => if u = t then some .complete else none

/-- The interrupts latched at a port, in the order they are dispatched. -/
def Port.latched (p : Port) : List Report :=
  (if p.triggerEvent then [.trigger] else []) ++ if p.doneEvent then [.complete] else []

section clock
variable {t : TargetId} {p : Port} {i : Surroundings}

theorem Engine.clock_still (t : TargetId) (e : Engine) : e.clock t false false false = e := by
  cases t <;> cases e <;> rfl

/-- Only a running engine stops in a clock, and only when it is told to. -/
theorem Engine.clock_busy (t : TargetId) (trigger start : Bool) (e : Engine) :
    ¬ (e ≠ .idle ∧ e.clock t trigger start false = .idle) := by
  cases t <;> cases e <;> cases trigger <;> cases start <;> decide

namespace Port

/-! Triggers on their way -/

/-- No trigger is on its way. -/
def Clear (t : TargetId) (p : Port) : Prop := ∀ k ≤ arrival t, p.line k = false

instance (t : TargetId) (p : Port) : Decidable (p.Clear t) :=
  inferInstanceAs (Decidable (∀ k ≤ arrival t, p.line k = false))

/-- One trigger is on its way. -/
def Flies (t : TargetId) (p : Port) : Prop :=
  ∃ k ≤ arrival t, ∀ j ≤ arrival t, p.line j = decide (j = k)

theorem Clear.trigger (h : p.Clear t) : p.trigger t = false := h (arrival t) le_rfl

/-- What comes before a place of the line. -/
theorem before_le {k : Fin 6} (hk : k ≤ arrival t) {h : k.val - 1 < 6} :
    (⟨k.val - 1, h⟩ : Fin 6) ≤ arrival t :=
  (show k.val - 1 ≤ (arrival t).val from (Nat.sub_le k.val 1).trans hk)

theorem Clear.shift (h : p.Clear t) : ∀ k ≤ arrival t, dlyline p.line false k = false := by
  intro k hk
  unfold dlyline
  split_ifs
  · rfl
  · exact h _ (before_le hk)

/-- A trigger is sent. -/
theorem Clear.send (h : p.Clear t) :
    ∀ k ≤ arrival t, dlyline p.line true k = decide (k = ⟨0, Nat.succ_pos 5⟩) := by
  intro k hk
  unfold dlyline
  split_ifs with hzero
  · exact (decide_eq_true (Fin.ext hzero)).symm
  · rw [h _ (before_le hk), eq_comm, decide_eq_false_iff_not, Fin.ext_iff]
    exact hzero

/-- A trigger arrives, or comes closer. -/
theorem Flies.shift (h : p.Flies t) :
    p.trigger t = true ∧ (∀ k ≤ arrival t, dlyline p.line false k = false) ∨
      p.trigger t = false ∧
        ∃ k ≤ arrival t, ∀ j ≤ arrival t, dlyline p.line false j = decide (j = k) := by
  obtain ⟨k, hk, hline⟩ := h
  have hbefore : ∀ j ≤ arrival t, dlyline p.line false j = decide (j.val = k.val + 1) := by
    intro j hj
    unfold dlyline
    split_ifs with hzero
    · rw [eq_comm, decide_eq_false_iff_not]
      omega
    · rw [hline _ (before_le hj), decide_eq_decide, Fin.ext_iff]
      dsimp only
      omega
  rcases hk.lt_or_eq with hlt | rfl
  · have hnext : k.val + 1 < 6 := by
      have hplace := (arrival t).isLt
      omega
    refine .inr ⟨?_, ⟨k.val + 1, hnext⟩, Nat.succ_le_of_lt hlt, fun j hj => ?_⟩
    · exact (hline _ le_rfl).trans (decide_eq_false hlt.ne')
    · rw [hbefore j hj, decide_eq_decide, Fin.ext_iff]
  · refine .inl ⟨(hline _ le_rfl).trans (decide_eq_true rfl), fun j hj => ?_⟩
    rw [hbefore j hj, decide_eq_false_iff_not]
    have hle : j.val ≤ (arrival t).val := hj
    omega

/-! Clocks -/

theorem ext_iff' {p q : Port} : p = q ↔ p.handler = q.handler ∧ p.line = q.line ∧
    p.engine = q.engine ∧ p.triggerEvent = q.triggerEvent ∧ p.doneEvent = q.doneEvent := by
  cases p; cases q; simp

/-- The port after a clock that starts and stops nothing. -/
theorem clock_eq {s : Option Strobe} (hs : ∀ start stop, s ≠ some (.capture start stop)) :
    p.clock t s i = ⟨p.handler.clock (input t s i),
      dlyline p.line (p.handler.triggerOut (input t s i)),
      p.engine.clock t (p.trigger t) false false,
      p.triggerEvent || p.trigger t, p.doneEvent⟩ := by
  have hbusy := Engine.clock_busy t (p.trigger t) false p.engine
  cases s with
  | none => simp [clock, hbusy]
  | some x =>
      cases x with
      | capture start stop => exact absurd rfl (hs start stop)
      | _ => simp [clock, hbusy]

/-- An idle handler sends nothing, and is moved only by an arm or a fire. -/
theorem handler_idle {s : Option Strobe} (hidle : p.handler.trigState = .idle) :
    p.handler.triggerOut (input t s i) = false := by
  simp [Handler.triggerOut, hidle]

theorem handler_still {s : Option Strobe} (hs : s = none ∨ s = some .disarm)
    (hidle : p.handler.trigState = .idle) : p.handler.clock (input t s i) = p.handler := by
  rcases hs with rfl | rfl <;> simp [Handler.clock, hidle, input]

theorem clock_idle {s : Option Strobe} (hs : s = none ∨ s = some .disarm)
    (hidle : p.handler.trigState = .idle) (hclear : p.Clear t) :
    p.clock t s i = { p with line := dlyline p.line false } := by
  rw [clock_eq (by rcases hs with rfl | rfl <;> simp), handler_still hs hidle, handler_idle hidle,
    hclear.trigger, Engine.clock_still, Bool.or_false]

theorem clock_arm (hidle : p.handler.trigState = .idle) (hclear : p.Clear t) :
    p.clock t (some .arm) i =
      { p with handler := { p.handler with trigState := .armed }
               line := dlyline p.line false } := by
  rw [clock_eq (by simp), handler_idle hidle, hclear.trigger, Engine.clock_still, Bool.or_false]
  simp [Handler.clock, hidle, input]

theorem clock_fire (hidle : p.handler.trigState = .idle) (hclear : p.Clear t) :
    p.clock t (some .fire) i =
      { p with handler := ⟨.triggered, i.delay t⟩
               line := dlyline p.line false } := by
  rw [clock_eq (by simp), handler_idle hidle, hclear.trigger, Engine.clock_still, Bool.or_false]
  simp [Handler.clock, hidle, input]

theorem clock_capture (hidle : p.handler.trigState = .idle) (hengine : p.engine = .idle)
    (hclear : p.Clear .dram) :
    p.clock .dram (some (.capture true false)) i =
      { p with engine := .running
               line := dlyline p.line false } := by
  rw [ext_iff']
  simp [clock, Handler.clock, Handler.triggerOut, hclear.trigger, hidle, hengine, input,
    Engine.clock]

/-- The trigger on its way comes closer, or starts the engine. -/
theorem clock_flies (hidle : p.handler.trigState = .idle) (hflies : p.Flies t) :
    (∃ line : Fin 6 → Bool, p.clock t none i = { p with line := line } ∧
      ({ p with line := line } : Port).Flies t) ∨
    ∃ line : Fin 6 → Bool, p.clock t none i =
        { p with line := line, engine := p.engine.clock t true false false, triggerEvent := true } ∧
      ({ p with line := line } : Port).Clear t := by
  rw [clock_eq (by simp), handler_still (.inl rfl) hidle, handler_idle hidle]
  rcases hflies.shift with ⟨hnow, hclear⟩ | ⟨hnot, hflies⟩
  · refine .inr ⟨dlyline p.line false, ?_, hclear⟩
    rw [hnow, Bool.or_true]
  · refine .inl ⟨dlyline p.line false, ?_, hflies⟩
    rw [hnot, Engine.clock_still, Bool.or_false]

/-- A handler that waits keeps waiting, or sends its trigger. -/
theorem clock_waiting {s : Option Strobe}
    (hs : s = none ∨ s = some .fire ∧ p.handler.trigState = .triggered)
    (hwait : p.handler.trigState ≠ .idle) (hclear : p.Clear t) :
    ∃ (h : Handler) (line : Fin 6 → Bool), p.clock t s i = { p with handler := h, line := line } ∧
      (h.trigState ≠ .idle ∧ (p.handler.trigState = .triggered → h.trigState = .triggered) ∧
        ({ p with handler := h, line := line } : Port).Clear t ∨
      h.trigState = .idle ∧ ({ p with handler := h, line := line } : Port).Flies t) := by
  rw [clock_eq (by rcases hs with rfl | ⟨rfl, _⟩ <;> simp), hclear.trigger, Engine.clock_still,
    Bool.or_false]
  refine ⟨_, _, rfl, ?_⟩
  by_cases hout : p.handler.triggerOut (input t s i) = true
  · refine .inr ⟨?_, ⟨0, Nat.succ_pos 5⟩, Nat.zero_le _, ?_⟩
    · simp only [Handler.triggerOut, input, Bool.and_eq_true, decide_eq_true_eq] at hout
      obtain ⟨⟨hturn, htrig⟩, hcount⟩ := hout
      rcases hs with rfl | ⟨rfl, _⟩ <;> simp [Handler.clock, htrig, hcount, hturn, input]
    · rw [hout]
      exact hclear.send
  · rw [Bool.not_eq_true] at hout
    refine .inl ⟨?_, ?_, ?_⟩
    · cases htrig : p.handler.trigState with
      | idle => exact absurd htrig hwait
      | armed =>
          rcases hs with rfl | ⟨rfl, h⟩
          · simp only [Handler.clock, htrig, input]
            split_ifs <;> simp_all
          · rw [htrig] at h; cases h
      | triggered =>
          rcases hs with rfl | ⟨rfl, _⟩ <;>
            · simp only [Handler.triggerOut, input, htrig] at hout
              simp only [Handler.clock, htrig, input]
              split_ifs <;> simp_all
    · intro htrig
      rcases hs with rfl | ⟨rfl, _⟩ <;>
        · simp only [Handler.triggerOut, input, htrig] at hout
          simp only [Handler.clock, htrig, input]
          split_ifs <;> simp_all
    · rw [hout]
      exact hclear.shift

/-- A disarm in a clock where no trigger is sent stops the handler, unless a trigger is accepted
in that clock. -/
theorem clock_disarm (hout : p.handler.triggerOut (input t (some .disarm) i) = false)
    (hclear : p.Clear t) :
    ∃ h : Handler,
      p.clock t (some .disarm) i = { p with handler := h, line := dlyline p.line false } ∧
      (h.trigState = .idle ∨ h.trigState = .triggered ∧ p.handler.trigState = .armed ∧
        i.trigger t = true) := by
  rw [clock_eq (by simp), hout, hclear.trigger, Engine.clock_still, Bool.or_false]
  refine ⟨_, rfl, ?_⟩
  cases htrig : p.handler.trigState with
  | idle => exact .inl (by simp [Handler.clock, htrig, input])
  | armed =>
      cases hacc : i.trigger t with
      | true => exact .inr ⟨by simp [Handler.clock, htrig, input, hacc], rfl, rfl⟩
      | false => exact .inl (by simp [Handler.clock, htrig, input, hacc])
  | triggered => exact .inl (by simp [Handler.clock, htrig, input])

/-- A latched trigger stays latched. -/
theorem clock_latched {s : Option Strobe} (h : Report.trigger ∈ p.latched) :
    Report.trigger ∈ (p.clock t s i).latched := by
  have hevent : p.triggerEvent = true := by
    by_contra hne
    simp [latched, hne] at h
  simp [latched, clock, hevent]

end Port

end clock

/-! ### Agreement -/

/-- The state of the engine of an armed target. -/
def readyEngine : TargetId → Engine
  | .dram => .running
  | _ => .idle

/-- The trigger of `t` was sent, and is not known to the software: it is on its way, or is to be
reported. -/
def Sent (t : TargetId) (p : Port) (reports : List Report) : Prop :=
  .trigger ∈ reports ∨ ∃ k ≤ arrival t, p.line k = true

instance (t : TargetId) (p : Port) (reports : List Report) : Decidable (Sent t p reports) :=
  inferInstanceAs (Decidable (_ ∨ ∃ k ≤ arrival t, p.line k = true))

/-- How the state of target `t`, the strobes `w` still to be raised at it, its hardware and its
undispatched reports fit together.  `held` says that somebody holds a lock on it. -/
inductive Agrees (t : TargetId) (held : Prop) (s : TargetState) (w : List Strobe) (p : Port)
    (reports : List Report) : Prop
  /-- At rest, perhaps with a disarm still to be written. -/
  | rest (state : s.Ready) (todo : w = [] ∨ w = [.disarm]) (handler : p.handler.trigState = .idle)
      (clear : p.Clear t) (engine : p.engine = .idle) (none : reports = [])
  /-- Disarmed in software, but not in hardware: either the trigger is still to come, or it
  was sent already and is to be reported. -/
  | cancelling (target : t ≠ .dram) (free : ¬ held) (state : s = .idle) (todo : w = [.disarm])
      (race : p.handler.trigState ≠ .idle ∧ p.Clear t ∧ p.engine = .idle ∧ reports = [] ∨
        Sent t p reports)
  /-- Armed in software, and the capture of the memory still to be started. -/
  | preparing (target : t = .dram) (state : s = .armed)
      (todo : w = [.capture true false, .arm] ∨ w = [.capture true false, .fire])
      (handler : p.handler.trigState = .idle) (clear : p.Clear t) (engine : p.engine = .idle)
      (none : reports = [])
  /-- Armed in software, and the handler still to be armed. -/
  | arming (state : s = .armed) (todo : w = [.arm]) (handler : p.handler.trigState = .idle)
      (clear : p.Clear t) (engine : p.engine = readyEngine t) (none : reports = [])
  /-- The memory still to be fired, or fired by a trigger that came in time. -/
  | firing (target : t = .dram) (state : s = .armed) (todo : w = [.fire])
      (handler : p.handler.trigState ≠ .armed) (clear : p.Clear t) (engine : p.engine = .running)
      (none : reports = [])
  /-- Waiting for the trigger. -/
  | waiting (state : s = .armed) (todo : w = []) (handler : p.handler.trigState ≠ .idle)
      (clear : p.Clear t) (engine : p.engine = readyEngine t) (none : reports = [])
  /-- A disarm of the armed memory, which is to be stopped by firing it. -/
  | forcing (target : t = .dram) (state : s = .armed) (todo : w = [.disarm, .fire])
      (race : p.handler.trigState ≠ .idle ∧ p.Clear t ∧ p.engine = .running ∧ reports = [] ∨
        Sent t p reports)
  /-- The memory was triggered before it could be fired. -/
  | forced (target : t = .dram) (state : s = .armed) (todo : w = [.fire])
      (race : Sent t p reports)
  /-- The trigger is on its way to the engine. -/
  | sent (state : s = .armed) (todo : w = []) (handler : p.handler.trigState = .idle)
      (flies : p.Flies t) (engine : p.engine = readyEngine t) (none : reports = [])
  /-- Capturing, the trigger to be reported. -/
  | triggered (state : s = .armed) (todo : w = []) (handler : p.handler.trigState = .idle)
      (clear : p.Clear t) (engine : p.engine = .runout) (some : reports = [.trigger])
  /-- Done, both to be reported. -/
  | finished (state : s = .armed) (todo : w = []) (handler : p.handler.trigState = .idle)
      (clear : p.Clear t) (engine : p.engine = .idle) (some : reports = [.trigger, .complete])
  /-- Capturing, as the software knows. -/
  | busy (state : s = .busy) (todo : w = [] ∨ w = [.disarm])
      (handler : p.handler.trigState = .idle) (clear : p.Clear t) (engine : p.engine = .runout)
      (none : reports = [])
  /-- Done, to be reported. -/
  | done (state : s = .busy) (todo : w = [] ∨ w = [.disarm])
      (handler : p.handler.trigState = .idle) (clear : p.Clear t) (engine : p.engine = .idle)
      (some : reports = [.complete])

/-- A strobe that comes too late, after the target's trigger was sent (and before this is
known), or in the very clock where it is sent, or accepted by a sequencer's handler. -/
def RaceAt (t : TargetId) (x : Strobe) (i : Surroundings) (p : Port) (reports : List Report) :
    Prop :=
  (x = .disarm ∨ x = .fire) ∧ Sent t p reports ∨
    x = .disarm ∧ (p.handler.triggerOut (Port.input t (some x) i) = true ∨
      t ≠ .dram ∧ p.handler.trigState = .armed ∧ i.trigger t = true)

instance (t : TargetId) (x : Strobe) (i : Surroundings) (p : Port) (reports : List Report) :
    Decidable (RaceAt t x i p reports) := inferInstanceAs (Decidable (_ ∨ _))

section agrees
variable {t : TargetId} {held : Prop} {s : TargetState} {w : List Strobe} {p : Port}
  {r : List Report} {i : Surroundings}

theorem latched_nil (h : r ++ p.latched = []) : p.triggerEvent = false ∧ p.doneEvent = false := by
  have := (List.append_eq_nil_iff.mp h).2
  unfold Port.latched at this
  cases ht : p.triggerEvent <;> cases hd : p.doneEvent <;> simp_all

/-- The reports after the trigger has arrived. -/
theorem reports_trigger (none : r ++ p.latched = []) (h : Handler) (line : Fin 6 → Bool)
    (e : Engine) : r ++ Port.latched ⟨h, line, e, true, p.doneEvent⟩ = [.trigger] := by
  obtain ⟨_, hdone⟩ := latched_nil none
  rw [(List.append_eq_nil_iff.mp none).1]
  simp [Port.latched, hdone]

theorem Port.Flies.sent (h : p.Flies t) : Sent t p r := by
  obtain ⟨k, hk, hline⟩ := h
  exact .inr ⟨k, hk, (hline k hk).trans (decide_eq_true rfl)⟩

/-- A trigger that was sent stays on its way until it is reported. -/
theorem Sent.clock {x : Option Strobe} (h : Sent t p (r ++ p.latched)) :
    Sent t (p.clock t x i) (r ++ (p.clock t x i).latched) := by
  rcases h with h | ⟨k, hk, hline⟩
  · left
    rcases List.mem_append.mp h with h | h
    · exact List.mem_append_left _ h
    · exact List.mem_append_right _ (Port.clock_latched h)
  · rcases hk.lt_or_eq with hlt | rfl
    · have hnext : k.val + 1 < 6 := by
        have hplace := (arrival t).isLt
        omega
      exact .inr ⟨⟨k.val + 1, hnext⟩, Nat.succ_le_of_lt hlt, hline⟩
    · left
      refine List.mem_append_right _ (List.mem_append_left _ ?_)
      have hevent : (p.clock t x i).triggerEvent = true := by
        simp [Port.clock, Port.trigger, hline]
      simp [hevent]

/-- Reading the interrupts clears them. -/
theorem Agrees.cleared {reports : List Report} (h : Agrees t held s w p reports) :
    Agrees t held s w { p with triggerEvent := false, doneEvent := false } reports := by
  cases h with
  | rest state todo handler clear engine none => exact .rest state todo handler clear engine none
  | cancelling target free state todo race => exact .cancelling target free state todo race
  | preparing target state todo handler clear engine none =>
      exact .preparing target state todo handler clear engine none
  | arming state todo handler clear engine none =>
      exact .arming state todo handler clear engine none
  | firing target state todo handler clear engine none =>
      exact .firing target state todo handler clear engine none
  | waiting state todo handler clear engine none =>
      exact .waiting state todo handler clear engine none
  | forcing target state todo race => exact .forcing target state todo race
  | forced target state todo race => exact .forced target state todo race
  | sent state todo handler flies engine none => exact .sent state todo handler flies engine none
  | triggered state todo handler clear engine some =>
      exact .triggered state todo handler clear engine some
  | finished state todo handler clear engine some =>
      exact .finished state todo handler clear engine some
  | busy state todo handler clear engine none => exact .busy state todo handler clear engine none
  | done state todo handler clear engine some => exact .done state todo handler clear engine some

/-- A clock in which nothing is written at `t`. -/
theorem Agrees.clock (h : Agrees t held s w p (r ++ p.latched)) (i : Surroundings) :
    Agrees t held s w (p.clock t none i) (r ++ (p.clock t none i).latched) := by
  have hidle (hi : p.handler.trigState = .idle) (hc : p.Clear t) :
      p.clock t none i = { p with line := dlyline p.line false } := Port.clock_idle (.inl rfl) hi hc
  have hwait := fun hw hc => Port.clock_waiting (t := t) (p := p) (i := i) (.inl rfl) hw hc
  cases h with
  | rest state todo handler clear engine none =>
      rw [hidle handler clear]; exact .rest state todo handler clear.shift engine none
  | preparing target state todo handler clear engine none =>
      rw [hidle handler clear]; exact .preparing target state todo handler clear.shift engine none
  | arming state todo handler clear engine none =>
      rw [hidle handler clear]; exact .arming state todo handler clear.shift engine none
  | triggered state todo handler clear engine some =>
      rw [hidle handler clear]; exact .triggered state todo handler clear.shift engine some
  | finished state todo handler clear engine some =>
      rw [hidle handler clear]; exact .finished state todo handler clear.shift engine some
  | busy state todo handler clear engine none =>
      rw [hidle handler clear]; exact .busy state todo handler clear.shift engine none
  | done state todo handler clear engine some =>
      rw [hidle handler clear]; exact .done state todo handler clear.shift engine some
  | forced target state todo race => exact .forced target state todo race.clock
  | cancelling target free state todo race =>
      rcases race with ⟨handler, clear, engine, none⟩ | race
      · obtain ⟨h, line, heq, ⟨hh, _, hclear⟩ | ⟨_, hflies⟩⟩ := hwait handler clear
        · rw [heq]; exact .cancelling target free state todo (.inl ⟨hh, hclear, engine, none⟩)
        · rw [heq]; exact .cancelling target free state todo (.inr hflies.sent)
      · exact .cancelling target free state todo (.inr race.clock)
  | forcing target state todo race =>
      rcases race with ⟨handler, clear, engine, none⟩ | race
      · obtain ⟨h, line, heq, ⟨hh, _, hclear⟩ | ⟨_, hflies⟩⟩ := hwait handler clear
        · rw [heq]; exact .forcing target state todo (.inl ⟨hh, hclear, engine, none⟩)
        · rw [heq]; exact .forcing target state todo (.inr hflies.sent)
      · exact .forcing target state todo (.inr race.clock)
  | firing target state todo handler clear engine none =>
      cases htrig : p.handler.trigState with
      | idle =>
          rw [hidle htrig clear]
          exact .firing target state todo handler clear.shift engine none
      | armed => exact absurd htrig handler
      | triggered =>
          obtain ⟨h, line, heq, ⟨_, hh, hclear⟩ | ⟨_, hflies⟩⟩ := hwait (by simp [htrig]) clear
          · rw [heq]; exact .firing target state todo (by simp [hh htrig]) hclear engine none
          · rw [heq]; exact .forced target state todo hflies.sent
  | waiting state todo handler clear engine none =>
      obtain ⟨h, line, heq, ⟨hh, _, hclear⟩ | ⟨hh, hflies⟩⟩ := hwait handler clear
      · rw [heq]; exact .waiting state todo hh hclear engine none
      · rw [heq]; exact .sent state todo hh hflies engine none
  | sent state todo handler flies engine none =>
      rcases Port.clock_flies (i := i) handler flies with ⟨line, heq, hflies⟩ | ⟨line, heq, hclear⟩
      · rw [heq]; exact .sent state todo handler hflies engine none
      · rw [heq]
        refine .triggered state todo handler hclear ?_ (reports_trigger none ..)
        cases t <;> simp [engine, readyEngine, Engine.clock]

/-- A clock in which the next strobe is raised at `t`, in time. -/
theorem Agrees.strobe {x : Strobe} (h : Agrees t held s (x :: w) p (r ++ p.latched))
    (hrace : ¬ RaceAt t x i p (r ++ p.latched)) :
    Agrees t held s w (p.clock t (some x) i) (r ++ (p.clock t (some x) i).latched) := by
  have hlate (hx : x = .disarm ∨ x = .fire) : ¬ Sent t p (r ++ p.latched) :=
    fun hsent => hrace (.inl ⟨hx, hsent⟩)
  have hsend (hx : x = .disarm) : p.handler.triggerOut (Port.input t (some .disarm) i) = false := by
    subst hx
    rw [← Bool.not_eq_true]
    exact fun hsent => hrace (.inr ⟨rfl, .inl hsent⟩)
  cases h with
  | rest state todo handler clear engine none =>
      rcases todo with todo | todo
      · cases todo
      · cases todo
        rw [Port.clock_idle (.inr rfl) handler clear]
        exact .rest state (.inl rfl) handler clear.shift engine none
  | busy state todo handler clear engine none =>
      rcases todo with todo | todo
      · cases todo
      · cases todo
        rw [Port.clock_idle (.inr rfl) handler clear]
        exact .busy state (.inl rfl) handler clear.shift engine none
  | done state todo handler clear engine some =>
      rcases todo with todo | todo
      · cases todo
      · cases todo
        rw [Port.clock_idle (.inr rfl) handler clear]
        exact .done state (.inl rfl) handler clear.shift engine some
  | cancelling target free state todo race =>
      cases todo
      rcases race with ⟨_, clear, engine, none⟩ | race
      · obtain ⟨h, heq, hh | ⟨_, harmed, hacc⟩⟩ := Port.clock_disarm (hsend rfl) clear
        · rw [heq]
          exact .rest (.inl state) (.inl rfl) hh clear.shift engine none
        · exact absurd (.inr ⟨rfl, .inr ⟨target, harmed, hacc⟩⟩) hrace
      · exact absurd race (hlate (.inl rfl))
  | preparing target state todo handler clear engine none =>
      subst target
      rcases todo with todo | todo
      · cases todo
        rw [Port.clock_capture handler engine clear]
        exact .arming state rfl handler clear.shift rfl none
      · cases todo
        rw [Port.clock_capture handler engine clear]
        exact .firing rfl state rfl (by simp [handler]) clear.shift rfl none
  | arming state todo handler clear engine none =>
      cases todo
      rw [Port.clock_arm handler clear]
      exact .waiting state rfl (by simp) clear.shift engine none
  | firing target state todo handler clear engine none =>
      cases todo
      cases htrig : p.handler.trigState with
      | idle =>
          rw [Port.clock_fire htrig clear]
          exact .waiting state rfl (by simp) clear.shift (by rw [target]; exact engine) none
      | armed => exact absurd htrig handler
      | triggered =>
          obtain ⟨h, line, heq, ⟨hh, _, hclear⟩ | ⟨hh, hflies⟩⟩ :=
            Port.clock_waiting (t := t) (i := i) (.inr ⟨rfl, htrig⟩) (by simp [htrig]) clear
          · rw [heq]
            exact .waiting state rfl hh hclear (by rw [target]; exact engine) none
          · rw [heq]
            exact .sent state rfl hh hflies (by rw [target]; exact engine) none
  | waiting state todo handler clear engine none => cases todo
  | forcing target state todo race =>
      cases todo
      rcases race with ⟨_, clear, engine, none⟩ | race
      · obtain ⟨h, heq, hh | ⟨hh, _⟩⟩ := Port.clock_disarm (hsend rfl) clear
        · rw [heq]
          exact .firing target state rfl (by simp [hh]) clear.shift engine none
        · rw [heq]
          exact .firing target state rfl (by simp [hh]) clear.shift engine none
      · exact absurd race (hlate (.inl rfl))
  | forced target state todo race =>
      cases todo
      exact absurd race (hlate (.inr rfl))
  | sent state todo handler flies engine none => cases todo
  | triggered state todo handler clear engine some => cases todo
  | finished state todo handler clear engine some => cases todo

/-- The end of the engine's run. -/
theorem Agrees.finish (h : Agrees t held s w p (r ++ p.latched)) {q : Port}
    (hq : p.finish = some q) : Agrees t held s w q (r ++ q.latched) := by
  unfold Port.finish at hq
  split_ifs at hq with hrun
  simp only [Option.some.injEq] at hq
  subst hq
  have hsent {q : Port} (hline : q.line = p.line) (hq : q.triggerEvent = p.triggerEvent)
      (h : Sent t p (r ++ p.latched)) : Sent t q (r ++ q.latched) := by
    rcases h with h | ⟨k, hk, h⟩
    · left
      rcases List.mem_append.mp h with h | h
      · exact List.mem_append_left _ h
      · refine List.mem_append_right _ (List.mem_append_left _ ?_)
        cases ht : p.triggerEvent with
        | false => simp [Port.latched, ht] at h
        | true => simp [hq, ht]
    · exact .inr ⟨k, hk, by rw [hline, h]⟩
  cases h with
  | rest state todo handler clear engine none => simp [engine] at hrun
  | preparing target state todo handler clear engine none => simp [engine] at hrun
  | arming state todo handler clear engine none => cases t <;> simp [engine, readyEngine] at hrun
  | firing target state todo handler clear engine none => simp [engine] at hrun
  | waiting state todo handler clear engine none => cases t <;> simp [engine, readyEngine] at hrun
  | sent state todo handler flies engine none => cases t <;> simp [engine, readyEngine] at hrun
  | finished state todo handler clear engine some => simp [engine] at hrun
  | done state todo handler clear engine some => simp [engine] at hrun
  | cancelling target free state todo race =>
      rcases race with ⟨_, _, engine, _⟩ | race
      · simp [engine] at hrun
      · exact .cancelling target free state todo (.inr (hsent rfl rfl race))
  | forcing target state todo race =>
      rcases race with ⟨_, _, engine, _⟩ | race
      · simp [engine] at hrun
      · exact .forcing target state todo (.inr (hsent rfl rfl race))
  | forced target state todo race => exact .forced target state todo (hsent rfl rfl race)
  | triggered state todo handler clear engine some =>
      refine .finished state todo handler clear rfl ?_
      -- The report of the trigger is either read already or still latched.
      cases ht : p.triggerEvent <;> cases hd : p.doneEvent <;>
        simp_all [Port.latched, List.append_eq_cons_iff]
  | busy state todo handler clear engine none =>
      refine .done state todo handler clear rfl ?_
      obtain ⟨ht, _⟩ := latched_nil none
      rw [(List.append_eq_nil_iff.mp none).1]
      simp [Port.latched, ht]

/-- A target that is armed or busy is left as it is. -/
theorem stay_of_not_ready {s' : TargetState} (hu : Upkeep t s w s') (hs : ¬ s.Ready) :
    w = [] ∧ s' = s := by
  cases hu with
  | stay => exact ⟨rfl, rfl⟩
  | ready h _ => exact absurd h hs
  | arm h => exact absurd h hs

theorem not_ready_armed : ¬ TargetState.Ready .armed := by simp [TargetState.Ready]

theorem not_ready_busy : ¬ TargetState.Ready .busy := by simp [TargetState.Ready]

/-- A function that keeps the target up. -/
theorem Agrees.keepUp {held' : Prop} {s' : TargetState} {r : List Report}
    (h : Agrees t held s [] p r) (hu : Upkeep t s w s') : Agrees t held' s' w p r := by
  cases h with
  | rest state todo handler clear engine none =>
      cases hu with
      | stay => exact .rest state todo handler clear engine none
      | ready _ state' => exact .rest state' todo handler clear engine none
      | arm _ =>
          cases t with
          | dram => exact .preparing rfl rfl (.inl rfl) handler clear engine none
          | seq0 => exact .arming rfl rfl handler clear engine none
          | seq1 => exact .arming rfl rfl handler clear engine none
  | waiting state todo handler clear engine none =>
      subst state
      obtain ⟨rfl, rfl⟩ := stay_of_not_ready hu not_ready_armed
      exact .waiting rfl todo handler clear engine none
  | sent state todo handler flies engine none =>
      subst state
      obtain ⟨rfl, rfl⟩ := stay_of_not_ready hu not_ready_armed
      exact .sent rfl todo handler flies engine none
  | triggered state todo handler clear engine some =>
      subst state
      obtain ⟨rfl, rfl⟩ := stay_of_not_ready hu not_ready_armed
      exact .triggered rfl todo handler clear engine some
  | finished state todo handler clear engine some =>
      subst state
      obtain ⟨rfl, rfl⟩ := stay_of_not_ready hu not_ready_armed
      exact .finished rfl todo handler clear engine some
  | busy state todo handler clear engine none =>
      subst state
      obtain ⟨rfl, rfl⟩ := stay_of_not_ready hu not_ready_busy
      exact .busy rfl todo handler clear engine none
  | done state todo handler clear engine some =>
      subst state
      obtain ⟨rfl, rfl⟩ := stay_of_not_ready hu not_ready_busy
      exact .done rfl todo handler clear engine some
  | cancelling _ _ _ todo _ => cases todo
  | preparing _ _ todo _ _ _ _ => rcases todo with todo | todo <;> cases todo
  | arming _ todo _ _ _ _ => cases todo
  | firing _ _ todo _ _ _ _ => cases todo
  | forcing _ _ todo _ => cases todo
  | forced _ _ todo _ => cases todo

/-- An armed target to which nothing is still to be written. -/
theorem Agrees.armed {r : List Report} (h : Agrees t held .armed [] p r) :
    p.handler.trigState ≠ .idle ∧ p.Clear t ∧ p.engine = readyEngine t ∧ r = [] ∨ Sent t p r := by
  cases h with
  | waiting _ _ handler clear engine none => exact .inl ⟨handler, clear, engine, none⟩
  | sent _ _ _ flies _ _ => exact .inr flies.sent
  | triggered _ _ _ _ _ some => exact .inr (.inl (by simp [some]))
  | finished _ _ _ _ _ some => exact .inr (.inl (by simp [some]))
  | rest state _ _ _ _ _ => simp [TargetState.Ready] at state
  | cancelling _ _ state _ _ => cases state
  | preparing _ _ todo _ _ _ _ => rcases todo with todo | todo <;> cases todo
  | arming _ todo _ _ _ _ => cases todo
  | firing _ _ todo _ _ _ _ => cases todo
  | forcing _ _ todo _ => cases todo
  | forced _ _ todo _ => cases todo
  | busy state _ _ _ _ _ => cases state
  | done state _ _ _ _ _ => cases state

/-- A ready target is at rest, or its disarm has still to be written. -/
theorem Agrees.ready_cases {r : List Report} (h : Agrees t held s w p r) (hs : s.Ready) :
    p.handler.trigState = .idle ∧ p.Clear t ∧ p.engine = .idle ∧ r = [] ∨
      ¬ held ∧ w = [.disarm] := by
  cases h with
  | rest _ _ handler clear engine none => exact .inl ⟨handler, clear, engine, none⟩
  | cancelling _ free _ todo _ => exact .inr ⟨free, todo⟩
  | preparing _ state _ _ _ _ _ => exact absurd (state ▸ hs) not_ready_armed
  | arming state _ _ _ _ _ => exact absurd (state ▸ hs) not_ready_armed
  | firing _ state _ _ _ _ _ => exact absurd (state ▸ hs) not_ready_armed
  | waiting state _ _ _ _ _ => exact absurd (state ▸ hs) not_ready_armed
  | forcing _ state _ _ => exact absurd (state ▸ hs) not_ready_armed
  | forced _ state _ _ => exact absurd (state ▸ hs) not_ready_armed
  | sent state _ _ _ _ _ => exact absurd (state ▸ hs) not_ready_armed
  | triggered state _ _ _ _ _ => exact absurd (state ▸ hs) not_ready_armed
  | finished state _ _ _ _ _ => exact absurd (state ▸ hs) not_ready_armed
  | busy state _ _ _ _ _ => exact absurd (state ▸ hs) not_ready_busy
  | done state _ _ _ _ _ => exact absurd (state ▸ hs) not_ready_busy

/-- A ready target to which nothing is still to be written. -/
theorem Agrees.ready {r : List Report} (h : Agrees t held s [] p r) (hs : s.Ready) :
    p.handler.trigState = .idle ∧ p.Clear t ∧ p.engine = .idle ∧ r = [] := by
  rcases h.ready_cases hs with hrest | ⟨-, htodo⟩
  · exact hrest
  · cases htodo

/-- A disarm or an immediate capture. -/
theorem Agrees.command {held' : Prop} {s' : TargetState} {r : List Report}
    (h : Agrees t held s [] p r) (hc : Commands t s w s') (hfree : s = .armed → ¬ held') :
    Agrees t held' s' w p r := by
  cases hc with
  | disarm hs hs' =>
      obtain ⟨handler, clear, engine, none⟩ := h.ready hs
      exact .rest hs' (.inr rfl) handler clear engine none
  | late =>
      cases h with
      | busy _ _ handler clear engine none => exact .busy rfl (.inr rfl) handler clear engine none
      | done _ _ handler clear engine some => exact .done rfl (.inr rfl) handler clear engine some
      | rest state _ _ _ _ _ => simp [TargetState.Ready] at state
      | cancelling _ _ state _ _ => cases state
      | preparing _ state _ _ _ _ _ => cases state
      | arming state _ _ _ _ _ => cases state
      | firing _ state _ _ _ _ _ => cases state
      | waiting state _ _ _ _ _ => cases state
      | forcing _ state _ _ => cases state
      | forced _ state _ _ => cases state
      | sent state _ _ _ _ _ => cases state
      | triggered state _ _ _ _ _ => cases state
      | finished state _ _ _ _ _ => cases state
  | cancel ht =>
      refine .cancelling ht (hfree rfl) rfl rfl (h.armed.imp ?_ id)
      rintro ⟨handler, clear, engine, none⟩
      refine ⟨handler, clear, ?_, none⟩
      cases t <;> first | exact engine | exact absurd rfl ht
  | force ht =>
      subst ht
      exact .forcing rfl rfl rfl h.armed
  | capture ht =>
      obtain ⟨handler, clear, engine, none⟩ := h.ready (.inl rfl)
      exact .preparing ht rfl (.inr rfl) handler clear engine none

/-- The trigger is reported. -/
theorem Agrees.report_trigger {r : List Report} (h : Agrees t held s [] p (.trigger :: r)) :
    s = .armed ∧ ∀ held', Agrees t held' .busy [] p r := by
  cases h with
  | triggered state _ handler clear engine some =>
      cases some
      exact ⟨state, fun _ => .busy rfl (.inl rfl) handler clear engine rfl⟩
  | finished state _ handler clear engine some =>
      cases some
      exact ⟨state, fun _ => .done rfl (.inl rfl) handler clear engine rfl⟩
  | done _ _ _ _ _ some => cases some
  | rest _ _ _ _ _ none => cases none
  | waiting _ _ _ _ _ none => cases none
  | sent _ _ _ _ _ none => cases none
  | busy _ _ _ _ _ none => cases none
  | preparing _ _ _ _ _ _ none => cases none
  | arming _ _ _ _ _ none => cases none
  | firing _ _ _ _ _ _ none => cases none
  | cancelling _ _ _ todo _ => cases todo
  | forcing _ _ todo _ => cases todo
  | forced _ _ todo _ => cases todo

/-- The completion is reported. -/
theorem Agrees.report_complete {r : List Report} (h : Agrees t held s [] p (.complete :: r)) :
    s = .busy ∧ ∀ held', Agrees t held' .idle [] p r := by
  cases h with
  | done state _ handler clear engine some =>
      cases some
      exact ⟨state, fun _ => .rest (.inl rfl) (.inl rfl) handler clear engine rfl⟩
  | triggered _ _ _ _ _ some => cases some
  | finished _ _ _ _ _ some => cases some
  | rest _ _ _ _ _ none => cases none
  | waiting _ _ _ _ _ none => cases none
  | sent _ _ _ _ _ none => cases none
  | busy _ _ _ _ _ none => cases none
  | preparing _ _ _ _ _ _ none => cases none
  | arming _ _ _ _ _ none => cases none
  | firing _ _ _ _ _ _ none => cases none
  | cancelling _ _ _ todo _ => cases todo
  | forcing _ _ todo _ => cases todo
  | forced _ _ todo _ => cases todo

/-- Whoever holds a lock finds quiet hardware. -/
theorem Agrees.quiet {r : List Report} (h : Agrees t held s w p r) (hs : s.Ready) (hh : held) :
    p.Quiet := by
  rcases h.ready_cases hs with ⟨handler, -, engine, -⟩ | ⟨hfree, -⟩
  · exact ⟨by simp [Handler.armedOut, handler], engine⟩
  · exact absurd hh hfree

end agrees

/-! ### The board -/

section board
variable {Client : Type}

namespace Board

/-- The reports of `t` on their way to the module. -/
def reports (b : Board Client) (t : TargetId) : List Report :=
  b.reading.filterMap (Notice.report t) ++ (b.ports t).latched

/-- The step writes a strobe that comes too late for its target. -/
def Race (b : Board Client) : Input Client → Prop
  | .clock true i =>
      ∃ e ∈ b.pending.head?, ∃ t, ∃ x ∈ e.strobe t, RaceAt t x i (b.ports t) (b.reports t)
  | _ => False

instance (b : Board Client) : DecidablePred b.Race
  | .clock true i => inferInstanceAs (Decidable (∃ e ∈ b.pending.head?, ∃ t,
      ∃ x ∈ e.strobe t, RaceAt t x i (b.ports t) (b.reports t)))
  | .clock false _ | .call _ | .finish _ | .read | .dispatch => inferInstanceAs (Decidable False)

/-- The next event to be dispatched is one its target expects. -/
def Expected (b : Board Client) : Prop :=
  b.pending = [] → ∀ n ns, b.reading = n :: ns →
    match n with
    | .readout _ => True
    | .trigger t => (b.soft.targets t).state = .armed
    | .complete t => (b.soft.targets t).state = .busy

/-- The software and the hardware of every target agree. -/
structure Agreement (b : Board Client) : Prop where
  locks : Locks b.soft.targets b.soft.granted b.soft.waiting
  upToDate : UpToDate b.soft.toGlobals
  agrees : ∀ t, Agrees t (b.soft.granted t ≠ []) (b.soft.targets t).state
    (strobes t b.pending) (b.ports t) (b.reports t)

end Board

/-- The event thread dispatches what was latched, target by target. -/
theorem notices_reports (ports : TargetId → Port) (t : TargetId) :
    (notices ports).filterMap (Notice.report t) = (ports t).latched := by
  have hreadout : ((([.seq0, .seq1] : List TargetId).filter fun u => (ports u).doneEvent).map
      Notice.readout).filterMap (Notice.report t) = [] := by
    rw [List.filterMap_map]
    exact List.filterMap_eq_nil_iff.mpr fun _ _ => rfl
  have hself (u : TargetId) : ((if (ports u).triggerEvent then [Notice.trigger u] else []) ++
      if (ports u).doneEvent then [Notice.complete u] else []).filterMap (Notice.report t) =
      if u = t then (ports t).latched else [] := by
    by_cases hu : u = t
    · subst hu
      cases ht : (ports u).triggerEvent <;> cases hd : (ports u).doneEvent <;>
        simp [Port.latched, Notice.report, ht, hd]
    · cases ht : (ports u).triggerEvent <;> cases hd : (ports u).doneEvent <;>
        simp [Notice.report, hu]
  rw [notices, List.filterMap_append, hreadout, List.nil_append]
  simp only [allTargets, List.flatMap_cons, List.flatMap_nil, List.append_nil,
    List.filterMap_append]
  simp only [← List.filterMap_append, hself]
  cases t <;> simp

variable [DecidableEq Client] {b b' : Board Client}

namespace Board

theorem agreement_init (h : (board Client).init b) : b.Agreement := by
  obtain ⟨hsoft, hpending, hports, hreading⟩ := h
  refine ⟨locks_reachable (.init hsoft), upToDate_reachable (.init hsoft), fun t => ?_⟩
  rw [hpending, reports, hports t, hreading, hsoft.1.idle t]
  exact .rest (.inl rfl) (.inl rfl) rfl (fun _ _ => rfl) rfl rfl

/-- A function starts: the software changes, and its calls are to be made. -/
theorem Agreement.start {op : Op Client} (hlocks : Locks b.soft.targets b.soft.granted b.soft.waiting)
    (hup : UpToDate b.soft.toGlobals) (h : b.start op = some b')
    (hagrees : ∀ soft out, Trigger.step b.soft op = some (soft, out) → ∀ t,
      Agrees t (soft.granted t ≠ []) (soft.targets t).state (strobes t out) (b.ports t)
        (b.reports t)) : b'.Agreement := by
  unfold Board.start at h
  split_ifs at h
  simp only [Option.map_eq_some_iff] at h
  obtain ⟨⟨soft, out⟩, hstep, rfl⟩ := h
  have hs : (runs Client).Step b.soft (op, out) soft := hstep
  exact ⟨locks_step hlocks hs, upToDate_step hup hs, hagrees soft out hstep⟩

theorem pending_of_start {op : Op Client} (h : b.start op = some b') : b.pending = [] := by
  unfold Board.start at h
  split_ifs at h with hp
  exact List.isEmpty_iff.mp hp

/-- The strobes and the state that a function's effect determines. -/
theorem step_makes {s s' : State Client} {op : Op Client} {out : List Event}
    (h : Trigger.step s op = some (s', out)) {t : TargetId}
    {R : TargetState → List Strobe → TargetState → Prop}
    (hm : Makes R t s.enter (op.effect s.enter)) :
    R (s.targets t).state (strobes t out) (s'.targets t).state := by
  obtain ⟨hglobals, hout⟩ := step_effect h
  obtain ⟨es, hes, hR⟩ := hm
  rw [hout, hes, hglobals]
  exact hR

theorem granted_of_commands {s s' : State Client} {op : Op Client} {out : List Event}
    (h : Trigger.step s op = some (s', out)) (hop : op.commands = true) :
    s'.granted = s.granted := by
  cases op with
  | disarm u =>
      simp only [Trigger.step, State.leave, Option.some.injEq, Prod.mk.injEq] at h
      rw [← h.1]
  | sharedDisarm =>
      simp only [Trigger.step, State.leave, Option.some.injEq, Prod.mk.injEq] at h
      rw [← h.1]
  | immediateCapture =>
      simp only [Trigger.step, State.leave, Option.some.injEq, Prod.mk.injEq] at h
      rw [← h.1]
  | _ => cases hop

theorem Agreement.call {op : Op Client} (h : b.Agreement) (hop : op.isCall = true)
    (hstart : b.start op = some b') : b'.Agreement := by
  have hpending := pending_of_start hstart
  refine .start h.locks h.upToDate hstart fun soft out hstep t => ?_
  have hagrees := h.agrees t
  rw [hpending] at hagrees
  rcases call_change (c := b.soft.enter) h.upToDate hop t with hkeep | ⟨hcmd, hmakes⟩
  · exact hagrees.keepUp (step_makes hstep hkeep)
  · refine hagrees.command (step_makes hstep hmakes) fun harmed => ?_
    rw [granted_of_commands hstep hcmd]
    intro hheld
    have hready := h.locks.ready t hheld
    simp [Target.Ready, harmed] at hready

theorem Agreement.dispatch (h : b.Agreement) (hstep : b.step .dispatch = some b') :
    b'.Agreement := by
  cases hreading : b.reading with
  | nil => simp [Board.step, hreading] at hstep
  | cons n ns =>
    simp only [Board.step, hreading] at hstep
    have hreports (t : TargetId) : b.reports t =
        (Notice.report t n).toList ++ (ns.filterMap (Notice.report t) ++ (b.ports t).latched) := by
      rw [reports, hreading, List.filterMap_cons]
      cases Notice.report t n <;> rfl
    cases n with
    | readout a =>
        simp only [Notice.op, Option.some.injEq] at hstep
        subst hstep
        exact ⟨h.locks, h.upToDate, fun t => by
          have := h.agrees t
          rwa [hreports] at this⟩
    | trigger u =>
        have hstart : ({ b with reading := ns } : Board Client).start (.trigger u) = some b' := hstep
        have hpending := pending_of_start hstart
        change b.pending = [] at hpending
        refine .start (b := { b with reading := ns }) h.locks h.upToDate hstart
          fun soft out hsoft t => ?_
        have hagrees := h.agrees t
        rw [hreports, hpending] at hagrees
        by_cases htu : u = t
        · subst htu
          obtain ⟨hs, hbusy⟩ := Agrees.report_trigger (by simpa [Notice.report] using hagrees)
          obtain ⟨hw, hs'⟩ := step_makes hsoft (makes_triggerTargetTrigger hs)
          rw [hw, hs']
          exact hbusy _
        · simp only [Notice.report, if_neg htu] at hagrees
          exact hagrees.keepUp (step_makes hsoft (keepsUp_triggerTargetTrigger (Ne.symm htu) _))
    | complete u =>
        have hstart : ({ b with reading := ns } : Board Client).start (.complete u) = some b' := hstep
        have hpending := pending_of_start hstart
        change b.pending = [] at hpending
        refine .start (b := { b with reading := ns }) h.locks h.upToDate hstart
          fun soft out hsoft t => ?_
        have hagrees := h.agrees t
        rw [hreports, hpending] at hagrees
        by_cases htu : u = t
        · subst htu
          obtain ⟨hs, hidle⟩ := Agrees.report_complete (by simpa [Notice.report] using hagrees)
          exact (hidle True).keepUp
            (step_makes hsoft (makes_triggerTargetComplete h.upToDate hs))
        · simp only [Notice.report, if_neg htu] at hagrees
          exact hagrees.keepUp (step_makes hsoft (keepsUp_complete h.upToDate (Ne.symm htu)))

/-- A step that does not race keeps the agreement. -/
theorem Agreement.step {i : Input Client} (h : b.Agreement) (hrace : ¬ b.Race i)
    (hstep : b.step i = some b') : b'.Agreement := by
  cases i with
  | call op =>
      simp only [Board.step] at hstep
      split_ifs at hstep with hop
      exact h.call hop hstep
  | dispatch => exact h.dispatch hstep
  | clock write i =>
      cases write with
      | false =>
          simp only [Board.step, Option.some.injEq] at hstep
          subst hstep
          exact ⟨h.locks, h.upToDate, fun t => (h.agrees t).clock i⟩
      | true =>
          cases hpending : b.pending with
          | nil => simp [Board.step, hpending] at hstep
          | cons e es =>
              simp only [Board.step, hpending, Option.some.injEq] at hstep
              subst hstep
              refine ⟨h.locks, h.upToDate, fun t => ?_⟩
              have hagrees := h.agrees t
              rw [hpending, strobes, List.filterMap_cons] at hagrees
              simp only [clockPorts, Option.bind_some, Board.reports]
              cases hx : e.strobe t with
              | none =>
                  rw [hx] at hagrees
                  exact hagrees.clock i
              | some x =>
                  rw [hx] at hagrees
                  exact hagrees.strobe fun hr => hrace ⟨e, by simp [hpending], t, x, hx, hr⟩
  | finish u =>
      simp only [Board.step, Option.map_eq_some_iff] at hstep
      obtain ⟨q, hq, rfl⟩ := hstep
      refine ⟨h.locks, h.upToDate, fun t => ?_⟩
      by_cases htu : t = u
      · subst htu
        simpa [Board.reports] using (h.agrees t).finish hq
      · simpa [Board.reports, htu] using h.agrees t
  | read =>
      simp only [Board.step] at hstep
      split_ifs at hstep with hempty
      simp only [Option.some.injEq] at hstep
      subst hstep
      refine ⟨h.locks, h.upToDate, fun t => ?_⟩
      have hagrees := h.agrees t
      have hreports : b.reports t = (b.ports t).latched := by
        rw [Board.reports, List.isEmpty_iff.mp hempty]
        rfl
      have hafter : ({ b with reading := notices b.ports, ports := clearEvents b.ports } :
          Board Client).reports t = (b.ports t).latched := by
        rw [Board.reports, notices_reports]
        exact List.append_nil _
      rw [hreports] at hagrees
      rw [hafter]
      exact hagrees.cleared

omit [DecidableEq Client] in
theorem Agreement.expected (h : b.Agreement) : b.Expected := by
  intro hpending n ns hreading
  have hreports (t : TargetId) (x : Report) (hx : n.report t = some x) : ∃ r,
      Agrees t (b.soft.granted t ≠ []) (b.soft.targets t).state [] (b.ports t) (x :: r) := by
    have hagrees := h.agrees t
    rw [hpending, Board.reports, hreading, List.filterMap_cons, hx] at hagrees
    exact ⟨_, hagrees⟩
  cases n with
  | readout t => trivial
  | trigger t =>
      obtain ⟨r, hr⟩ := hreports t .trigger (by simp [Notice.report])
      exact hr.report_trigger.1
  | complete t =>
      obtain ⟨r, hr⟩ := hreports t .complete (by simp [Notice.report])
      exact hr.report_complete.1

omit [DecidableEq Client] in
theorem Agreement.quiet (h : b.Agreement) {t : TargetId} (ht : b.soft.granted t ≠ []) :
    (b.ports t).Quiet :=
  (h.agrees t).quiet (h.locks.ready t ht) ht

end Board

/-! ### Runs -/

/-- The software and the hardware agree about capture under lock, in every state of a run in
which no strobe races with a trigger: the hardware of a target on which a lock is held is
neither armed nor capturing, and the next event to be dispatched is one its target expects. -/
theorem capture_agreement {b₀ b : Board Client} {l : List (Board Client × Input Client × Unit)}
    (hi : (board Client).init b₀) (hp : Runs.Path (boardRuns Client) b₀ l b)
    (hl : ∀ x ∈ l, ¬ x.1.Race x.2.1) :
    Runs.Always (fun b => (∀ t, b.soft.granted t ≠ [] → (b.ports t).Quiet) ∧ b.Expected) l b := by
  have hstep : ∀ (b : Board Client) (a : Input Client × Unit) (b' : Board Client), b.Agreement →
      ¬ b.Race a.1 → (boardRuns Client).Step b a b' → b'.Agreement := by
    intro b a b' hb hrace hs
    simp only [Runs.Machine.system_step, board, Option.map_eq_some_iff] at hs
    obtain ⟨c, hc, heq⟩ := hs
    cases heq
    exact hb.step hrace hc
  have hall := hp.guarded_always (C := fun b a => ¬ b.Race a.1) hstep hl
    (Board.agreement_init hi)
  exact hall.mono fun b hb => ⟨fun t ht => hb.quiet ht, hb.expected⟩

/-- Nothing fires, and no turn starts. -/
def calm : Surroundings := ⟨fun _ => false, false, fun _ => 0⟩

/-- The board after a reset, with all targets in one-shot mode. -/
def Board.reset : Board ℕ := ⟨.boot (fun _ => .oneShot) false, [], fun _ => .reset, []⟩

theorem board_reset : (board ℕ).init .reset :=
  ⟨machine_boot _ false, rfl, fun _ => rfl, rfl⟩

/-- A sequencer is armed and triggered, runs to its end, and is disarmed and locked after both
events were dispatched. -/
theorem capture_agreement_cycle :
    let b := (board ℕ).after .reset
      ([.call (.arm .seq0), .clock true calm, .clock true calm, .clock true calm,
        .clock false { calm with trigger := fun _ => true },
        .clock false { calm with turnClock := true }] ++ List.replicate 5 (.clock false calm) ++
        [.read, .dispatch, .clock true calm,
        .finish .seq0, .read, .dispatch, .dispatch, .clock true calm, .clock true calm,
        .call (.disarm .seq0), .clock true calm, .call (.lock 1 .seq0 0)])
    b.soft.granted .seq0 = [1] ∧ (b.ports .seq0).Quiet :=
  ⟨by decide +kernel, (capture_agreement board_reset ((board ℕ).path_trace _ _)
    (by decide +kernel)).2.1 .seq0 (by decide +kernel)⟩

/-- A sequencer is armed and triggered, disarmed while the trigger is on its way to the engine, and
locked: it captures under the lock, and the report then finds it idle. -/
theorem capture_disagreement :
    ∃ b, Runs.Reachable (boardRuns ℕ) b ∧ b.soft.granted .seq0 ≠ [] ∧
      ¬ (b.ports .seq0).Quiet ∧ ¬ b.Expected := by
  refine ⟨_, (board ℕ).reachable_after board_reset
    [.call (.arm .seq0), .clock true calm, .clock true calm, .clock true calm,
      .clock false { calm with trigger := fun _ => true },
      .clock false { calm with turnClock := true },
      .call (.disarm .seq0), .clock true calm, .clock true calm, .call (.lock 1 .seq0 0),
      .clock false calm, .clock false calm, .clock false calm, .read],
    by decide +kernel, by decide +kernel, fun h => ?_⟩
  exact absurd (h rfl _ _ rfl) (by decide +kernel)

end board

end Mbf.Trigger
