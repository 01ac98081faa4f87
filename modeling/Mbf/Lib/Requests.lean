import Mathlib.Data.List.Infix
import Mathlib.Data.Nat.Count
import Mathlib.Tactic.Common

/-! # Requests

A port takes requests one after another: a strobe with an argument asks, and the first acknowledge
from then on answers, with the data of that time.  The log of a port has what was asked and answered.

One port leads through to another if the requests that are routed there, and no others, are passed
on, once each and in order, and have their answers from there (`Through`).  Ports in a row lead
through to the last (`Through.trans`). -/

namespace Requests

/-- The signals of a port at each time. -/
structure Port (α β : Type*) where
  strobe : ℕ → Bool
  arg : ℕ → α
  ack : ℕ → Bool
  data : ℕ → β

namespace Port

variable {α β : Type*} (p : Port α β)

/-- A request from before is not answered yet. -/
def pending : ℕ → Bool
  | 0 => false
  | t + 1 => (pending t || p.strobe t) && !p.ack t

/-- There is a request, from before or new. -/
def active (t : ℕ) : Bool := p.pending t || p.strobe t

/-- The argument of the last request. -/
def asked : ℕ → α
  | 0 => p.arg 0
  | t + 1 => if p.strobe (t + 1) then p.arg (t + 1) else asked t

/-- What was asked and answered, before a time. -/
def log : ℕ → List (α × β)
  | 0 => []
  | t + 1 => log t ++ if p.active t && p.ack t then [(p.asked t, p.data t)] else []

/-- A request that is not answered is held. -/
def Keeps (t : ℕ) : Prop :=
  p.active t = true → p.ack t = false → p.strobe (t + 1) = false ∧ p.arg (t + 1) = p.arg t

def Held : Prop := ∀ t, p.Keeps t

/-- Each request is answered. -/
def Answers : Prop := ∀ t, p.active t = true → ∃ u ≥ t, p.ack u = true

theorem pending_succ (t : ℕ) : p.pending (t + 1) = (p.active t && !p.ack t) := rfl

variable {p}

theorem log_done {t : ℕ} (hactive : p.active t = true) (hack : p.ack t = true) :
    p.log (t + 1) = p.log t ++ [(p.asked t, p.data t)] := by
  rw [log, hactive, hack, Bool.and_self, if_pos rfl]

theorem log_idle {t : ℕ} (h : p.active t = false) : p.log (t + 1) = p.log t := by
  rw [log, h, Bool.false_and, if_neg Bool.false_ne_true, List.append_nil]

theorem log_wait {t : ℕ} (h : p.ack t = false) : p.log (t + 1) = p.log t := by
  rw [log, h, Bool.and_false, if_neg Bool.false_ne_true, List.append_nil]

theorem asked_succ {t : ℕ} (h : p.strobe (t + 1) = false) : p.asked (t + 1) = p.asked t := by
  rw [asked, h, if_neg Bool.false_ne_true]

theorem asked_strobe {t : ℕ} (h : p.strobe t = true) : p.asked t = p.arg t := by
  cases t with
  | zero => rfl
  | succ t => rw [asked, h, if_pos rfl]

theorem active_of_strobe {t : ℕ} (h : p.strobe t = true) : p.active t = true := by
  rw [active, h, Bool.or_true]

theorem active_of_pending {t : ℕ} (h : p.pending t = true) : p.active t = true := by
  rw [active, h, Bool.true_or]

theorem pending_wait {t : ℕ} (hactive : p.active t = true) (hack : p.ack t = false) :
    p.pending (t + 1) = true := by
  rw [pending_succ, hactive, hack]
  rfl

theorem pending_done {t : ℕ} (hack : p.ack t = true) : p.pending (t + 1) = false := by
  rw [pending_succ, hack, Bool.not_true, Bool.and_false]

theorem pending_idle {t : ℕ} (h : p.active t = false) : p.pending (t + 1) = false := by
  rw [pending_succ, h, Bool.false_and]

/-- What is held is asked. -/
theorem asked_eq {t : ℕ} (hkeeps : ∀ s < t, p.Keeps s) (hactive : p.active t = true) :
    p.asked t = p.arg t := by
  induction t with
  | zero => rfl
  | succ t ih =>
      cases hstrobe : p.strobe (t + 1) with
      | true => exact asked_strobe hstrobe
      | false =>
          rw [active, hstrobe, Bool.or_false, pending_succ, Bool.and_eq_true,
            Bool.not_eq_true'] at hactive
          rw [asked_succ hstrobe, (hkeeps t (Nat.lt_succ_self t) hactive.1 hactive.2).2]
          exact ih (fun s hs => hkeeps s (Nat.lt_succ_of_lt hs)) hactive.1

theorem strobe_of_pending {t : ℕ} (hkeeps : ∀ s < t, p.Keeps s) (hpending : p.pending t = true) :
    p.strobe t = false := by
  cases t with
  | zero => cases hpending
  | succ t =>
      rw [pending_succ, Bool.and_eq_true, Bool.not_eq_true'] at hpending
      exact (hkeeps t (Nat.lt_succ_self t) hpending.1 hpending.2).1

/-- Each strobe asks once. -/
theorem count_strobe (hheld : p.Held) (t : ℕ) :
    Nat.count (fun s => p.strobe s = true) t = (p.log t).length + (p.pending t).toNat := by
  induction t with
  | zero => rfl
  | succ t ih =>
      have hlength : (p.log (t + 1)).length + (p.pending (t + 1)).toNat =
          (p.log t).length + (p.active t).toNat := by
        rw [log, List.length_append, pending_succ]
        cases p.active t <;> cases p.ack t <;> rfl
      have hpending : p.pending t = true → p.strobe t = false :=
        strobe_of_pending fun s _ => hheld s
      rw [Nat.count_succ, ih, hlength, active]
      revert hpending
      cases p.pending t <;> cases p.strobe t <;> simp

end Port

/-! ### From port to port -/

variable {α β γ δ : Type*}

/-- An answered request where it is routed. -/
def routed (route : α → Option γ) (e : α × β) : Option (γ × β) := (route e.1).map (·, e.2)

/-- The requests of `p` that are routed there go through to `q`. -/
structure Through (p : Port α β) (q : Port γ β) (route : α → Option γ) : Prop where
  held : q.Held
  pending : ∀ t, q.pending t = true → p.pending t = true
  active : ∀ t, q.active t = true → p.active t = true ∧ route (p.asked t) = some (q.asked t)
  log_prefix : ∀ t, (p.log t).filterMap (routed route) <+: q.log t
  log_eq : ∀ t, p.pending t = false → q.log t = (p.log t).filterMap (routed route)

theorem routed_bind (route : α → Option γ) (route' : γ → Option δ) (e : α × β) :
    (routed route e).bind (routed route') = routed (fun a => (route a).bind route') e := by
  rw [routed, routed]
  cases route e.1 <;> rfl

theorem Through.trans {p : Port α β} {q : Port γ β} {r : Port δ β} {route : α → Option γ}
    {route' : γ → Option δ} (h : Through p q route) (h' : Through q r route') :
    Through p r fun a => (route a).bind route' where
  held := h'.held
  pending t ht := h.pending t (h'.pending t ht)
  active t ht := by
    obtain ⟨hactive, hroute'⟩ := h'.active t ht
    obtain ⟨hactive, hroute⟩ := h.active t hactive
    exact ⟨hactive, by rw [hroute, Option.bind_some, hroute']⟩
  log_prefix t := by
    have hprefix := (h.log_prefix t).filterMap (routed route')
    rw [List.filterMap_filterMap] at hprefix
    simp only [routed_bind] at hprefix
    exact hprefix.trans (h'.log_prefix t)
  log_eq t ht := by
    have hpending : q.pending t = false :=
      Bool.eq_false_iff.mpr fun hq => Bool.false_ne_true (ht.symm.trans (h.pending t hq))
    rw [h'.log_eq t hpending, h.log_eq t ht, List.filterMap_filterMap]
    simp only [routed_bind]

/-! ### A later answer -/

/-- Where a port with a later answer is, against the other. -/
inductive Later (p q : Port α β) (t : ℕ) : Prop
  /-- Nothing is on the way. -/
  | same (hack : p.ack t = false) (hpending : p.pending t = q.pending t) (hlog : p.log t = q.log t)
  /-- An answer is. -/
  | answered (hack : p.ack t = true) (hpending : p.pending t = true)
      (hpending' : q.pending t = false)
      (hlog : q.log t = p.log t ++ [(p.asked t, p.data t)])

section later
variable {p q : Port α β} (hstrobe : p.strobe = q.strobe) (harg : p.arg = q.arg)
  (hfirst : p.ack 0 = false) (hack : ∀ t, p.ack (t + 1) = q.ack t)
  (hdata : ∀ t, q.ack t = true → p.data (t + 1) = q.data t)
  (honly : ∀ t, (∀ s < t, q.Keeps s) → q.ack t = true → q.active t = true) (hheld : p.Held)
include hstrobe harg

theorem asked_congr (t : ℕ) : p.asked t = q.asked t := by
  induction t with
  | zero => exact congrFun harg 0
  | succ t ih => rw [Port.asked, Port.asked, hstrobe, harg, ih]

include hack hdata honly hheld

theorem later_step {t : ℕ} (hkeeps : ∀ s < t, q.Keeps s) (h : Later p q t) :
    q.Keeps t ∧ Later p q (t + 1) := by
  have hasked := asked_congr hstrobe harg
  cases h with
  | same hno hpending hlog =>
      have hactive : p.active t = q.active t := by rw [Port.active, Port.active, hpending, hstrobe]
      cases hq : q.ack t with
      | true =>
          have hon := honly t hkeeps hq
          have hquiet := (hheld t (hactive.trans hon) hno).1
          refine ⟨fun _ hwait => absurd (hq.symm.trans hwait) Bool.true_eq_false.mp, ?_⟩
          refine .answered ((hack t).trans hq) (Port.pending_wait (hactive.trans hon) hno)
            (Port.pending_done hq) ?_
          rw [Port.log_done hon hq, Port.log_wait hno, Port.asked_succ hquiet, hdata t hq, hlog,
            hasked]
      | false =>
          refine ⟨fun hon _ => ?_, .same ((hack t).trans hq) ?_ ?_⟩
          · rw [← hstrobe, ← harg]
            exact hheld t (hactive.trans hon) hno
          · rw [Port.pending_succ, Port.pending_succ, hactive, hno, hq]
          · rw [Port.log_wait hno, Port.log_wait hq, hlog]
  | answered hyes hpending hpending' hlog =>
      have hquiet : q.strobe t = false := by
        rw [← hstrobe]
        exact Port.strobe_of_pending (fun s _ => hheld s) hpending
      have hidle : q.active t = false := by rw [Port.active, hpending', hquiet, Bool.or_false]
      have hno : q.ack t = false :=
        Bool.eq_false_iff.mpr fun hq => Bool.false_ne_true (hidle.symm.trans (honly t hkeeps hq))
      refine ⟨fun hon => absurd (hidle.symm.trans hon) Bool.false_ne_true, ?_⟩
      refine .same ((hack t).trans hno) ?_ ?_
      · rw [Port.pending_done hyes, Port.pending_idle hidle]
      · rw [Port.log_done (Port.active_of_pending hpending) hyes, Port.log_idle hidle, hlog]

include hfirst

theorem later_run (t : ℕ) : (∀ s < t, q.Keeps s) ∧ Later p q t := by
  induction t with
  | zero => exact ⟨fun s hs => absurd hs (Nat.not_lt_zero s), .same hfirst rfl rfl⟩
  | succ t ih =>
      obtain ⟨hkeeps, hlater⟩ := later_step hstrobe harg hack hdata honly hheld ih.1 ih.2
      refine ⟨fun s hs => ?_, hlater⟩
      rcases Nat.lt_succ_iff_lt_or_eq.mp hs with hlt | rfl
      · exact ih.1 s hlt
      · exact hkeeps

/-- A port whose answers come a tick later has them too. -/
theorem Port.Answers.later (hanswers : q.Answers) : p.Answers := by
  intro t ht
  cases (later_run hstrobe harg hfirst hack hdata honly hheld t).2 with
  | same _ hpending _ =>
      rw [Port.active, hpending, hstrobe] at ht
      obtain ⟨u, hu, hq⟩ := hanswers t ht
      exact ⟨u + 1, hu.trans (Nat.le_succ u), (hack u).trans hq⟩
  | answered hyes _ _ _ => exact ⟨t, le_rfl, hyes⟩

/-- A port leads through to the one that has the answers a tick before it. -/
theorem Through.later : Through p q some := by
  have hrun := later_run hstrobe harg hfirst hack hdata honly hheld
  have hasked := asked_congr hstrobe harg
  have hrouted : ∀ l : List (α × β), l.filterMap (routed some) = l := fun l => List.filterMap_some
  refine ⟨fun t => (hrun (t + 1)).1 t (Nat.lt_succ_self t), fun t ht => ?_, fun t ht => ?_,
    fun t => ?_, fun t ht => ?_⟩
  · cases (hrun t).2 with
    | same _ hpending _ => exact hpending.trans ht
    | answered _ hpending _ _ => exact hpending
  · refine ⟨?_, congrArg some (hasked t)⟩
    cases (hrun t).2 with
    | same _ hpending _ => rwa [Port.active, hpending, hstrobe]
    | answered _ hpending _ _ => exact Port.active_of_pending hpending
  · rw [hrouted]
    cases (hrun t).2 with
    | same _ _ hlog => rw [hlog]
    | answered _ _ _ hlog =>
        rw [hlog]
        exact List.prefix_append _ _
  · rw [hrouted]
    cases (hrun t).2 with
    | same _ _ hlog => exact hlog.symm
    | answered _ hpending _ _ => exact absurd (ht.symm.trans hpending) Bool.false_ne_true

end later

end Requests
