import Mathlib.Data.List.Infix
import Mbf.Lib.Clocked

/-! # Elastic streams

A link carries items from a circuit to the next: the one offers an item, the other is ready, and the
item moves on a clock on which both are the case.  A circuit between two links is elastic if what
leaves it is what has entered it, in order (`Elastic`).  It may hold any number of items; an item
that it offers stays until it is taken, and as long as its output is ready again and again it goes
on taking items and gives every item that it has taken.

Elastic circuits in a row are an elastic circuit (`Elastic.trans`), whatever they are: that is the
only rule that a chain of them needs. -/

namespace Streams

open Clocked

variable {α : Type*}

/-- What is offered on each clock, and whether it is taken. -/
structure Link (α : Type*) where
  offered : ℕ → Option α
  ready : ℕ → Bool

namespace Link

/-- What moves on the clock `n`. -/
def moved (a : Link α) (n : ℕ) : List α := if a.ready n then (a.offered n).toList else []

/-- What has moved before the clock `n`. -/
def sent (a : Link α) : ℕ → List α
  | 0 => []
  | n + 1 => a.sent n ++ a.moved n

/-- An item that is offered stays until it is taken. -/
def Keeps (a : Link α) : Prop :=
  ∀ n x, a.offered n = some x → a.ready n = false → a.offered (n + 1) = some x

theorem sent_mono (a : Link α) {m n : ℕ} (h : m ≤ n) : a.sent m <+: a.sent n := by
  induction n, h using Nat.le_induction with
  | base => exact List.prefix_rfl
  | succ n _ ih => exact ih.trans (List.prefix_append _ _)

/-- What has left and what is held is what was held first and what has entered. -/
theorem sent_append {a b : Link α} (contents : ℕ → List α)
    (h : ∀ n, b.moved n ++ contents (n + 1) = contents n ++ a.moved n) (n : ℕ) :
    b.sent n ++ contents n = contents 0 ++ a.sent n := by
  induction n with
  | zero => simp [sent]
  | succ n ih => rw [sent, sent, List.append_assoc, h, ← List.append_assoc, ih, List.append_assoc]

section map
variable {β : Type*} (f : α → β)

/-- The link with its items renamed. -/
def map (a : Link α) : Link β where
  offered n := (a.offered n).map f
  ready := a.ready

theorem sent_map (a : Link α) (n : ℕ) : (a.map f).sent n = (a.sent n).map f := by
  induction n with
  | zero => rfl
  | succ n ih =>
      have hmoved : (a.map f).moved n = (a.moved n).map f := by
        change (if a.ready n then ((a.offered n).map f).toList else []) =
          (if a.ready n then (a.offered n).toList else []).map f
        cases a.ready n <;> cases a.offered n <;> rfl
      rw [sent, sent, ih, hmoved, List.map_append]

theorem Keeps.map {a : Link α} (h : a.Keeps) : (a.map f).Keeps := by
  intro n x hoffered hready
  obtain ⟨y, hy, rfl⟩ := Option.map_eq_some_iff.mp hoffered
  exact Option.map_eq_some_iff.mpr ⟨y, h n y hy hready, rfl⟩

end map

end Link

/-- The circuit between the links `a` and `b`, which holds these items on each clock, the oldest
first. -/
structure Elastic (a b : Link α) (contents : ℕ → List α) : Prop where
  conserves : ∀ n, b.moved n ++ contents (n + 1) = contents n ++ a.moved n
  keeps : a.Keeps → b.Keeps
  recurs : Recurs (fun n => b.ready n = true) → Recurs fun n => a.ready n = true
  /-- What it holds, and what it takes, leaves it. -/
  drains : Recurs (fun n => b.ready n = true) →
    ∀ n, ∃ m, (contents 0).length + (a.sent n).length ≤ (b.sent m).length

namespace Elastic

variable {a b c : Link α} {contents contents' : ℕ → List α}

/-- Everything that has entered leaves. -/
theorem exists_sent (h : Elastic a b contents) (hready : Recurs fun n => b.ready n = true)
    (n : ℕ) : ∃ m, contents 0 ++ a.sent n <+: b.sent m := by
  obtain ⟨m, hm⟩ := h.drains hready n
  have hlate : contents 0 ++ a.sent n <+: b.sent (max m n) ++ contents (max m n) := by
    rw [Link.sent_append contents h.conserves]
    exact (List.prefix_append_right_inj _).mpr (a.sent_mono (le_max_right m n))
  refine ⟨max m n, List.prefix_of_prefix_length_le hlate (List.prefix_append _ _) ?_⟩
  have hlength := (b.sent_mono (le_max_left m n)).length_le
  rw [List.length_append]
  omega

/-- Nothing between the links. -/
theorem refl (a : Link α) : Elastic a a fun _ => [] where
  conserves n := List.append_nil _
  keeps := id
  recurs := id
  drains _ n := ⟨n, by simp⟩

/-- Two elastic circuits in a row. -/
theorem trans (h : Elastic a b contents) (h' : Elastic b c contents') :
    Elastic a c fun n => contents' n ++ contents n where
  conserves n := by
    rw [← List.append_assoc, h'.conserves, List.append_assoc, h.conserves, List.append_assoc]
  keeps hkeeps := h'.keeps (h.keeps hkeeps)
  recurs hready := h.recurs (h'.recurs hready)
  drains hready n := by
    obtain ⟨k, hk⟩ := h.drains (h'.recurs hready) n
    obtain ⟨m, hm⟩ := h'.drains hready k
    refine ⟨m, ?_⟩
    rw [List.length_append]
    omega

end Elastic

/-! ### Stages -/

/-- A circuit whose ports are functions of its registers: whether it is ready for an item, and what
it offers. -/
structure Stage (α σ : Type*) where
  ready : σ → Bool
  out : σ → Option α
  /-- The clock, from what is offered to the stage and whether what it offers is taken. -/
  clock : Option α → Bool → σ → σ
  /-- The items in the stage, the oldest first. -/
  contents : σ → List α
  conserves : ∀ input taken s, (if taken then (out s).toList else []) ++
    contents (clock input taken s) = contents s ++ if ready s then input.toList else []
  keeps : ∀ input s x, out s = some x → out (clock input false s) = some x
  /-- A stage that is not ready is so when it has given an item away. -/
  makesRoom : ∀ input s, ready s = false → ready (clock input true s) = true
  offers : ∀ s, out s = none → contents s = []

section stage
variable {σ : Type*} (m : Stage α σ) {a b : Link α} {s : ℕ → σ}

/-- The links of a stage whose registers are `s` on each clock. -/
structure Stage.Joins (a b : Link α) (s : ℕ → σ) : Prop where
  ready : ∀ n, a.ready n = m.ready (s n)
  offered : ∀ n, b.offered n = m.out (s n)
  clock : ∀ n, s (n + 1) = m.clock (a.offered n) (b.ready n) (s n)

namespace Stage.Joins
variable {m}

theorem conserves (h : m.Joins a b s) (n : ℕ) :
    b.moved n ++ m.contents (s (n + 1)) = m.contents (s n) ++ a.moved n := by
  unfold Link.moved
  rw [h.clock, h.offered, h.ready]
  exact m.conserves (a.offered n) (b.ready n) (s n)

/-- The next time that the output is ready an item leaves, if there is one. -/
theorem drains (h : m.Joins a b s) (hready : Recurs fun n => b.ready n = true) (n : ℕ) :
    ∃ k, (m.contents (s 0)).length + (a.sent n).length ≤ (b.sent k).length := by
  have hmore : ∀ missing p, n ≤ p → (m.contents (s 0)).length + (a.sent n).length ≤
      (b.sent p).length + missing →
      ∃ k, (m.contents (s 0)).length + (a.sent n).length ≤ (b.sent k).length := by
    intro missing
    induction missing with
    | zero => exact fun p _ hp => ⟨p, hp⟩
    | succ missing ih =>
        intro p hnp hp
        obtain ⟨q, hpq, hq⟩ := hready p
        have hsent := (b.sent_mono hpq).length_le
        cases hout : m.out (s q) with
        | none =>
            -- The stage is empty: all that has entered has left.
            have hall := congrArg List.length
              (Link.sent_append (fun n => m.contents (s n)) h.conserves q)
            rw [m.offers _ hout] at hall
            have hentered := (a.sent_mono (hnp.trans hpq)).length_le
            refine ⟨q, ?_⟩
            simp only [List.length_append, List.length_nil, Nat.add_zero] at hall
            omega
        | some x =>
            have hleft : (b.sent (q + 1)).length = (b.sent q).length + 1 := by
              have hmoved : b.moved q = [x] := by
                unfold Link.moved
                rw [if_pos hq, h.offered, hout]
                rfl
              rw [Link.sent, hmoved, List.length_append]
              rfl
            exact ih (q + 1) (by omega) (by omega)
  exact hmore _ n le_rfl (Nat.le_add_left _ _)

/-- A stage keeps what it offers, whatever is offered to it. -/
theorem keeps (h : m.Joins a b s) : b.Keeps := by
  intro n x hoffered hready
  rw [h.offered] at hoffered
  rw [h.offered, h.clock, hready]
  exact m.keeps _ _ _ hoffered

theorem elastic (h : m.Joins a b s) : Elastic a b fun n => m.contents (s n) where
  conserves := h.conserves
  keeps _ := h.keeps
  recurs hready n := by
    obtain ⟨k, hnk, hk⟩ := hready n
    cases hroom : m.ready (s k) with
    | true => exact ⟨k, hnk, (h.ready k).trans hroom⟩
    | false =>
        refine ⟨k + 1, by omega, ?_⟩
        change a.ready (k + 1) = true
        rw [h.ready, h.clock, hk]
        exact m.makesRoom _ _ hroom
  drains := h.drains

end Stage.Joins
end stage

/-- A stage of one kind or of another. -/
def Stage.sum {σ τ : Type*} (m : Stage α σ) (m' : Stage α τ) : Stage α (σ ⊕ τ) where
  ready := Sum.elim m.ready m'.ready
  out := Sum.elim m.out m'.out
  clock input taken := Sum.map (m.clock input taken) (m'.clock input taken)
  contents := Sum.elim m.contents m'.contents
  conserves input taken s := by
    cases s with
    | inl s => exact m.conserves input taken s
    | inr s => exact m'.conserves input taken s
  keeps input s x h := by
    cases s with
    | inl s => exact m.keeps input s x h
    | inr s => exact m'.keeps input s x h
  makesRoom input s h := by
    cases s with
    | inl s => exact m.makesRoom input s h
    | inr s => exact m'.makesRoom input s h
  offers s h := by
    cases s with
    | inl s => exact m.offers s h
    | inr s => exact m'.offers s h

/-! ### Chains -/

section chain
variable {σ : Type*} (m : Stage α σ)

/-- Whether a row of stages is ready, if its output is or is not. -/
def chainReady (ready : Bool) : List σ → Bool
  | [] => ready
  | s :: _ => m.ready s

/-- What a row of stages offers. -/
def chainOut (input : Option α) : List σ → Option α
  | [] => input
  | s :: rest => chainOut (m.out s) rest

/-- A row of stages after a clock. -/
def chain (input : Option α) (ready : Bool) : List σ → List σ
  | [] => []
  | s :: rest => m.clock input (chainReady m ready rest) s :: chain (m.out s) ready rest

/-- The items in a row of stages, the oldest first. -/
def chainContents : List σ → List α
  | [] => []
  | s :: rest => chainContents rest ++ m.contents s

theorem chainContents_eq_nil {stages : List σ} (h : ∀ s ∈ stages, m.contents s = []) :
    chainContents m stages = [] := by
  induction stages with
  | nil => rfl
  | cons s rest ih =>
      rw [chainContents, ih fun t ht => h t (List.mem_cons_of_mem _ ht), h s List.mem_cons_self,
        List.append_nil]

/-- A row of stages, whose registers are `s` on each clock, is elastic. -/
theorem elastic_chain {a b : Link α} {s : ℕ → List σ}
    (hready : ∀ n, a.ready n = chainReady m (b.ready n) (s n))
    (hoffered : ∀ n, b.offered n = chainOut m (a.offered n) (s n))
    (hclock : ∀ n, s (n + 1) = chain m (a.offered n) (b.ready n) (s n)) :
    Elastic a b fun n => chainContents m (s n) := by
  induction hstages : s 0 generalizing a s with
  | nil =>
      have hnil : ∀ n, s n = [] := by
        intro n
        induction n with
        | zero => exact hstages
        | succ n ih => rw [hclock, ih, chain]
      have hsame : a = b := by
        cases a
        cases b
        congr
        · funext n
          exact ((hoffered n).trans (by rw [hnil, chainOut])).symm
        · funext n
          exact (hready n).trans (by rw [hnil, chainReady])
      rw [hsame]
      simpa only [hnil, chainContents] using Elastic.refl b
  | cons first rest ih =>
      have hcons : ∀ n, ∃ t ts, s n = t :: ts := by
        intro n
        induction n with
        | zero => exact ⟨first, rest, hstages⟩
        | succ n ih =>
            obtain ⟨t, ts, hs⟩ := ih
            rw [hclock, hs, chain]
            exact ⟨_, _, rfl⟩
      choose head tail hs using hcons
      -- The link between the first stage and the others.
      let c : Link α := ⟨fun n => m.out (head n), fun n => chainReady m (b.ready n) (tail n)⟩
      have hnext : ∀ n, head (n + 1) = m.clock (a.offered n) (c.ready n) (head n) ∧
          tail (n + 1) = chain m (c.offered n) (b.ready n) (tail n) := by
        intro n
        have hstep := hclock n
        rw [hs n, hs (n + 1), chain] at hstep
        exact List.cons_eq_cons.mp hstep
      have hfirst : m.Joins a c head :=
        ⟨fun n => by rw [hready, hs, chainReady], fun n => rfl, fun n => (hnext n).1⟩
      have hrest : tail 0 = rest := by
        have := (hs 0).symm.trans hstages
        exact (List.cons_eq_cons.mp this).2
      have hothers : Elastic c b fun n => chainContents m (tail n) :=
        ih (fun n => rfl) (fun n => by rw [hoffered, hs, chainOut]) (fun n => (hnext n).2) hrest
      simpa only [hs, chainContents] using hfirst.elastic.trans hothers

end chain

end Streams
