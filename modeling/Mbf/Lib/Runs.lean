import Mathlib.Data.List.Basic

/-! # Runs of a labelled transition system

A system has initial states and a labelled step relation, which need be neither total nor
deterministic.  A path records every state it leaves together with the label it takes there
(`Path`), so that a side condition on a step may speak of the state before the step and of
the label.

Four rules carry all the results about runs:

* `Path.invariant`, `Reachable.invariant`: what every step preserves holds of the whole run;
* `Path.guarded`: what every step *meeting a condition* preserves holds of every run all of
  whose steps meet it;
* `Path.always_iff`: when a step keeps a property exactly if it meets the condition, the
  property holds all along a run exactly if every step meets the condition;
* `Path.until`: what is established once, and kept by every step but the releasing ones,
  governs every step before the first release.

A `Machine` is a system given by a guarded, executable step function; `replay` runs it on a
list of inputs, so that one definition serves the proofs and the concrete runs. -/

namespace Runs

universe u v

/-- A labelled transition system. -/
structure System (σ : Type u) (α : Type v) where
  /-- The states a run may start from. -/
  Init : σ → Prop
  /-- `Step s a s'`: in state `s` the step labelled `a` may lead to `s'`. -/
  Step : σ → α → σ → Prop

variable {σ : Type u} {α : Type v} {M : System σ α}

/-- A finite path, with the states it leaves and the labels it takes. -/
inductive Path (M : System σ α) : σ → List (σ × α) → σ → Prop
  | nil (s : σ) : Path M s [] s
  | cons {s s' s'' : σ} {a : α} {l : List (σ × α)} :
      M.Step s a s' → Path M s' l s'' → Path M s ((s, a) :: l) s''

/-- A state some run from an initial state reaches. -/
def Reachable (M : System σ α) (s : σ) : Prop := ∃ s₀ l, M.Init s₀ ∧ Path M s₀ l s

theorem Path.single {s s' : σ} {a : α} (h : M.Step s a s') : Path M s [(s, a)] s' :=
  .cons h (.nil s')

theorem Reachable.init {s : σ} (h : M.Init s) : Reachable M s := ⟨s, [], h, .nil s⟩

/-! ### Invariants -/

section invariants
variable {P I : σ → Prop} {C : σ → α → Prop}

/-- A property kept by every step meeting `C` is kept by a path of such steps. -/
theorem Path.guarded (hstep : ∀ s a s', P s → C s a → M.Step s a s' → P s') {s s' : σ}
    {l : List (σ × α)} (hp : Path M s l s') (hC : ∀ x ∈ l, C x.1 x.2) (hs : P s) : P s' := by
  induction hp with
  | nil s => exact hs
  | cons h _ ih =>
      exact ih (fun x hx => hC x (List.mem_cons_of_mem _ hx))
        (hstep _ _ _ hs (hC _ List.mem_cons_self) h)

theorem Path.invariant (hstep : ∀ s a s', P s → M.Step s a s' → P s') {s s' : σ}
    {l : List (σ × α)} (hp : Path M s l s') (hs : P s) : P s' :=
  hp.guarded (C := fun _ _ => True) (fun s a s' h _ => hstep s a s' h) (fun _ _ => trivial) hs

/-- The induction rule for reachable states. -/
theorem Reachable.invariant (hinit : ∀ s, M.Init s → P s)
    (hstep : ∀ s a s', P s → M.Step s a s' → P s') {s : σ} (h : Reachable M s) : P s := by
  obtain ⟨s₀, l, hi, hp⟩ := h
  exact hp.invariant hstep (hinit s₀ hi)

/-- The property `P` holds in every state of the path. -/
def Always (P : σ → Prop) (l : List (σ × α)) (s' : σ) : Prop := (∀ x ∈ l, P x.1) ∧ P s'

theorem Always.mono {Q : σ → Prop} (hPQ : ∀ s, P s → Q s) {l : List (σ × α)} {s' : σ}
    (h : Always P l s') : Always Q l s' :=
  ⟨fun x hx => hPQ _ (h.1 x hx), hPQ _ h.2⟩

/-- What every step meeting `C` keeps holds all along a path of such steps. -/
theorem Path.guarded_always (hstep : ∀ s a s', P s → C s a → M.Step s a s' → P s') {s s' : σ}
    {l : List (σ × α)} (hp : Path M s l s') (hC : ∀ x ∈ l, C x.1 x.2) (hs : P s) :
    Always P l s' := by
  induction hp with
  | nil s => exact ⟨by simp, hs⟩
  | cons h _ ih =>
      obtain ⟨hall, hend⟩ := ih (fun x hx => hC x (List.mem_cons_of_mem _ hx))
        (hstep _ _ _ hs (hC _ List.mem_cons_self) h)
      refine ⟨fun x hx => ?_, hend⟩
      rcases List.mem_cons.mp hx with rfl | hx
      · exact hs
      · exact hall x hx

/-- Where, under an invariant `I`, a step from a good state ends in a good state exactly if
it meets `C`, a path from a good state is good throughout exactly if all its steps meet `C`. -/
theorem Path.always_iff (hI : ∀ s a s', I s → M.Step s a s' → I s')
    (hstep : ∀ s a s', I s → P s → M.Step s a s' → (P s' ↔ C s a)) {s s' : σ}
    {l : List (σ × α)} (hp : Path M s l s') (hs : I s) (hP : P s) :
    Always P l s' ↔ ∀ x ∈ l, C x.1 x.2 := by
  induction hp with
  | nil s => simp [Always, hP]
  | @cons s t u a l h _ ih =>
      have hiff := hstep _ _ _ hs hP h
      constructor
      · rintro ⟨hall, hend⟩
        have ht : P t := by
          cases l with
          | nil =>
              rename_i hp
              cases hp
              exact hend
          | cons y l =>
              rename_i hp
              cases hp
              exact hall _ (List.mem_cons_of_mem _ List.mem_cons_self)
        have hrest := (ih (hI _ _ _ hs h) ht).mp
          ⟨fun x hx => hall x (List.mem_cons_of_mem _ hx), hend⟩
        intro x hx
        rcases List.mem_cons.mp hx with rfl | hx
        · exact hiff.mp ht
        · exact hrest x hx
      · intro hC
        have ht := hiff.mpr (hC _ List.mem_cons_self)
        obtain ⟨hall, hend⟩ := (ih (hI _ _ _ hs h) ht).mpr
          (fun x hx => hC x (List.mem_cons_of_mem _ hx))
        refine ⟨fun x hx => ?_, hend⟩
        rcases List.mem_cons.mp hx with rfl | hx
        · exact hP
        · exact hall x hx

end invariants

/-! ### Until -/

/-- If `J` is kept by every step that does not release it (`R`), and such a step is good (`G`), then
every step of a path that starts in `J` and releases nothing is good. -/
theorem Path.until {J : σ → Prop} {R G : σ → α → Prop}
    (hstep : ∀ s a s', J s → ¬ R s a → M.Step s a s' → J s' ∧ G s a) {s s' : σ}
    {l : List (σ × α)} (hp : Path M s l s') (hJ : J s) (hl : ∀ x ∈ l, ¬ R x.1 x.2) :
    ∀ x ∈ l, G x.1 x.2 := by
  induction hp with
  | nil s => intro x hx; cases hx
  | cons h _ ih =>
      obtain ⟨hJ', hgood⟩ := hstep _ _ _ hJ (hl _ List.mem_cons_self) h
      intro x hx
      rcases List.mem_cons.mp hx with rfl | hx
      · exact hgood
      · exact ih hJ' (fun y hy => hl y (List.mem_cons_of_mem _ hy)) x hx

/-! ### Executable machines -/

/-- A guarded step function: `none` where the input is not enabled, otherwise the next state
and the output. -/
structure Machine (σ : Type u) (ι : Type v) (ω : Type v) where
  init : σ → Prop
  step : σ → ι → Option (σ × ω)

namespace Machine
variable {ι ω : Type v} (m : Machine σ ι ω)

/-- The system of a machine; a label is an input with the output it caused. -/
def system : System σ (ι × ω) where
  Init := m.init
  Step s a s' := m.step s a.1 = some (s', a.2)

theorem system_step {s s' : σ} {a : ι × ω} :
    m.system.Step s a s' ↔ m.step s a.1 = some (s', a.2) := Iff.rfl

/-- Run the machine on a list of inputs, collecting the path. -/
def replay : σ → List ι → Option (List (σ × ι × ω) × σ)
  | s, [] => some ([], s)
  | s, i :: is =>
      match m.step s i with
      | none => none
      | some (s', o) => (replay s' is).map fun r => ((s, i, o) :: r.1, r.2)

theorem replay_path {s s' : σ} {is : List ι} {l : List (σ × ι × ω)}
    (h : m.replay s is = some (l, s')) : Path m.system s l s' := by
  induction is generalizing s l with
  | nil =>
      simp only [replay, Option.some.injEq, Prod.mk.injEq] at h
      obtain ⟨rfl, rfl⟩ := h
      exact .nil s
  | cons i is ih =>
      simp only [replay] at h
      cases hs : m.step s i with
      | none => simp [hs] at h
      | some r =>
          obtain ⟨t, o⟩ := r
          simp only [hs, Option.map_eq_some_iff] at h
          obtain ⟨⟨l', u⟩, hr, he⟩ := h
          simp only [Prod.mk.injEq] at he
          obtain ⟨rfl, rfl⟩ := he
          exact .cons hs (ih hr)

/-- The states and labels a list of inputs goes through; none if some input is not enabled. -/
def trace (s : σ) (is : List ι) : List (σ × ι × ω) := ((m.replay s is).map Prod.fst).getD []

/-- The state a list of inputs leads to; the first one if some input is not enabled. -/
def after (s : σ) (is : List ι) : σ := ((m.replay s is).map Prod.snd).getD s

theorem path_trace (s : σ) (is : List ι) :
    Path m.system s (m.trace s is) (m.after s is) := by
  unfold trace after
  cases h : m.replay s is with
  | none => exact .nil s
  | some r => exact m.replay_path h

theorem reachable_after {s : σ} (hs : m.init s) (is : List ι) :
    Reachable m.system (m.after s is) :=
  ⟨s, _, hs, m.path_trace s is⟩

/-- An enabled input leads where a run on that input alone leads. -/
theorem exists_step {s : σ} {i : ι} (h : (m.step s i).isSome) :
    ∃ o, m.system.Step s (i, o) (m.after s [i]) := by
  obtain ⟨⟨s', o⟩, hs⟩ := Option.isSome_iff_exists.mp h
  refine ⟨o, ?_⟩
  simp [system_step, after, replay, hs]

theorem replay_inputs {s s' : σ} {is : List ι} {l : List (σ × ι × ω)}
    (h : m.replay s is = some (l, s')) : l.map (fun x => x.2.1) = is := by
  induction is generalizing s l with
  | nil =>
      simp only [replay, Option.some.injEq, Prod.mk.injEq] at h
      simp [← h.1]
  | cons i is ih =>
      simp only [replay] at h
      cases hs : m.step s i with
      | none => simp [hs] at h
      | some r =>
          simp only [hs, Option.map_eq_some_iff, Prod.mk.injEq] at h
          obtain ⟨⟨l', u⟩, hr, rfl, rfl⟩ := h
          simp [ih hr]

theorem mem_trace {s : σ} {is : List ι} {x : σ × ι × ω} (h : x ∈ m.trace s is) : x.2.1 ∈ is := by
  unfold trace at h
  cases hr : m.replay s is with
  | none => simp [hr] at h
  | some r =>
      rw [← m.replay_inputs hr]
      exact List.mem_map_of_mem (by simpa [hr] using h)

end Machine

end Runs
