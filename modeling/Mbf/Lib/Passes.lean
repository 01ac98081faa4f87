import Mathlib.Algebra.Divisibility.Basic
import Mathlib.Data.List.Basic
import Mathlib.Algebra.Order.Group.Nat

/-! # Loops that emit a list

The loops of an imperative program, as functions into `Option`: the result is the list of what
the iterations emit, in order, and `none` where an iteration is undefined or the fuel runs out.

* `collect body n` is the counting loop `for (i = 0; i < n; i ++)`, and `steps body n` the one
  that moves a state on instead;
* `passes most body` is the loop that works through `left` items in passes,
  `while (left > 0) { now = MIN(left, most); …; left -= now; }`, on a state that its body moves
  on; `passesTo` also returns the state it ends in.

The law of each says that the loop emits what its items emit one by one: `collect_eq`, `steps_eq`,
and `passes_eq`, where a pass may rely on the items coming in whole units, or `passesTo_eq`, where
it is a whole unit that is emitted.  The last section turns a list indexed by a single counter into
nested lists. -/

namespace Passes

variable {σ α : Type*}

/-- A counting loop: what the iterations `0 … n - 1` emit. -/
def collect (body : ℕ → Option (List α)) : ℕ → Option (List α)
  | 0 => some []
  | n + 1 => do
      let before ← collect body n
      let now ← body n
      return before ++ now

/-- A counting loop on a state. -/
def steps (body : ℕ → σ → Option σ) : ℕ → σ → Option σ
  | 0, s => some s
  | n + 1, s => (steps body n s).bind (body n)

/-- A loop in passes of at most `most` items. -/
def passes (most : ℕ) (body : ℕ → σ → Option (List α × σ)) : ℕ → ℕ → σ → Option (List α)
  | _, 0, _ => some []
  | 0, _ + 1, _ => none
  | fuel + 1, left + 1, s =>
      let now := min (left + 1) most
      (body now s).bind fun (out, s') =>
        (passes most body fuel (left + 1 - now) s').map (out ++ ·)

/-- The same loop, with the state it ends in. -/
def passesTo (most : ℕ) (body : ℕ → σ → Option (List α × σ)) :
    ℕ → ℕ → σ → Option (List α × σ)
  | _, 0, s => some ([], s)
  | 0, _ + 1, _ => none
  | fuel + 1, left + 1, s =>
      let now := min (left + 1) most
      (body now s).bind fun (out, s') =>
        (passesTo most body fuel (left + 1 - now) s').map fun (rest, s'') => (out ++ rest, s'')

/-! ### Laws -/

/-- A counting loop all of whose iterations are defined emits what they emit. -/
theorem collect_eq {body : ℕ → Option (List α)} {f : ℕ → List α} {n : ℕ}
    (h : ∀ i, i < n → body i = some (f i)) :
    collect body n = some ((List.range n).flatMap f) := by
  induction n with
  | zero => rfl
  | succ n ih =>
      have hn := h n (Nat.lt_succ_self n)
      have hbefore := ih fun i hi => h i (Nat.lt_succ_of_lt hi)
      simp [collect, hbefore, hn, List.range_succ]

/-- A counting loop over a list emits one item for each of the list. -/
theorem collect_map {ι : Type*} (xs : List ι) {body : ℕ → Option (List α)} {g : ι → α}
    (h : ∀ i (hi : i < xs.length), body i = some [g (xs.get ⟨i, hi⟩)]) :
    collect body xs.length = some (xs.map g) := by
  have htake : ∀ n, n ≤ xs.length → collect body n = some ((xs.take n).map g) := by
    intro n
    induction n with
    | zero => intro _; rfl
    | succ n ih =>
        intro hn
        have hnow := h n hn
        rw [List.take_add_one, List.getElem?_eq_getElem hn, List.map_append]
        simp only [collect, ih (Nat.le_of_succ_le hn), hnow, List.get_eq_getElem, Option.pure_def,
          Option.bind_eq_bind, Option.bind_some, Option.toList_some, List.map_cons, List.map_nil]
  rw [htake _ le_rfl, List.take_length]

/-- The states that a counting loop goes through. -/
theorem steps_eq (body : ℕ → σ → Option σ) (st : ℕ → σ) {n : ℕ}
    (h : ∀ i, i < n → body i (st i) = some (st (i + 1))) : steps body n (st 0) = some (st n) := by
  induction n with
  | zero => rfl
  | succ n ih =>
      rw [steps, ih fun i hi => h i (Nat.lt_succ_of_lt hi), Option.bind_some,
        h n (Nat.lt_succ_self n)]

/-- Items `i … i + m - 1` and then the `k` items after them. -/
theorem range'_flatMap_append (f : ℕ → List α) (i m k : ℕ) :
    (List.range' i (m + k)).flatMap f =
      (List.range' i m).flatMap f ++ (List.range' (i + m) k).flatMap f := by
  rw [← List.range'_append_1, List.flatMap_append]

theorem passes_eq_passesTo (most : ℕ) (body : ℕ → σ → Option (List α × σ)) :
    ∀ fuel left s,
      passes most body fuel left s = (passesTo most body fuel left s).map Prod.fst := by
  intro fuel
  induction fuel with
  | zero =>
      intro left s
      cases left <;> rfl
  | succ fuel ih =>
      intro left s
      cases left with
      | zero => rfl
      | succ left =>
          rw [passes, passesTo, Option.map_bind]
          congr 1
          funext ⟨out, s'⟩
          dsimp only
          rw [ih, Option.map_map, Function.comp_apply, Option.map_map]
          rfl

/-- If every pass of whole units emits what its units emit, so does the loop. -/
theorem passesTo_eq {most unit n : ℕ} (body : ℕ → σ → Option (List α × σ)) (f : ℕ → List α)
    (st : ℕ → σ) (hmost : 0 < most) (hunit : unit ∣ most)
    (hbody : ∀ i k, k * unit ≤ most → i + k ≤ n →
      body (k * unit) (st i) = some ((List.range' i k).flatMap f, st (i + k))) :
    ∀ fuel i left, i + left ≤ n → left * unit ≤ fuel →
      passesTo most body fuel (left * unit) (st i) =
        some ((List.range' i left).flatMap f, st (i + left)) := by
  obtain ⟨q, rfl⟩ := hunit
  have hpos : 0 < unit := Nat.pos_of_mul_pos_right hmost
  have hq : 0 < q := Nat.pos_of_mul_pos_left hmost
  intro fuel
  induction fuel with
  | zero =>
      intro i left _ hfuel
      obtain rfl : left = 0 := by
        by_contra hleft
        have := Nat.mul_pos (Nat.pos_of_ne_zero hleft) hpos
        omega
      simp [passesTo]
  | succ fuel ih =>
      intro i left hn hfuel
      cases hitems : left * unit with
      | zero =>
          obtain rfl : left = 0 := (Nat.mul_eq_zero.mp hitems).resolve_right hpos.ne'
          simp [passesTo]
      | succ items =>
          have hleft : 0 < left := Nat.pos_of_ne_zero fun h => by simp [h] at hitems
          have hnow : min (items + 1) (unit * q) = min left q * unit := by
            rw [← hitems, Nat.mul_comm unit, Nat.mul_min_mul_right]
          have hle := min_le_left left q
          have hless : items + 1 - min left q * unit = (left - min left q) * unit := by
            rw [← hitems, Nat.sub_mul]
          have hdone : 0 < min left q * unit := Nat.mul_pos (lt_min hleft hq) hpos
          have hpass := hbody i (min left q)
            (by rw [Nat.mul_comm unit]; exact Nat.mul_le_mul_right _ (min_le_right _ _)) (by omega)
          have hrest := ih (i + min left q) (left - min left q) (by omega) (by omega)
          have happ := range'_flatMap_append f i (min left q) (left - min left q)
          rw [Nat.add_sub_cancel' hle] at happ
          rw [passesTo, hnow, hpass, Option.bind_some, hless]
          dsimp only
          rw [hrest, happ, Option.map_some, Nat.add_assoc, Nat.add_sub_cancel' hle]

/-- Items in whole units. -/
theorem range'_mul_flatMap (f : ℕ → List α) (unit i k : ℕ) :
    (List.range' (i * unit) (k * unit)).flatMap f =
      (List.range' i k).flatMap fun t => (List.range' (t * unit) unit).flatMap f := by
  induction k with
  | zero => simp
  | succ k ih =>
      rw [Nat.succ_mul, range'_flatMap_append, ih, ← Nat.add_mul, range'_flatMap_append,
        List.range'_one, List.flatMap_singleton]

/-- If every pass that starts and ends at a whole unit emits what its items emit, so does the
loop. -/
theorem passes_eq {most unit n : ℕ} {body : ℕ → σ → Option (List α × σ)} {f : ℕ → List α}
    {st : ℕ → σ} (hmost : 0 < most) (hunit : unit ∣ most)
    (hbody : ∀ i m, unit ∣ i → unit ∣ m → m ≤ most → i + m ≤ n →
      body m (st i) = some ((List.range' i m).flatMap f, st (i + m))) :
    ∀ fuel i left, unit ∣ i → unit ∣ left → i + left ≤ n → left ≤ fuel →
      passes most body fuel left (st i) = some ((List.range' i left).flatMap f) := by
  intro fuel i left hi hleft hn hfuel
  obtain ⟨j, rfl⟩ := exists_eq_mul_left_of_dvd hi
  obtain ⟨units, rfl⟩ := exists_eq_mul_left_of_dvd hleft
  have hpass : ∀ t k, k * unit ≤ most → t + k ≤ j + units → body (k * unit) (st (t * unit)) =
      some ((List.range' t k).flatMap fun t => (List.range' (t * unit) unit).flatMap f,
        st ((t + k) * unit)) := by
    intro t k hk ht
    have hlast : (t + k) * unit ≤ (j + units) * unit := Nat.mul_le_mul_right _ ht
    rw [Nat.add_mul, Nat.add_mul] at hlast
    rw [hbody (t * unit) (k * unit) (Nat.dvd_mul_left _ _) (Nat.dvd_mul_left _ _) hk (by omega),
      range'_mul_flatMap, Nat.add_mul]
  have hloop := passesTo_eq body (fun t => (List.range' (t * unit) unit).flatMap f)
    (fun t => st (t * unit)) hmost hunit hpass fuel j units le_rfl hfuel
  rw [passes_eq_passesTo, hloop, range'_mul_flatMap]
  rfl

/-- Bodies that agree on all passes, on a state that counts the items, give the same loop. -/
theorem passes_congr {most n : ℕ} {body body' : ℕ → ℕ → Option (List α × ℕ)} (hmost : 0 < most)
    (hbody : ∀ i m, i + m ≤ n → body m i = body' m i)
    (hnext : ∀ i m, ∃ out, body' m i = some (out, i + m)) :
    ∀ fuel left i, left ≤ fuel → i + left ≤ n →
      passes most body fuel left i = passes most body' fuel left i := by
  intro fuel
  induction fuel with
  | zero =>
      intro left i hfuel _
      obtain rfl : left = 0 := by omega
      simp [passes]
  | succ fuel ih =>
      intro left i hfuel hn
      cases left with
      | zero => simp [passes]
      | succ left =>
          have hle := min_le_left (left + 1) most
          have hpos : 0 < min (left + 1) most := lt_min (Nat.succ_pos left) hmost
          have hpass := hbody i (min (left + 1) most) (by omega)
          obtain ⟨out, hout⟩ := hnext i (min (left + 1) most)
          have hrest := ih (left + 1 - min (left + 1) most) (i + min (left + 1) most) (by omega)
            (by omega)
          simp [passes, hpass, hout, hrest]

/-! ### Nested lists -/

/-- A counter up to `m * n` is a pair of counters. -/
theorem range_mul_flatMap (f : ℕ → List α) (m n : ℕ) :
    (List.range (m * n)).flatMap f =
      (List.range m).flatMap fun i => (List.range n).flatMap fun j => f (i * n + j) := by
  induction m with
  | zero => simp
  | succ m ih =>
      rw [Nat.succ_mul, List.range_add, List.flatMap_append, ih, List.range_succ,
        List.flatMap_append, List.flatMap_map, List.flatMap_singleton]

/-- Only one of the items emits anything. -/
theorem range_flatMap_single (g : ℕ → List α) {k n : ℕ} (hk : k < n) :
    ((List.range n).flatMap fun j => if j = k then g j else []) = g k := by
  induction n with
  | zero => omega
  | succ n ih =>
      rw [List.range_succ, List.flatMap_append, List.flatMap_singleton]
      by_cases h : k = n
      · subst h
        have hnone : ((List.range k).flatMap fun j => if j = k then g j else []) = [] := by
          rw [List.flatMap_eq_nil_iff]
          intro j hj
          rw [if_neg (List.mem_range.mp hj).ne]
        rw [hnone, if_pos rfl, List.nil_append]
      · rw [ih (by omega), if_neg (Ne.symm h), List.append_nil]

end Passes
