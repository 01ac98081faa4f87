import Mathlib.Algebra.BigOperators.Fin
import Mathlib.Algebra.Order.BigOperators.Group.Finset
import Mbf.Detector.Output
import Mbf.Detector.Info

/-! # The samples in the memory

Each write puts a sample of every detector on its way, and `detector_dram_output` takes them in
the order of `slots`, going round the detectors; what it takes of an enabled detector goes to the
memory.  `Flow` relates the state to how many it has taken. -/

namespace Mbf.Detector

/-- The samples of some writes, in the order in which they are taken. -/
def slots (ws : List (DetectorId → Sample)) : List (DetectorId × Sample) :=
  ws.flatMap fun w => (List.finRange 4).map fun d => (d, w d)

/-- Those of the enabled detectors. -/
def kept (enable : DetectorId → Bool) (l : List (DetectorId × Sample)) : List Sample :=
  (l.filter fun slot => enable slot.1).map Prod.snd

theorem kept_append (enable : DetectorId → Bool) (l l' : List (DetectorId × Sample)) :
    kept enable (l ++ l') = kept enable l ++ kept enable l' := by
  simp [kept]

theorem kept_slots (enable : DetectorId → Bool) (ws : List (DetectorId → Sample)) :
    kept enable (slots ws) = ws.flatMap (writtenSamples enable) := by
  induction ws with
  | nil => rfl
  | cons w ws ih =>
      have hcons : slots (w :: ws) = (List.finRange 4).map (fun d => (d, w d)) ++ slots ws := rfl
      rw [hcons, kept_append, ih, List.flatMap_cons, kept, List.filter_map, List.map_map]
      rfl

theorem slots_append (ws ws' : List (DetectorId → Sample)) :
    slots (ws ++ ws') = slots ws ++ slots ws' := by
  simp [slots]

theorem slots_length (ws : List (DetectorId → Sample)) : (slots ws).length = 4 * ws.length := by
  induction ws with
  | nil => rfl
  | cons w ws ih =>
      have hcons : slots (w :: ws) = (List.finRange 4).map (fun d => (d, w d)) ++ slots ws := rfl
      rw [hcons, List.length_append, ih, List.length_map, List.length_finRange, List.length_cons]
      omega

/-- The detector `d` is at every fourth place. -/
theorem slots_getElem? (ws : List (DetectorId → Sample)) (k : ℕ) (d : DetectorId) :
    (slots ws)[4 * k + d.val]? = ws[k]?.map fun w => (d, w d) := by
  induction ws generalizing k with
  | nil => rfl
  | cons w ws ih =>
      have hcons : slots (w :: ws) = (List.finRange 4).map (fun d => (d, w d)) ++ slots ws := rfl
      have hlen : ((List.finRange 4).map fun d => (d, w d)).length = 4 := by simp
      cases k with
      | zero =>
          rw [hcons, List.getElem?_append_left (by omega)]
          simp
      | succ k =>
          rw [hcons, List.getElem?_append_right (by omega), hlen, List.getElem?_cons_succ, ← ih]
          congr 1
          omega

/-! ### The invariant -/

/-- The samples of a detector that are yet to be taken. -/
def DetectorOutput.fresh (s : DetectorOutput) (d : DetectorId) : List Sample :=
  if s.dram.inputReadyOut d then (s.channels d).waiting.tail else (s.channels d).waiting

/-- Of the samples of the writes `ws` the first `m` have been taken. -/
structure Flow (enable : DetectorId → Bool) (ws : List (DetectorId → Sample))
    (taken : List (DramAddress × Sample)) (m : ℕ) (s : DetectorOutput) : Prop where
  selection : s.dram.selection.val = m % 4
  ready : ∀ d, s.dram.inputReadyOut d = true →
    d ≠ s.dram.selection ∧ (s.channels d).out.isSome = true
  fresh : ∀ d : DetectorId, s.fresh d = (ws.map (· d)).drop ((m + 3 - d.val) / 4)
  bound : m ≤ 4 * ws.length
  data : taken.map Prod.snd ++ (if s.dram.outputBusy then [s.dram.outputData] else []) =
    kept enable ((slots ws).take m)
  addr : taken.map Prod.fst = (List.range taken.length).map (BitVec.ofNat 23)
  outputAddr : s.dram.outputAddr = BitVec.ofNat 23 taken.length

/-- No channel has lost a sample. -/
def DetectorOutput.Kept (s : DetectorOutput) : Prop := ∀ d, (s.channels d).Kept

/-- What is offered stays offered until it is taken. -/
theorem OutputChannel.clock_out {write : Option Sample} {c : OutputChannel}
    (h : (c.clock write false).Kept) {x : Sample} (hout : c.out = some x) :
    (c.clock write false).out = some x := by
  cases hstages : c.stages with
  | nil =>
      have hoffered : c.offered = some x := by
        unfold out at hout
        rw [hstages] at hout
        exact hout
      have hvalid : c.outputValid = true := by
        cases hv : c.outputValid with
        | true => rfl
        | false => simp [offered, hv] at hoffered
      have hnone : write = none := by
        simpa [Kept, clock, hvalid, hstages, Buffers.chainReady] using h
      simp only [offered, hvalid, if_true, Option.some.injEq] at hoffered
      simp [out, offered, clock, hvalid, hstages, hnone, Buffers.chain, Buffers.chainReady,
        Buffers.chainOut, hoffered]
  | cons stage rest =>
      have hne : c.stages ≠ [] := by rw [hstages]; exact List.cons_ne_nil stage rest
      exact Buffers.chainOut_keep hout hne _

section step
variable {enable : DetectorId → Bool} {ws : List (DetectorId → Sample)}
  {taken : List (DramAddress × Sample)} {m : ℕ} {s : DetectorOutput} {i : OutputInput}

/-- What the selected detector offers is the next sample. -/
theorem Flow.next (h : Flow enable ws taken m s) {x : Sample}
    (hout : (s.channels s.dram.selection).out = some x) :
    (slots ws)[m]? = some (s.dram.selection, x) ∧ m < 4 * ws.length := by
  have hready : s.dram.inputReadyOut s.dram.selection = false := by
    cases hr : s.dram.inputReadyOut s.dram.selection with
    | false => rfl
    | true => exact absurd rfl (h.ready _ hr).1
  have hfresh := h.fresh s.dram.selection
  simp only [DetectorOutput.fresh, hready, Bool.false_eq_true, if_false] at hfresh
  obtain ⟨rest, hrest⟩ := Buffers.queue_of_chainOut hout
  have hplace : (m + 3 - s.dram.selection.val) / 4 = m / 4 := by
    have := h.selection
    omega
  rw [OutputChannel.waiting, hrest, hplace] at hfresh
  have hhead := congrArg (fun l => l[0]?) hfresh
  simp only [List.cons_append, List.getElem?_cons_zero, List.getElem?_drop, Nat.add_zero,
    List.getElem?_map] at hhead
  have hindex : m = 4 * (m / 4) + s.dram.selection.val := by
    have := h.selection
    omega
  cases hw : ws[m / 4]? with
  | none => simp [hw] at hhead
  | some w =>
      rw [hw, Option.map_some, Option.some.injEq] at hhead
      have hslot := slots_getElem? ws (m / 4) s.dram.selection
      rw [← hindex, hw, Option.map_some, ← hhead] at hslot
      refine ⟨hslot, ?_⟩
      have := (List.getElem?_eq_some_iff.mp hw).1
      omega

/-- The next sample is taken on this clock. -/
def DetectorOutput.advances (enable : DetectorId → Bool) (i : OutputInput) (s : DetectorOutput) :
    Bool :=
  (s.channels s.dram.selection).out.isSome &&
    ((!s.dram.outputBusy || i.memReady) || !enable s.dram.selection)

theorem Flow.advances_lt (h : Flow enable ws taken m s) (hadvance : s.advances enable i = true) :
    m < 4 * ws.length := by
  unfold DetectorOutput.advances at hadvance
  rw [Bool.and_eq_true] at hadvance
  obtain ⟨x, hx⟩ := Option.isSome_iff_exists.mp hadvance.1
  exact (h.next hx).2

theorem Flow.fresh_clock (h : Flow enable ws taken m s) (hkept : s.Kept)
    (hkept' : (s.clock enable i).Kept) (d : DetectorId) :
    ((s.clock enable i).channels d).waiting = s.fresh d ++ (i.write.map (· d)).toList := by
  have hwaiting := OutputChannel.clock_waiting (hkept d) (hkept' d)
  change ((s.channels d).clock (i.write.map (· d)) (s.dram.inputReadyOut d)).waiting = _
  rw [hwaiting]
  unfold DetectorOutput.fresh
  cases hr : s.dram.inputReadyOut d with
  | false => rfl
  | true => simp [(h.ready d hr).2]

/-- The places before those that are taken do not depend on later writes. -/
theorem slots_take_append (ws ws' : List (DetectorId → Sample)) {m : ℕ} (hm : m ≤ 4 * ws.length) :
    (slots (ws ++ ws')).take m = (slots ws).take m := by
  rw [slots_append, List.take_append_of_le_length]
  rw [slots_length]
  exact hm

theorem Flow.clock_selection (h : Flow enable ws taken m s) (hreset : i.addressReset = false) :
    (s.clock enable i).dram.selection.val = (m + (s.advances enable i).toNat) % 4 := by
  have hsel := h.selection
  have hlt := s.dram.selection.isLt
  change (if i.addressReset then 0 else if s.advances enable i then
    (if s.dram.selection.val = 3 then 0 else s.dram.selection + 1)
    else s.dram.selection : DetectorId).val = _
  rw [hreset]
  cases s.advances enable i with
  | false => simpa using hsel
  | true =>
      simp only [Bool.false_eq_true, if_false, if_true, Bool.toNat_true]
      split_ifs with hlast
      · show 0 = _
        omega
      · rw [Fin.val_add_one_of_lt (by rw [Fin.lt_def]; show _ < 3; omega)]
        omega

theorem Flow.clock_ready (h : Flow enable ws taken m s) (hkept' : (s.clock enable i).Kept)
    (hreset : i.addressReset = false) (d : DetectorId)
    (hd : (s.clock enable i).dram.inputReadyOut d = true) :
    d ≠ (s.clock enable i).dram.selection ∧ ((s.clock enable i).channels d).out.isSome = true := by
  have hboth : (s.advances enable i && decide (s.dram.selection = d)) = true := hd
  rw [Bool.and_eq_true, decide_eq_true_eq] at hboth
  obtain ⟨hadvance, rfl⟩ := hboth
  refine ⟨?_, ?_⟩
  · intro heq
    have hnext := h.clock_selection hreset (i := i)
    rw [← heq, hadvance, h.selection, Bool.toNat_true] at hnext
    omega
  · have hready : s.dram.inputReadyOut s.dram.selection = false := by
      cases hr : s.dram.inputReadyOut s.dram.selection with
      | false => rfl
      | true => exact absurd rfl (h.ready _ hr).1
    have hsome : (s.channels s.dram.selection).out.isSome = true := by
      unfold DetectorOutput.advances at hadvance
      exact (Bool.and_eq_true _ _ ▸ hadvance).1
    obtain ⟨x, hx⟩ := Option.isSome_iff_exists.mp hsome
    have hk := hkept' s.dram.selection
    change ((s.channels s.dram.selection).clock _ (s.dram.inputReadyOut s.dram.selection)).Kept at hk
    rw [hready] at hk
    have hstays := OutputChannel.clock_out hk hx
    change ((s.channels s.dram.selection).clock _
      (s.dram.inputReadyOut s.dram.selection)).out.isSome = true
    rw [hready, hstays]
    rfl

theorem Flow.clock_fresh (h : Flow enable ws taken m s) (hkept : s.Kept)
    (hkept' : (s.clock enable i).Kept) (d : DetectorId) :
    (s.clock enable i).fresh d = ((ws ++ i.write.toList).map (· d)).drop
      ((m + (s.advances enable i).toNat + 3 - d.val) / 4) := by
  have hwaiting := h.fresh_clock hkept hkept' d
  have hfresh := h.fresh d
  have hbound := h.bound
  have hlt := d.isLt
  have hsel := h.selection
  have hmap : (i.write.map (· d)).toList = i.write.toList.map (· d) := by cases i.write <;> rfl
  have hready : (s.clock enable i).dram.inputReadyOut d =
      (s.advances enable i && decide (s.dram.selection = d)) := rfl
  rw [hfresh, hmap] at hwaiting
  unfold DetectorOutput.fresh
  rw [hready, hwaiting, List.map_append]
  cases hadvance : s.advances enable i with
  | false =>
      have hle : (m + 3 - d.val) / 4 ≤ (ws.map (· d)).length := by
        rw [List.length_map]
        omega
      simp only [Bool.false_and, Bool.false_eq_true, if_false, Bool.toNat_false, Nat.add_zero]
      rw [List.drop_append_of_le_length hle]
  | true =>
      have hroom := h.advances_lt hadvance
      have hle : (m + 1 + 3 - d.val) / 4 ≤ (ws.map (· d)).length := by
        rw [List.length_map]
        omega
      simp only [Bool.true_and, decide_eq_true_eq, Bool.toNat_true]
      rw [List.drop_append_of_le_length hle]
      split_ifs with hd
      · have hplace : (m + 1 + 3 - d.val) / 4 = (m + 3 - d.val) / 4 + 1 := by
          rw [hd] at hsel
          omega
        have hne : (ws.map (· d)).drop ((m + 3 - d.val) / 4) ≠ [] := by
          rw [Ne, List.drop_eq_nil_iff, not_le]
          omega
        rw [List.tail_append_of_ne_nil hne, List.tail_drop, hplace]
      · have hplace : (m + 1 + 3 - d.val) / 4 = (m + 3 - d.val) / 4 := by
          have hne : d.val ≠ m % 4 := by
            intro heq
            exact hd (Fin.ext (hsel.trans heq.symm))
          omega
        rw [hplace]

theorem Flow.clock_data (h : Flow enable ws taken m s) :
    (taken ++ (s.emitted i).toList).map Prod.snd ++
        (if (s.clock enable i).dram.outputBusy then [(s.clock enable i).dram.outputData] else []) =
      kept enable ((slots (ws ++ i.write.toList)).take (m + (s.advances enable i).toNat)) := by
  have hdata := h.data
  have hnext := @Flow.next enable ws taken m s h
  have hadvances : m + (s.advances enable i).toNat ≤ 4 * ws.length := by
    cases hadvance : s.advances enable i with
    | false => exact h.bound
    | true => exact h.advances_lt hadvance
  rw [slots_take_append _ _ hadvances, List.map_append]
  change _ ++ (if ((s.channels s.dram.selection).out.isSome && enable s.dram.selection ||
      s.dram.outputBusy && !i.memReady) then
    [if (s.channels s.dram.selection).out.isSome && enable s.dram.selection &&
        (!s.dram.outputBusy || i.memReady) then
      ((s.channels s.dram.selection).out).getD 0 else s.dram.outputData] else []) = _
  unfold DetectorOutput.emitted DetectorOutput.advances
  cases hout : (s.channels s.dram.selection).out with
  | none =>
      simp only [Option.isSome_none, Bool.false_and, Bool.false_or, Bool.toNat_false, Nat.add_zero,
        ← hdata, Bool.false_eq_true, if_false]
      cases s.dram.outputBusy <;> cases i.memReady <;> simp
  | some x =>
      have htake : kept enable ((slots ws).take (m + 1)) =
          kept enable ((slots ws).take m) ++ kept enable [(s.dram.selection, x)] := by
        rw [List.take_add_one, (hnext hout).1, kept_append]
        rfl
      cases henable : enable s.dram.selection with
      | false =>
          have hnone : kept enable [(s.dram.selection, x)] = [] := by simp [kept, henable]
          rw [hnone, List.append_nil, ← hdata] at htake
          simp only [Option.isSome_some, Bool.and_false, Bool.false_or, Bool.not_false,
            Bool.or_true, Bool.and_true, Bool.toNat_true, htake, Bool.false_and,
            Bool.false_eq_true, if_false]
          cases s.dram.outputBusy <;> cases i.memReady <;> simp
      | true =>
          have hone : kept enable [(s.dram.selection, x)] = [x] := by simp [kept, henable]
          rw [hone, ← hdata] at htake
          simp only [Option.isSome_some, Bool.and_true, Bool.true_or, Bool.not_true, Bool.or_false,
            Bool.true_and, Option.getD_some, if_true]
          cases hbusy : s.dram.outputBusy <;> cases hmem : i.memReady <;>
            simp [hbusy] at htake hdata ⊢ <;> first | rw [htake] | rw [hdata]

theorem Flow.clock_addr (h : Flow enable ws taken m s) (hreset : i.addressReset = false) :
    (taken ++ (s.emitted i).toList).map Prod.fst =
        (List.range (taken ++ (s.emitted i).toList).length).map (BitVec.ofNat 23) ∧
      (s.clock enable i).dram.outputAddr =
        BitVec.ofNat 23 (taken ++ (s.emitted i).toList).length := by
  have haddr : (s.clock enable i).dram.outputAddr =
      if s.dram.outputBusy && i.memReady then s.dram.outputAddr + 1 else s.dram.outputAddr := by
    change (if i.addressReset then 0 else _) = _
    rw [hreset]
    rfl
  rw [haddr, h.outputAddr]
  unfold DetectorOutput.emitted
  split_ifs with hemit
  · refine ⟨?_, ?_⟩
    · simp [h.addr, h.outputAddr, List.range_succ]
    · simp [BitVec.ofNat_add]
  · exact ⟨by simpa using h.addr, by simp⟩

/-- What a clock does. -/
theorem Flow.clock (h : Flow enable ws taken m s) (hkept : s.Kept)
    (hkept' : (s.clock enable i).Kept) (hreset : i.addressReset = false) :
    Flow enable (ws ++ i.write.toList) (taken ++ (s.emitted i).toList)
      (m + (s.advances enable i).toNat) (s.clock enable i) where
  selection := h.clock_selection hreset
  ready := h.clock_ready hkept' hreset
  fresh := h.clock_fresh hkept hkept'
  bound := by
    rw [List.length_append]
    cases hadvance : s.advances enable i with
    | false =>
        have := h.bound
        simp only [Bool.toNat_false]
        omega
    | true =>
        have := h.advances_lt hadvance
        simp only [Bool.toNat_true]
        omega
  data := h.clock_data
  addr := (h.clock_addr hreset).1
  outputAddr := (h.clock_addr hreset).2

/-- With nothing on its way all samples have been taken. -/
theorem Flow.idle (h : Flow enable ws taken m s) (hidle : s.Idle) : m = 4 * ws.length := by
  have hbound := h.bound
  obtain ⟨hwrite, hvalid, hstages⟩ := hidle.channels 3
  have hfresh := h.fresh 3
  unfold DetectorOutput.fresh at hfresh
  rw [hidle.ready 3, OutputChannel.waiting_of_idle hwrite hvalid hstages] at hfresh
  have hdrop := List.drop_eq_nil_iff.mp hfresh.symm
  rw [List.length_map] at hdrop
  have h3 : (3 : DetectorId).val = 3 := rfl
  rw [h3] at hdrop
  omega

/-! ### Progress -/

/-- What remains to be done for the samples on their way. -/
def DetectorOutput.rank (writes m : ℕ) (s : DetectorOutput) : ℕ :=
  2 * (4 * writes - m) + s.dram.outputBusy.toNat + ∑ d, (s.channels d).travel

/-- The state after a clock without a write. -/
theorem Flow.clock_travel (hnone : i.write = none) (d : DetectorId) :
    ((s.clock enable i).channels d).travel =
      ((s.channels d).clock none (s.dram.inputReadyOut d)).travel := by
  change ((s.channels d).clock (i.write.map (· d)) (s.dram.inputReadyOut d)).travel = _
  rw [hnone]
  rfl

theorem clock_outputBusy : (s.clock enable i).dram.outputBusy =
    ((s.channels s.dram.selection).out.isSome && enable s.dram.selection ||
      s.dram.outputBusy && !i.memReady) := rfl

/-- No clock without a write adds to it. -/
theorem Flow.rank_le (h : Flow enable ws taken m s) (hkept : s.Kept) (hnone : i.write = none) :
    (s.clock enable i).rank ws.length (m + (s.advances enable i).toNat) ≤ s.rank ws.length m := by
  have htravel : ∑ d, ((s.clock enable i).channels d).travel ≤ ∑ d, (s.channels d).travel := by
    apply Finset.sum_le_sum
    intro d _
    rw [Flow.clock_travel hnone]
    exact OutputChannel.clock_travel_le (hkept d)
  have hrest : 2 * (4 * ws.length - (m + (s.advances enable i).toNat)) +
      (s.clock enable i).dram.outputBusy.toNat ≤
      2 * (4 * ws.length - m) + s.dram.outputBusy.toNat := by
    cases hadvance : s.advances enable i with
    | true =>
        have hlt := h.advances_lt hadvance
        have hbusy := Bool.toNat_le (s.clock enable i).dram.outputBusy
        rw [Bool.toNat_true]
        omega
    | false =>
        have hbusy : (s.clock enable i).dram.outputBusy.toNat ≤ s.dram.outputBusy.toNat := by
          rw [clock_outputBusy]
          unfold DetectorOutput.advances at hadvance
          cases hb : s.dram.outputBusy with
          | true => exact Bool.toNat_le _
          | false =>
              rw [hb] at hadvance
              have hout : (s.channels s.dram.selection).out.isSome = false := by
                simpa using hadvance
              rw [hout]
              rfl
        rw [Bool.toNat_false]
        omega
  unfold DetectorOutput.rank
  omega

/-- A clock on which the memory is ready does some of it, unless there is nothing on its way. -/
theorem Flow.rank_lt (h : Flow enable ws taken m s) (hkept : s.Kept) (hnone : i.write = none)
    (hmem : i.memReady = true) (hidle : ¬ s.Idle) :
    (s.clock enable i).rank ws.length (m + (s.advances enable i).toNat) < s.rank ws.length m := by
  have htravel_le : ∀ d, ((s.clock enable i).channels d).travel ≤ (s.channels d).travel := by
    intro d
    rw [Flow.clock_travel hnone]
    exact OutputChannel.clock_travel_le (hkept d)
  have hsum : ∑ d, ((s.clock enable i).channels d).travel ≤ ∑ d, (s.channels d).travel :=
    Finset.sum_le_sum fun d _ => htravel_le d
  unfold DetectorOutput.rank
  cases hadvance : s.advances enable i with
  | true =>
      have hlt := h.advances_lt hadvance
      have hbusy := Bool.toNat_le (s.clock enable i).dram.outputBusy
      rw [Bool.toNat_true]
      omega
  | false =>
      have hout : (s.channels s.dram.selection).out = none := by
        unfold DetectorOutput.advances at hadvance
        rw [hmem, Bool.or_true, Bool.true_or, Bool.and_true] at hadvance
        exact Option.not_isSome_iff_eq_none.mp (by simp [hadvance])
      have hbusy' : (s.clock enable i).dram.outputBusy = false := by
        rw [clock_outputBusy, hout, hmem]
        simp
      rw [hbusy', Bool.toNat_false, Nat.add_zero]
      cases hbusy : s.dram.outputBusy with
      | true => simp only [Bool.toNat_true]; omega
      | false =>
          -- no sample is taken, so it is in one of the channels that something moves
          have hmoves : ∃ d, s.dram.inputReadyOut d = true ∧ (s.channels d).out.isSome = true ∨
              (s.channels d).out = none ∧ (s.channels d).waiting ≠ [] := by
            by_contra hstuck
            rw [not_exists] at hstuck
            have hready : ∀ d, s.dram.inputReadyOut d = false := by
              intro d
              cases hr : s.dram.inputReadyOut d with
              | false => rfl
              | true => exact absurd (Or.inl ⟨hr, (h.ready d hr).2⟩) (hstuck d)
            have hselected : (s.channels s.dram.selection).waiting = [] := by
              by_contra hne
              exact hstuck s.dram.selection (Or.inr ⟨hout, hne⟩)
            have hfresh := h.fresh s.dram.selection
            unfold DetectorOutput.fresh at hfresh
            rw [hready, hselected] at hfresh
            have hdrop := List.drop_eq_nil_iff.mp hfresh.symm
            rw [List.length_map] at hdrop
            have hsel := h.selection
            apply hidle
            refine ⟨?_, hready, hbusy⟩
            intro d
            apply OutputChannel.idle_of_waiting
            have hfresh := h.fresh d
            unfold DetectorOutput.fresh at hfresh
            rw [hready] at hfresh
            simp only [Bool.false_eq_true, if_false] at hfresh
            rw [hfresh, List.drop_eq_nil_iff, List.length_map]
            have := d.isLt
            omega
          obtain ⟨d, hd⟩ := hmoves
          have hlt : ∑ d, ((s.clock enable i).channels d).travel < ∑ d, (s.channels d).travel := by
            apply Finset.sum_lt_sum
            · intro d _
              exact htravel_le d
            · refine ⟨d, Finset.mem_univ d, ?_⟩
              rw [Flow.clock_travel hnone]
              exact OutputChannel.clock_travel_lt (hkept d) hd
          simp only [Bool.toNat_false]
          omega

end step

/-! ### Runs -/

section runs
variable {enable : DetectorId → Bool} {s : DetectorOutput} {i : ℕ → OutputInput} {length n : ℕ}

/-- How many samples have been taken before the clock `n`. -/
def advancesBefore (enable : DetectorId → Bool) (s : DetectorOutput) (i : ℕ → OutputInput) : ℕ → ℕ
  | 0 => 0
  | n + 1 => advancesBefore enable s i n + ((outputRun enable s i n).advances enable (i n)).toNat

theorem NoUnderrun.kept (h : NoUnderrun enable s i (n + 1)) {k : ℕ} (hk : k ≤ n) :
    (outputRun enable s i k).Kept := by
  intro d
  exact h (k + 1) (by omega) d

theorem Starts.flow (h : Starts s i length) : Flow enable [] [] 0 s where
  selection := by rw [h.selection]; rfl
  ready d hd := by rw [h.idle.ready d] at hd; cases hd
  fresh d := by
    obtain ⟨hwrite, hvalid, hstages⟩ := h.idle.channels d
    unfold DetectorOutput.fresh
    rw [h.idle.ready d, OutputChannel.waiting_of_idle hwrite hvalid hstages]
    simp
  bound := le_rfl
  data := by rw [h.idle.busy]; rfl
  addr := rfl
  outputAddr := h.outputAddr

theorem flow_run (h : Starts s i length) (hunderrun : NoUnderrun enable s i (n + 1)) :
    Flow enable (writesBefore i n) (takenBefore enable s i n) (advancesBefore enable s i n)
      (outputRun enable s i n) := by
  induction n with
  | zero => exact h.flow
  | succ n ih =>
      have hbefore : NoUnderrun enable s i (n + 1) := fun k hk => hunderrun k (by omega)
      have hkept := hunderrun.kept (Nat.le_succ n)
      have hkept' := hunderrun.kept (le_refl (n + 1))
      have hflow := (ih hbefore).clock hkept hkept' (h.reset n)
      have hwrites : writesBefore i (n + 1) = writesBefore i n ++ (i n).write.toList := by
        simp [writesBefore, List.range_succ]
      have htaken : takenBefore enable s i (n + 1) = takenBefore enable s i n ++
          ((outputRun enable s i n).emitted (i n)).toList := by
        simp [takenBefore, List.range_succ]
      rw [hwrites, htaken]
      exact hflow

/-- Once the writes stop, a memory that is ready again and again takes all samples. -/
theorem exists_idle (h : Starts s i length) (hunderrun : ∀ n, NoUnderrun enable s i n) {last : ℕ}
    (hlast : ∀ k, last ≤ k → (i k).write = none)
    (hmem : Clocked.Recurs fun k => (i k).memReady = true) :
    ∃ n, last ≤ n ∧ (outputRun enable s i n).Idle := by
  by_contra hnever
  have hwrites : ∀ n, last ≤ n → writesBefore i n = writesBefore i last := by
    intro n hn
    induction n, hn using Nat.le_induction with
    | base => rfl
    | succ n hn ih =>
        have hsucc : writesBefore i (n + 1) = writesBefore i n ++ (i n).write.toList := by
          simp [writesBefore, List.range_succ]
        rw [hsucc, hlast n hn, ih]
        exact List.append_nil _
  have hflow := fun n => flow_run (n := n) h (hunderrun (n + 1))
  have hkept : ∀ n, (outputRun enable s i n).Kept := fun n => (hunderrun (n + 1)).kept le_rfl
  refine @Clocked.Recurs.not_decreasing _ hmem (fun n => (outputRun enable s i n).rank
    (writesBefore i last).length (advancesBefore enable s i n)) last ?_ ?_
  · intro n hn
    have hle := (hflow n).rank_le (i := i n) (hkept n) (hlast n hn)
    rw [hwrites n hn] at hle
    exact hle
  · intro n hn hready
    have hidle : ¬ (outputRun enable s i n).Idle := fun hidle => hnever ⟨n, hn, hidle⟩
    have hlt := (hflow n).rank_lt (i := i n) (hkept n) (hlast n hn) hready hidle
    rw [hwrites n hn] at hlt
    exact hlt

end runs

end Mbf.Detector
