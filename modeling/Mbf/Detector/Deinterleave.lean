import Mbf.Detector.Samples

/-! # From the memory to the waveforms

The readout of a capture: `read_detector_memory` reads the words of the axis from the start of its
area of DRAM1, and `compute_wf_iq` hands them out to the enabled detectors in turn.

The words arrive in that order, at consecutive addresses, so each detector gets its own samples
(`detector_samples_in_order`), as long as the capture fits the area.  The address wraps at the end
of the area, so a longer capture overwrites its own start (`detector_samples_overwritten`). -/

namespace Mbf.Detector

/-! ### The readout -/

/-- `DRAM1_LENGTH`. -/
def dram1Length : ℕ := 0x08000000

/-- The word of DRAM1 for an address of an axis. -/
def dram1Word (axis : Fin 2) (a : DramAddress) : ℕ := (BitVec.ofFin axis ++ a : BitVec 24).toNat

/-- The words of DRAM1 after an axis has written. -/
def dram1After (axis : Fin 2) (dram1 : ℕ → Sample) (taken : List (DramAddress × Sample)) :
    ℕ → Sample :=
  taken.foldl (fun mem item => Function.update mem (dram1Word axis item.1) item.2) dram1

/-- `hw_read_det_memory`. -/
def hwReadDetMemory (dram1 : ℕ → Sample) (axis : Fin 2) (resultCount offset : ℕ) : List Sample :=
  (List.range resultCount).map fun k =>
    dram1 ((axis.val * (dram1Length / 2) + offset) / detectorResultSize + k)

section software
variable {α : Type} (enables : DetectorId → Bool) (rotate : ℕ → Sample → α)
  (readBuffer : List Sample)

/-- The waveforms, and how many results have been handed out. -/
structure WfState (α : Type) where
  result : ℕ
  wf : DetectorId → ℕ → α

/-- The body of the loops of `compute_wf_iq`.  What it makes of the result for the point `i` of a
waveform, which depends on the scale there, is `rotate i`. -/
def computeWfStep (i : ℕ) (st : WfState α) (j : DetectorId) : WfState α :=
  if enables j then
    { result := st.result + 1
      wf := Function.update st.wf j
        (Function.update (st.wf j) i (rotate i (readBuffer.getD st.result 0))) }
  else st

/-- `compute_wf_iq`. -/
def computeWfIq (samples : ℕ) (wf : DetectorId → ℕ → α) : DetectorId → ℕ → α :=
  ((List.range samples).foldl (fun st i =>
    (List.finRange 4).foldl (computeWfStep enables rotate readBuffer i) st) ⟨0, wf⟩).wf

end software

/-- `gather_buffers`: the enables. -/
def gatherEnables (detectorMask : ℕ) (i : DetectorId) : Bool := (detectorMask >>> i.val) &&& 1 != 0

/-- `read_detector_memory`, up to the waveforms. -/
def readDetectorMemory {α Tune : Type} (setup : Setup Tune) (axis : Fin 2) (dram1 : ℕ → Sample)
    (rotate : ℕ → Sample → α) (det : DetectorContext Tune) (wf : DetectorId → ℕ → α) :
    DetectorId → ℕ → α :=
  let samples := min det.scaleInfo.samples setup.detectorLength
  computeWfIq (gatherEnables det.detectorMask) rotate
    (hwReadDetMemory dram1 axis (samples * det.detectorCount) 0) samples wf

/-! ### The words -/

/-- The word of an address of the axis. -/
theorem dram1Word_eq (axis : Fin 2) (a : DramAddress) :
    dram1Word axis a = axis.val * 2 ^ 23 + a.toNat := by
  unfold dram1Word
  rw [BitVec.toNat_append, ← Nat.shiftLeft_add_eq_or_of_lt a.isLt, Nat.shiftLeft_eq]
  rfl

theorem dram1Word_inj {axis : Fin 2} {a b : DramAddress} (h : dram1Word axis a = dram1Word axis b) :
    a = b := by
  rw [dram1Word_eq, dram1Word_eq] at h
  exact BitVec.eq_of_toNat_eq (by omega)

/-- Words at different addresses stay where they are. -/
theorem dram1After_getElem (axis : Fin 2) (dram1 : ℕ → Sample)
    {taken : List (DramAddress × Sample)} (hnodup : (taken.map Prod.fst).Nodup) {k : ℕ}
    {a : DramAddress} {x : Sample} (hk : taken[k]? = some (a, x)) :
    dram1After axis dram1 taken (dram1Word axis a) = x := by
  induction taken generalizing dram1 k with
  | nil => simp at hk
  | cons item rest ih =>
      rw [List.map_cons, List.nodup_cons] at hnodup
      cases k with
      | zero =>
          rw [List.getElem?_cons_zero, Option.some.injEq] at hk
          subst hk
          have hother : ∀ (l : List (DramAddress × Sample)) (mem : ℕ → Sample),
              a ∉ l.map Prod.fst →
              dram1After axis mem l (dram1Word axis a) = mem (dram1Word axis a) := by
            intro l
            induction l with
            | nil => intro mem _; rfl
            | cons y l ihl =>
                intro mem hmem
                rw [List.map_cons, List.mem_cons, not_or] at hmem
                refine (ihl _ hmem.2).trans (Function.update_of_ne ?_ _ _)
                exact fun heq => hmem.1 (dram1Word_inj heq)
          exact (hother rest _ hnodup.1).trans (Function.update_self _ _ _)
      | succ k => exact ih _ hnodup.2 hk

/-- The addresses of a capture that fits the area are different. -/
theorem addresses_nodup {count : ℕ} (hfits : count ≤ 2 ^ 23) :
    ((List.range count).map (BitVec.ofNat 23)).Nodup := by
  apply List.Nodup.map_on _ List.nodup_range
  intro a ha b hb heq
  rw [List.mem_range] at ha hb
  have hnat := congrArg BitVec.toNat heq
  rw [BitVec.toNat_ofNat, BitVec.toNat_ofNat, Nat.mod_eq_of_lt (by omega),
    Nat.mod_eq_of_lt (by omega)] at hnat
  exact hnat

/-- What is read of a capture that fits the area. -/
theorem hwReadDetMemory_taken {axis : Fin 2} {dram1 : ℕ → Sample}
    {taken : List (DramAddress × Sample)}
    (haddr : taken.map Prod.fst = (List.range taken.length).map (BitVec.ofNat 23))
    (hfits : taken.length ≤ 2 ^ 23) {count : ℕ} (hcount : count ≤ taken.length) :
    hwReadDetMemory (dram1After axis dram1 taken) axis count 0 =
      (taken.map Prod.snd).take count := by
  have hnodup : (taken.map Prod.fst).Nodup := by
    rw [haddr]
    exact addresses_nodup hfits
  apply List.ext_getElem?
  intro k
  rw [List.getElem?_take]
  unfold hwReadDetMemory
  rw [List.getElem?_map]
  split_ifs with hk
  · have hlt : k < taken.length := by omega
    have hitem : taken[k]? = some taken[k] := List.getElem?_eq_getElem hlt
    have hfst : taken[k].1 = BitVec.ofNat 23 k := by
      have hget := congrArg (fun l => l[k]?) haddr
      simp only [List.getElem?_map, hitem, List.getElem?_range hlt, Option.map_some,
        Option.some.injEq] at hget
      exact hget
    have hword : (axis.val * (dram1Length / 2) + 0) / detectorResultSize + k =
        dram1Word axis taken[k].1 := by
      rw [dram1Word_eq, hfst, BitVec.toNat_ofNat, Nat.mod_eq_of_lt (by omega)]
      unfold dram1Length detectorResultSize
      omega
    rw [List.getElem?_range hk, Option.map_some, hword, dram1After_getElem axis dram1 hnodup
      (k := k) (by rw [hitem]), List.getElem?_map, hitem]
    rfl
  · rw [List.getElem?_eq_none (by rw [List.length_range]; omega)]
    rfl

/-! ### The waveforms -/

section software
variable {α : Type} {enables : DetectorId → Bool} {rotate : ℕ → Sample → α}
  {readBuffer : List Sample}

/-- The results of a point go to the enabled detectors. -/
theorem computeWfStep_foldl {i : ℕ} {w : DetectorId → Sample} {rest : List Sample}
    (l : List DetectorId) (st : WfState α) (hnodup : l.Nodup)
    (hbuffer : readBuffer.drop st.result = (l.filter enables).map w ++ rest) :
    l.foldl (computeWfStep enables rotate readBuffer i) st =
      { result := st.result + (l.filter enables).length
        wf := fun d k =>
          if d ∈ l ∧ enables d = true ∧ k = i then rotate i (w d) else st.wf d k } := by
  induction l generalizing st with
  | nil => simp
  | cons j l ih =>
      rw [List.nodup_cons] at hnodup
      rw [List.foldl_cons]
      cases hj : enables j with
      | false =>
          have hstep : computeWfStep enables rotate readBuffer i st j = st := by
            simp [computeWfStep, hj]
          have hfilter : (j :: l).filter enables = l.filter enables := by
            rw [List.filter_cons_of_neg (by simp [hj])]
          rw [hfilter] at hbuffer ⊢
          rw [hstep, ih st hnodup.2 hbuffer]
          congr 1
          funext d k
          by_cases hd : d = j
          · subst hd
            simp [hj]
          · simp [hd]
      | true =>
          have hfilter : (j :: l).filter enables = j :: l.filter enables := by
            rw [List.filter_cons_of_pos hj]
          rw [hfilter, List.map_cons, List.cons_append] at hbuffer
          have hvalue : readBuffer.getD st.result 0 = w j := by
            have hhead := congrArg (fun l => l[0]?) hbuffer
            simp only [List.getElem?_drop, Nat.add_zero, List.getElem?_cons_zero] at hhead
            rw [List.getD_eq_getElem?_getD, hhead]
            rfl
          have hstep : computeWfStep enables rotate readBuffer i st j =
              { result := st.result + 1
                wf := Function.update st.wf j
                  (Function.update (st.wf j) i (rotate i (w j))) } := by
            rw [computeWfStep, if_pos hj, hvalue]
          have hrest : readBuffer.drop (st.result + 1) = (l.filter enables).map w ++ rest := by
            rw [← List.drop_drop, hbuffer]
            rfl
          rw [hstep, ih _ hnodup.2 hrest, hfilter, List.length_cons]
          congr 1
          · show st.result + 1 + _ = _
            omega
          · funext d k
            by_cases hd : d = j
            · subst hd
              by_cases hk : k = i
              · subst hk
                simp [hnodup.1, hj]
              · simp [hnodup.1, hk]
            · simp [hd]

/-- The samples of the writes from `n` on. -/
theorem flatMap_drop (enable : DetectorId → Bool) (ws : List (DetectorId → Sample)) (n : ℕ) :
    (ws.flatMap (writtenSamples enable)).drop (n * ((List.finRange 4).filter enable).length) =
      (ws.drop n).flatMap (writtenSamples enable) := by
  induction ws generalizing n with
  | nil => simp
  | cons w ws ih =>
      cases n with
      | zero => simp
      | succ n =>
          have hlength : (writtenSamples enable w).length =
              ((List.finRange 4).filter enable).length := List.length_map _
          rw [List.flatMap_cons, List.drop_succ_cons, ← ih, Nat.succ_mul, Nat.add_comm,
            ← hlength, List.drop_length_add_append]

/-- The samples of the first `n` writes. -/
theorem flatMap_take (enable : DetectorId → Bool) (ws : List (DetectorId → Sample)) (n : ℕ) :
    (ws.flatMap (writtenSamples enable)).take (n * ((List.finRange 4).filter enable).length) =
      (ws.take n).flatMap (writtenSamples enable) := by
  induction ws generalizing n with
  | nil => simp
  | cons w ws ih =>
      cases n with
      | zero => simp
      | succ n =>
          have hlength : (writtenSamples enable w).length =
              ((List.finRange 4).filter enable).length := List.length_map _
          rw [List.flatMap_cons, List.take_succ_cons, List.flatMap_cons, ← ih, Nat.succ_mul,
            Nat.add_comm, ← hlength, List.take_length_add_append]

/-- Each enabled detector gets its own samples. -/
theorem computeWfIq_eq {ws : List (DetectorId → Sample)} {wf : DetectorId → ℕ → α}
    (hbuffer : readBuffer = ws.flatMap (writtenSamples enables)) {d : DetectorId}
    (hd : enables d = true) {k : ℕ} {w : DetectorId → Sample} (hw : ws[k]? = some w) :
    computeWfIq enables rotate readBuffer ws.length wf d k = rotate k (w d) := by
  have hloop : ∀ n, n ≤ ws.length → ∃ st : WfState α,
      (List.range n).foldl (fun st i =>
        (List.finRange 4).foldl (computeWfStep enables rotate readBuffer i) st) ⟨0, wf⟩ = st ∧
      st.result = n * ((List.finRange 4).filter enables).length ∧
      ∀ d, enables d = true → ∀ k, k < n → ∀ w, ws[k]? = some w → st.wf d k = rotate k (w d) := by
    intro n
    induction n with
    | zero =>
        intro _
        exact ⟨_, rfl, by simp, by intro d _ k hk; omega⟩
    | succ n ih =>
        intro hn
        obtain ⟨st, hst, hresult, hwf⟩ := ih (by omega)
        have hlast : ws[n]? = some ws[n] := List.getElem?_eq_getElem (by omega)
        have hdrop : readBuffer.drop st.result = ((List.finRange 4).filter enables).map ws[n] ++
            (ws.drop (n + 1)).flatMap (writtenSamples enables) := by
          rw [hbuffer, hresult, flatMap_drop, List.drop_eq_getElem_cons (by omega)]
          rfl
        refine ⟨_, rfl, ?_⟩
        rw [List.range_succ, List.foldl_append, hst, List.foldl_cons, List.foldl_nil,
          computeWfStep_foldl _ _ (List.nodup_finRange 4) hdrop]
        refine ⟨?_, ?_⟩
        · show st.result + _ = _
          rw [hresult, Nat.succ_mul]
        · intro d hd k hk w hw
          show (if _ then _ else _) = _
          by_cases hkn : k = n
          · subst hkn
            rw [hlast, Option.some.injEq] at hw
            rw [if_pos ⟨List.mem_finRange d, hd, rfl⟩, hw]
          · rw [if_neg (by tauto)]
            exact hwf d hd k (by omega) w hw
  obtain ⟨st, hst, -, hwf⟩ := hloop ws.length le_rfl
  unfold computeWfIq
  rw [hst]
  exact hwf d hd k (List.getElem?_eq_some_iff.mp hw).1 w hw

end software

/-! ### The whole way -/

theorem gatherEnables_countDetectors (enable : DetectorId → Bool) :
    gatherEnables (countDetectors enable).2 = enable := by
  funext d
  revert enable d
  decide

theorem countDetectors_length (enable : DetectorId → Bool) :
    (countDetectors enable).1 = ((List.finRange 4).filter enable).length := by
  revert enable
  decide

/-- What the memory takes of a run without an underrun.  (A report comes a clock late.)

It is one sample of each enabled detector for each write, in the order of the detectors, all of it
once nothing is on its way; the addresses count up from the start of the area; and the waveforms of
a readout that fits the area are those of the detectors.  When the writes are over the memory gets
everything, if it goes on being ready. -/
theorem detector_samples_in_order {enable : DetectorId → Bool} {s : DetectorOutput}
    {i : ℕ → OutputInput} {length : ℕ} (h : Starts s i length) :
    (∀ n, NoUnderrun enable s i (n + 1) →
      (∃ pending, (takenBefore enable s i n).map Prod.snd ++ pending =
          (writesBefore i n).flatMap (writtenSamples enable) ∧
        ((outputRun enable s i n).Idle → pending = [])) ∧
      (takenBefore enable s i n).map Prod.fst =
        (List.range (takenBefore enable s i n).length).map (BitVec.ofNat 23) ∧
      ∀ {α Tune : Type} (setup : Setup Tune) (axis : Fin 2) (dram1 : ℕ → Sample)
        (rotate : ℕ → Sample → α) (det : DetectorContext Tune) (wf : DetectorId → ℕ → α),
        (det.detectorCount, det.detectorMask) = countDetectors enable →
        (takenBefore enable s i n).length ≤ 2 ^ 23 →
        min det.scaleInfo.samples setup.detectorLength * det.detectorCount ≤
          (takenBefore enable s i n).length →
        ∀ d, enable d = true → ∀ k < min det.scaleInfo.samples setup.detectorLength,
          ∃ w, (writesBefore i n)[k]? = some w ∧
            readDetectorMemory setup axis (dram1After axis dram1 (takenBefore enable s i n))
              rotate det wf d k = rotate k (w d)) ∧
    ((∀ n, NoUnderrun enable s i n) → ∀ last, (∀ k, last ≤ k → (i k).write = none) →
      (Clocked.Recurs fun k => (i k).memReady = true) →
      ∃ n, last ≤ n ∧ (outputRun enable s i n).Idle) := by
  refine ⟨?_, fun hunderrun last hlast hmem => exists_idle h hunderrun hlast hmem⟩
  intro n hunderrun
  have hflow := flow_run h hunderrun
  have hpending : ∃ pending, (takenBefore enable s i n).map Prod.snd ++ pending =
      (writesBefore i n).flatMap (writtenSamples enable) ∧
      ((outputRun enable s i n).Idle → pending = []) := by
    refine ⟨(if (outputRun enable s i n).dram.outputBusy then
        [(outputRun enable s i n).dram.outputData] else []) ++
      kept enable ((slots (writesBefore i n)).drop (advancesBefore enable s i n)), ?_, ?_⟩
    · rw [← List.append_assoc, hflow.data, ← kept_append, List.take_append_drop, kept_slots]
    · intro hidle
      rw [hidle.busy, hflow.idle hidle, ← slots_length, List.drop_length]
      rfl
  refine ⟨hpending, hflow.addr, ?_⟩
  intro α Tune setup axis dram1 rotate det wf hcount hfits hread d hd k hk
  obtain ⟨pending, hstream, -⟩ := hpending
  have hdetectors : det.detectorCount = ((List.finRange 4).filter enable).length :=
    (congrArg Prod.fst hcount).trans (countDetectors_length enable)
  have hmask : gatherEnables det.detectorMask = enable :=
    (congrArg (fun c => gatherEnables c.2) hcount).trans (gatherEnables_countDetectors enable)
  have hpos : 0 < ((List.finRange 4).filter enable).length :=
    List.length_pos_of_mem (List.mem_filter.mpr ⟨List.mem_finRange d, hd⟩)
  unfold readDetectorMemory
  generalize min det.scaleInfo.samples setup.detectorLength = samples at hread hk ⊢
  -- the samples that are read have all been written
  have hsamples : samples ≤ (writesBefore i n).length := by
    have hlen := congrArg List.length hstream
    have hwritten : ∀ ws : List (DetectorId → Sample),
        (ws.flatMap (writtenSamples enable)).length =
          ws.length * ((List.finRange 4).filter enable).length := by
      intro ws
      induction ws with
      | nil => simp
      | cons w ws ih =>
          rw [List.flatMap_cons, List.length_append, ih, List.length_cons, Nat.succ_mul,
            Nat.add_comm]
          congr 1
          exact List.length_map _
    rw [List.length_append, List.length_map, hwritten] at hlen
    rw [hdetectors] at hread
    exact Nat.le_of_mul_le_mul_right (by omega) hpos
  have hbuffer : hwReadDetMemory (dram1After axis dram1 (takenBefore enable s i n)) axis
      (samples * det.detectorCount) 0 =
      ((writesBefore i n).take samples).flatMap (writtenSamples enable) := by
    rw [hwReadDetMemory_taken hflow.addr hfits hread]
    have hfirst := congrArg (List.take (samples * det.detectorCount)) hstream
    rw [List.take_append_of_le_length (by rw [List.length_map]; exact hread)] at hfirst
    rw [hfirst, hdetectors, flatMap_take]
  have hlength : ((writesBefore i n).take samples).length = samples := by
    rw [List.length_take, min_eq_left hsamples]
  have hwrite : (writesBefore i n)[k]? = some (writesBefore i n)[k] :=
    List.getElem?_eq_getElem (by omega)
  have hwrite' : ((writesBefore i n).take samples)[k]? = some (writesBefore i n)[k] := by
    rw [List.getElem?_take, if_pos hk, hwrite]
  refine ⟨(writesBefore i n)[k], hwrite, ?_⟩
  have hvalue : computeWfIq enable rotate _ _ wf d k = _ := computeWfIq_eq hbuffer hd hwrite'
  rw [hlength] at hvalue
  rw [hmask]
  exact hvalue

/-! ### Fixed runs -/

/-- An idle output. -/
def idleOutput : DetectorOutput where
  channels _ := ⟨0, false, false, false, List.replicate 4 none⟩
  dram := ⟨0, fun _ => false, false, 0, 0⟩

theorem idleOutput_starts {i : ℕ → OutputInput} (hreset : ∀ k, (i k).addressReset = false) :
    Starts idleOutput i 4 where
  idle := ⟨fun _ => ⟨rfl, rfl, fun _ h => List.eq_of_mem_replicate h⟩, fun _ => rfl, rfl⟩
  underrun _ := rfl
  stages _ := rfl
  selection := rfl
  outputAddr := rfl
  reset := hreset

/-- Two writes, and a memory that is ready on every other clock. -/
def pairInput (k : ℕ) : OutputInput where
  addressReset := false
  write := if k % 16 = 0 ∧ k < 32 then
    some fun d => BitVec.ofNat 64 (k + d.val) else none
  memReady := k % 2 = 1

def pairEnable (d : DetectorId) : Bool := d == 0 || d == 2

/-- The axis after the readout of two points. -/
def pairDetector : DetectorContext Unit where
  enable := pairEnable
  enabled := pairEnable
  samples _ := 0
  inputSelect := .adc
  firGroupDelay := 0
  phaseDelay := 0
  detectorCount := 2
  detectorMask := 5
  scaleInfo := ⟨2, [], []⟩
  fillWaveform := true
  scaleLength := 0

def pairSetup : Setup Unit := ⟨2, 936, 0, 0, 0, fun _ => ()⟩

theorem pair_noUnderrun : NoUnderrun pairEnable idleOutput pairInput (40 + 1) := by
  intro k hk
  have hall : ∀ k < 42, ∀ d, ((outputRun pairEnable idleOutput pairInput k).channels d).outputUnderrun
      = false := by decide +kernel
  exact hall k (by omega)

theorem detector_samples_in_order_pair : ∃ w, (writesBefore pairInput 40)[1]? = some w ∧
    readDetectorMemory pairSetup 1
      (dram1After 1 (fun _ => 0) (takenBefore pairEnable idleOutput pairInput 40))
      (fun _ x => x) pairDetector (fun _ _ => 0) 2 1 = w 2 :=
  ((detector_samples_in_order (idleOutput_starts fun _ => rfl)).1 40 pair_noUnderrun).2.2 pairSetup 1
    (fun _ => 0) (fun _ x => x) pairDetector (fun _ _ => 0) (by decide) (by decide +kernel)
    (by decide +kernel) 2 (by decide) 1 (by decide)

/-! ### A capture that is longer than the area -/

/-- A write on every sixteenth clock, and a memory that is always ready. -/
def longInput (k : ℕ) : OutputInput where
  addressReset := false
  write := if k % 16 = 0 then some fun _ => if k = 0 then 1 else 0 else none
  memReady := true

def firstEnable (d : DetectorId) : Bool := d == 0

/-- The state but for the address. -/
def DetectorOutput.strip (s : DetectorOutput) : DetectorOutput :=
  { s with dram := { s.dram with outputAddr := 0 } }

theorem strip_run (enable : DetectorId → Bool) (s : DetectorOutput) (i : ℕ → OutputInput) (n : ℕ) :
    (outputRun enable s i n).strip = (outputRun enable s.strip i n).strip := by
  induction n with
  | zero => rfl
  | succ n ih =>
      have hclock : ∀ x : DetectorOutput,
          (x.clock enable (i n)).strip = (x.strip.clock enable (i n)).strip := fun _ => rfl
      calc (outputRun enable s i (n + 1)).strip
          = ((outputRun enable s i n).strip.clock enable (i n)).strip := hclock _
        _ = ((outputRun enable s.strip i n).clock enable (i n)).strip := by rw [ih, ← hclock]

/-- The same, decided. -/
theorem eq_of_fields {s s' : DetectorOutput} (hchannels : ∀ d, s.channels d = s'.channels d)
    (hready : ∀ d, s.dram.inputReadyOut d = s'.dram.inputReadyOut d)
    (hrest : (s.dram.selection, s.dram.outputBusy, s.dram.outputData, s.dram.outputAddr) =
      (s'.dram.selection, s'.dram.outputBusy, s'.dram.outputData, s'.dram.outputAddr)) : s = s' := by
  obtain ⟨channels, selection, inputReadyOut, outputBusy, outputData, outputAddr⟩ := s
  obtain ⟨channels', selection', inputReadyOut', outputBusy', outputData', outputAddr'⟩ := s'
  obtain rfl : channels = channels' := funext hchannels
  obtain rfl : inputReadyOut = inputReadyOut' := funext hready
  simp only [Prod.mk.injEq] at hrest
  obtain ⟨rfl, rfl, rfl, rfl⟩ := hrest
  rfl

/-- The clocks from any write on, but for the first, are alike. -/
theorem long_shift (q r : ℕ) :
    outputRun firstEnable idleOutput longInput (32 + 16 * q + r) =
      outputRun firstEnable (outputRun firstEnable idleOutput longInput (32 + 16 * q))
        (fun k => longInput (32 + k)) r := by
  unfold outputRun
  rw [Clocked.run_add]
  congr 1
  funext k
  have hmod : (32 + 16 * q + k) % 16 = (32 + k) % 16 := by omega
  simp [longInput, hmod]

/-- After the first two writes the run is periodic. -/
theorem long_period (q : ℕ) :
    (outputRun firstEnable idleOutput longInput (32 + 16 * q)).strip = idleOutput := by
  induction q with
  | zero =>
      apply eq_of_fields
      · decide +kernel
      · decide +kernel
      · decide +kernel
  | succ q ih =>
      rw [Nat.mul_succ, ← Nat.add_assoc, long_shift q 16, strip_run, ih]
      apply eq_of_fields
      · decide +kernel
      · decide +kernel
      · decide +kernel

theorem long_noUnderrun (n : ℕ) : NoUnderrun firstEnable idleOutput longInput n := by
  intro k _ d
  have hfirst : ∀ k < 32, ∀ d, ((outputRun firstEnable idleOutput longInput k).channels
      d).outputUnderrun = false := by decide +kernel
  have hperiod : ∀ r < 16, ∀ d, ((outputRun firstEnable idleOutput
      (fun k => longInput (32 + k)) r).channels d).outputUnderrun = false := by decide +kernel
  rcases Nat.lt_or_ge k 32 with hlt | hge
  · exact hfirst k hlt d
  · have hk : k = 32 + 16 * ((k - 32) / 16) + (k - 32) % 16 := by omega
    have hstrip := strip_run firstEnable
      (outputRun firstEnable idleOutput longInput (32 + 16 * ((k - 32) / 16)))
      (fun k => longInput (32 + k)) ((k - 32) % 16)
    rw [← long_shift, ← hk, long_period] at hstrip
    have hchannels := congrArg (fun s : DetectorOutput => (s.channels d).outputUnderrun) hstrip
    exact hchannels.trans (hperiod _ (Nat.mod_lt _ (by decide)) d)

theorem long_idle (q : ℕ) : (outputRun firstEnable idleOutput longInput (32 + 16 * q)).Idle := by
  have hidle : (outputRun firstEnable idleOutput longInput (32 + 16 * q)).strip.Idle := by
    rw [long_period]
    exact (idleOutput_starts (i := longInput) fun _ => rfl).idle
  exact ⟨hidle.channels, hidle.ready, hidle.busy⟩

theorem long_writes (q : ℕ) : writesBefore longInput (32 + 16 * q) =
    (fun _ => 1) :: List.replicate (q + 1) fun _ => 0 := by
  induction q with
  | zero => rfl
  | succ q ih =>
      have hnone : ((List.range 15).flatMap fun k =>
          (longInput (32 + 16 * q + (k + 1))).write.toList) = [] := by
        rw [List.flatMap_eq_nil_iff]
        intro k hk
        have hlt := List.mem_range.mp hk
        have hmod : (32 + 16 * q + (k + 1)) % 16 ≠ 0 := by omega
        simp [longInput, hmod]
      have hone : (longInput (32 + 16 * q)).write.toList = [fun _ => 0] := by
        have hmod : (32 + 16 * q) % 16 = 0 := by omega
        simp [longInput, hmod]
      unfold writesBefore at ih ⊢
      rw [Nat.mul_succ, ← Nat.add_assoc, List.range_add, List.flatMap_append, ih,
        List.flatMap_map, List.range_succ_eq_map, List.flatMap_cons, List.flatMap_map]
      simp only [Nat.add_zero, Nat.succ_eq_add_one]
      rw [hone, hnone, List.append_nil, List.cons_append, ← List.replicate_succ']

theorem long_taken (q : ℕ) : takenBefore firstEnable idleOutput longInput (32 + 16 * q) =
    (List.range (q + 2)).map fun k => (BitVec.ofNat 23 k, if k = 0 then 1 else 0) := by
  have hstarts : Starts idleOutput longInput 4 := idleOutput_starts fun _ => rfl
  have hflow := flow_run hstarts (long_noUnderrun (32 + 16 * q + 1))
  have hidle := long_idle q
  have hdata := hflow.data
  have hwritten : ∀ x : Sample, writtenSamples firstEnable (fun _ => x) = [x] := fun _ => rfl
  have hvalues : (takenBefore firstEnable idleOutput longInput (32 + 16 * q)).map Prod.snd =
      (List.range (q + 2)).map fun k => if k = 0 then 1 else 0 := by
    rw [hidle.busy, hflow.idle hidle, ← slots_length, List.take_length, kept_slots, long_writes,
      List.flatMap_cons, hwritten] at hdata
    have hzeros : (List.replicate (q + 1) fun _ => 0).flatMap (writtenSamples firstEnable) =
        List.replicate (q + 1) 0 := by
      induction q + 1 with
      | zero => rfl
      | succ n ih => rw [List.replicate_succ, List.flatMap_cons, ih, hwritten]; rfl
    rw [hzeros, if_neg Bool.false_ne_true, List.append_nil] at hdata
    rw [hdata, List.range_succ_eq_map, List.map_cons, List.map_map, if_pos rfl,
      List.singleton_append]
    congr 1
    symm
    apply List.eq_replicate_iff.mpr
    refine ⟨by simp, ?_⟩
    intro x hx
    obtain ⟨k, -, rfl⟩ := List.mem_map.mp hx
    rfl
  have hlength : (takenBefore firstEnable idleOutput longInput (32 + 16 * q)).length = q + 2 := by
    have hlen := congrArg List.length hvalues
    simpa using hlen
  have haddr := hflow.addr
  rw [hlength] at haddr
  rw [← List.zip_unzip (takenBefore firstEnable idleOutput longInput (32 + 16 * q)),
    List.unzip_eq_map, haddr, hvalues, List.zip_map']

/-- The readout of the first point of the first detector. -/
def readFirst (taken : List (DramAddress × Sample)) : Sample :=
  readDetectorMemory ⟨1, 936, 0, 0, 0, fun _ => ()⟩ 0 (dram1After 0 (fun _ => 0) taken)
    (fun _ x => x) { pairDetector with detectorCount := 1, detectorMask := 1 } (fun _ _ => 0) 0 0

theorem long_last (q : ℕ) (hq : BitVec.ofNat 23 (q + 1) = 0) :
    (takenBefore firstEnable idleOutput longInput (32 + 16 * q))[q + 1]? = some (0, 0) ∧
    readFirst (takenBefore firstEnable idleOutput longInput (32 + 16 * q)) = 0 := by
  have htaken := long_taken q
  refine ⟨?_, ?_⟩
  · rw [htaken, List.getElem?_map, List.getElem?_range (by omega), Option.map_some, hq,
      if_neg (Nat.succ_ne_zero q)]
  · have hword : dram1After 0 (fun _ => 0)
        (takenBefore firstEnable idleOutput longInput (32 + 16 * q)) 0 = 0 := by
      have hzero : dram1Word 0 0 = 0 := by decide
      rw [htaken, List.range_succ, List.map_append]
      unfold dram1After
      rw [List.foldl_append, List.map_singleton, List.foldl_cons, List.foldl_nil, hq, hzero,
        Function.update_self, if_neg (Nat.succ_ne_zero q)]
    unfold readFirst
    generalize dram1After 0 (fun _ => 0)
      (takenBefore firstEnable idleOutput longInput (32 + 16 * q)) = dram1 at hword ⊢
    have hread : hwReadDetMemory dram1 0 1 0 = [0] := by
      simp [hwReadDetMemory, hword]
    show computeWfIq (gatherEnables 1) _ (hwReadDetMemory dram1 0 1 0) 1 _ 0 0 = 0
    rw [hread]
    decide +kernel

/-- The first detector with `2 ^ 23 + 1` writes: the last sample is at the place of the first, and
the readout gets it instead. -/
theorem detector_samples_overwritten : ∃ q : ℕ, q = 2 ^ 23 - 1 ∧
    Starts idleOutput longInput 4 ∧
    (∀ n, NoUnderrun firstEnable idleOutput longInput n) ∧
    (outputRun firstEnable idleOutput longInput (32 + 16 * q)).Idle ∧
    (writesBefore longInput (32 + 16 * q))[0]? = some (fun _ => 1) ∧
    (takenBefore firstEnable idleOutput longInput (32 + 16 * q))[q + 1]? = some (0, 0) ∧
    readFirst (takenBefore firstEnable idleOutput longInput (32 + 16 * q)) = 0 := by
  refine ⟨2 ^ 23 - 1, rfl, idleOutput_starts fun _ => rfl, long_noUnderrun, long_idle _, ?_,
    long_last _ (by decide)⟩
  rw [long_writes]
  rfl

end Mbf.Detector
