import Mbf.Detector.Rig

/-! # The scale that is published with the data

When is the published scale that of the capture?  Between arming and the readout of the capture
nothing may write the hardware again (`Axis.Agrees.captured`), and the flag that is copied when an
axis is armed has to tell whether the configuration then written has the scale that is published
(`Axis.Agrees.scale`).  The first fails when an axis is armed while its hardware captures.  The
second fails when an axis is armed twice after one edit, so that the copy is lost before it is
used, or between an edit and the `UPDATE_COUNT` that follows it, so that the flag is not set
(`Axis.Flagged`). -/

namespace Mbf.Detector

open Mbf.Sequencer Mbf.Trigger

variable {Client Tune : Type} {setup : Setup Tune}

/-- The data are published with the scale and the sample counts of their capture. -/
def Publication.Consistent (setup : Setup Tune) (p : Publication Tune) : Prop :=
  p.scaleInfo = readDetectorScaleInfo setup p.captured.config ∧
    ∀ d, p.samples d = if p.captured.enable d then p.scaleLength else 0

/-! ### One axis -/

/-- The axis agrees with its hardware; `busy` from the start of a capture to its readout. -/
structure Axis.Agrees (setup : Setup Tune) (busy : Prop) (a : Axis Tune) : Prop where
  config : a.seq.seqHwConfig = a.hw.config
  enabled : a.det.enabled = a.hw.enable
  count : (a.det.detectorCount, a.det.detectorMask) = countDetectors a.hw.enable
  phaseDelay : a.det.phaseDelay = a.hw.delay
  captured : busy → a.captured = a.hw
  flag : a.seq.seqConfigDirty = true ∨ a.unmarked = true ∨
    a.seq.seqConfig.scalePart = a.hw.config.scalePart
  scale : a.seq.seqHwConfigDirty = true ∨
    a.det.scaleInfo = readDetectorScaleInfo setup a.hw.config
  memory : a.current = true → a.memory = some a.hw ∧ a.hw.writes = true
  read : a.readOut = true → a.det.scaleInfo = readDetectorScaleInfo setup a.hw.config
  current : a.current = true → ¬ busy → a.readOut = true

/-- The flag tells whether the configuration has the scale that is published: it is set, or no
edit has slipped, and then its copy is not set, or has been used. -/
def Axis.Flagged (a : Axis Tune) : Prop :=
  a.seq.seqConfigDirty = true ∨
    a.unmarked = false ∧ (a.seq.seqHwConfigDirty = false ∨ a.readOut = true)

namespace Axis.Agrees
variable {a : Axis Tune} {busy busy' : Prop}

theorem of_initial (h : a.Initial setup) (hbusy : ¬ busy) : a.Agrees setup busy where
  config := h.config
  enabled := h.enabled
  count := h.count
  phaseDelay := h.phaseDelay
  captured hb := absurd hb hbusy
  flag := Or.inl h.dirty
  scale := Or.inr h.scaleInfo
  memory hc := by simp [h.current] at hc
  read _ := h.scaleInfo
  current hc := by simp [h.current] at hc

theorem congr (h : a.Agrees setup busy) (hbusy : busy' ↔ busy) : a.Agrees setup busy' := by
  rwa [propext hbusy]

theorem capture (h : a.Agrees setup busy) (hbusy : busy') : a.capture.Agrees setup busy' where
  config := h.config
  enabled := h.enabled
  count := h.count
  phaseDelay := h.phaseDelay
  captured _ := rfl
  flag := h.flag
  scale := h.scale
  memory hc := by
    unfold Axis.capture at hc ⊢
    cases hw : a.hw.writes with
    | true => exact ⟨rfl, rfl⟩
    | false =>
        simp only [hw, Bool.or_false] at hc
        simpa [hw] using h.memory hc
  read := h.read
  current _ hb := absurd hbusy hb

/-- The scale last computed is that of the configuration, if the flag is not set. -/
theorem flagged_scaleInfo (h : a.Agrees setup busy) (hflagged : a.Flagged) :
    a.seq.seqConfigDirty = true ∨
      a.det.scaleInfo = readDetectorScaleInfo setup a.seq.seqConfig := by
  rcases hflagged with hdirty | ⟨hunmarked, hcopy⟩
  · exact .inl hdirty
  rcases h.flag with hdirty | hslipped | hpart
  · exact .inl hdirty
  · simp [hunmarked] at hslipped
  · right
    rw [readDetectorScaleInfo_congr hpart]
    rcases hcopy with hclean | hread
    · exact h.scale.resolve_left (by simp [hclean])
    · exact h.read hread

/-- The axis is armed while its hardware rests, and the flag tells if the scale is to change. -/
theorem prepare (h : a.Agrees setup busy) (hbusy : ¬ busy') (hflagged : a.Flagged) :
    (a.prepare setup).Agrees setup busy' where
  config := rfl
  enabled := rfl
  count := rfl
  phaseDelay := rfl
  captured hb := absurd hb hbusy
  flag := Or.inr (Or.inr rfl)
  scale := h.flagged_scaleInfo hflagged
  memory hc := by cases hc
  read hr := by cases hr
  current hc := by cases hc

/-- Once it has been read out the axis has the scale of the hardware. -/
theorem readout_scaleInfo (h : a.Agrees setup busy) :
    (a.readout setup).det.scaleInfo = readDetectorScaleInfo setup a.hw.config := by
  unfold Axis.readout detectorReadoutEvent updateSamples
  cases hdirty : a.seq.seqHwConfigDirty with
  | true =>
      simp only [if_true]
      unfold updateDetectorScale
      rw [h.config]
  | false =>
      simp only [Bool.false_eq_true, if_false]
      exact h.scale.resolve_left (by simp [hdirty])

/-- The sample counts go by the detectors as they are configured. -/
theorem readout_samples (a : Axis Tune) (d : DetectorId) : (a.readout setup).det.samples d =
    if a.det.enable d then (a.readout setup).det.scaleLength else 0 := by
  unfold Axis.readout detectorReadoutEvent updateSamples
  dsimp only
  split <;> rfl

theorem readout (h : a.Agrees setup busy) (hbusy : busy) :
    (a.readout setup).Agrees setup busy' := by
  have hdet : (a.readout setup).det.enabled = a.det.enabled ∧
      (a.readout setup).det.detectorCount = a.det.detectorCount ∧
      (a.readout setup).det.detectorMask = a.det.detectorMask ∧
      (a.readout setup).det.phaseDelay = a.det.phaseDelay := by
    unfold Axis.readout detectorReadoutEvent updateSamples
    dsimp only
    split <;> exact ⟨rfl, rfl, rfl, rfl⟩
  exact {
    config := h.config
    enabled := hdet.1.trans h.enabled
    count := by rw [hdet.2.1, hdet.2.2.1]; exact h.count
    phaseDelay := hdet.2.2.2.trans h.phaseDelay
    captured := fun _ => h.captured hbusy
    flag := h.flag
    scale := Or.inr h.readout_scaleInfo
    memory := h.memory
    read := fun _ => h.readout_scaleInfo
    current := fun _ _ => rfl }

/-- An edit sets the flag, or slips, or leaves the scale alone. -/
theorem editSeq (h : a.Agrees setup busy) (e : SeqEdit) :
    (a.editSeq e).Agrees setup busy where
  config := h.config
  enabled := h.enabled
  count := h.count
  phaseDelay := h.phaseDelay
  captured := h.captured
  flag := by
    unfold Axis.editSeq SeqContext.edit
    dsimp only
    cases hmarks : e.marks with
    | true => exact .inl (Bool.or_true _)
    | false =>
        cases hslips : e.slips a.seq.seqConfig with
        | true => exact .inr (.inl (Bool.or_true _))
        | false =>
            rw [Bool.or_false, Bool.or_false, SeqEdit.apply_scalePart hmarks hslips]
            exact h.flag
  scale := h.scale
  memory := h.memory
  read := h.read
  current := h.current

theorem editDet (h : a.Agrees setup busy) (e : DetEdit) :
    ({ a with det := a.det.edit e } : Axis Tune).Agrees setup busy := by
  cases e <;>
    exact ⟨h.config, h.enabled, h.count, h.phaseDelay, h.captured, h.flag, h.scale, h.memory,
      h.read, h.current⟩

end Axis.Agrees

/-! ### The board -/

/-- The hardware of `t` captures, or a capture of it has not been read out yet. -/
def Busy (b : Board Client) (t : TargetId) : Prop :=
  (b.ports t).engine ≠ .idle ∨ (b.ports t).doneEvent = true ∨ .readout t ∈ b.reading

/-- A clock ends a capture only with an event. -/
theorem clock_busy {t : TargetId} {x : Option Strobe} {env : Surroundings} {p : Port}
    (hstart : ¬ (p.engine = .idle ∧ (p.clock t x env).engine ≠ .idle)) :
    ((p.clock t x env).engine ≠ .idle ∨ (p.clock t x env).doneEvent = true) ↔
      (p.engine ≠ .idle ∨ p.doneEvent = true) := by
  have hdone : (p.clock t x env).doneEvent =
      (p.doneEvent || decide (p.engine ≠ .idle ∧ (p.clock t x env).engine = .idle)) := rfl
  rw [hdone, Bool.or_eq_true, decide_eq_true_eq]
  tauto

theorem readout_mem_notices {ports : TargetId → Port} {t : TargetId} :
    .readout t ∈ notices ports ↔ t ≠ .dram ∧ (ports t).doneEvent = true := by
  have hother : .readout t ∉ allTargets.flatMap fun u =>
      (if (ports u).triggerEvent then [Notice.trigger u] else []) ++
        if (ports u).doneEvent then [.complete u] else [] := by
    simp only [List.mem_flatMap, not_exists, not_and, List.mem_append, not_or]
    intro u _
    constructor <;> split_ifs <;> simp
  unfold notices
  rw [List.mem_append, or_iff_left hother]
  cases t with
  | seq0 => simp
  | seq1 => simp
  | dram => simp

section board
variable [DecidableEq Client] {b b' : Board Client} {t : TargetId} {i : Trigger.Input Client}

theorem start_ports {op : Op Client} (h : b.start op = some b') :
    b'.ports = b.ports ∧ b'.reading = b.reading := by
  unfold Board.start at h
  split_ifs at h
  rw [Option.map_eq_some_iff] at h
  obtain ⟨r, -, rfl⟩ := h
  exact ⟨rfl, rfl⟩

/-- The board after a clock. -/
theorem clock_board {write : Bool} {env : Surroundings}
    (h : b.step (.clock write env) = some b') : ∃ x : Option Event,
      b'.ports = Board.clockPorts x env b.ports ∧ b'.reading = b.reading ∧
        (write = true → b.pending.head? = x) := by
  cases write with
  | false =>
      cases h
      exact ⟨none, rfl, rfl, fun hw => by cases hw⟩
  | true =>
      unfold Board.step at h
      cases hpending : b.pending with
      | nil => simp [hpending] at h
      | cons e es =>
          simp only [hpending, Option.some.injEq] at h
          subst h
          exact ⟨some e, rfl, rfl, fun _ => rfl⟩

/-- The board after an event has been dispatched. -/
theorem dispatch_board (h : b.step .dispatch = some b') : ∃ n,
    b.reading = n :: b'.reading ∧ b'.ports = b.ports := by
  unfold Board.step at h
  cases hreading : b.reading with
  | nil => simp [hreading] at h
  | cons n ns =>
      simp only [hreading] at h
      cases hop : (n.op : Option (Op Client)) with
      | none =>
          simp only [hop, Option.some.injEq] at h
          subst h
          exact ⟨n, rfl, rfl⟩
      | some op =>
          simp only [hop] at h
          obtain ⟨hports, hrest⟩ := start_ports h
          exact ⟨n, by rw [hrest], hports⟩

/-- The hardware becomes busy when it starts, and rests again when it is read out. -/
theorem busy_step (ht : t ≠ .dram) (h : b.step i = some b') (hstart : ¬ Rig.Starts b b' t)
    (hread : ¬ Rig.ReadsOut b i t) : Busy b' t ↔ Busy b t := by
  unfold Busy
  cases i with
  | call op =>
      change (if op.isCall = true then b.start op else none) = some b' at h
      split_ifs at h
      obtain ⟨hports, hreading⟩ := start_ports h
      rw [hports, hreading]
  | clock write env =>
      obtain ⟨x, hports, hreading, -⟩ := clock_board h
      unfold Rig.Starts at hstart
      rw [hports] at hstart
      rw [hports, hreading, ← or_assoc, ← or_assoc]
      exact or_congr_left (clock_busy hstart)
  | finish u =>
      unfold Board.step at h
      rw [Option.map_eq_some_iff] at h
      obtain ⟨p, hp, rfl⟩ := h
      unfold Port.finish at hp
      split_ifs at hp with hrunout
      cases hp
      by_cases hu : u = t
      · subst hu
        simp [hrunout]
      · dsimp only
        rw [Function.update_of_ne (Ne.symm hu)]
  | read =>
      change (if b.reading.isEmpty = true then some _ else none) = some b' at h
      split_ifs at h with hempty
      cases h
      rw [List.isEmpty_iff] at hempty
      simp [hempty, Board.clearEvents, readout_mem_notices, ht]
  | dispatch =>
      obtain ⟨n, hreading, hports⟩ := dispatch_board h
      have hne : n ≠ .readout t := by
        rintro rfl
        apply hread
        unfold Rig.ReadsOut
        rw [hreading]
        rfl
      rw [hports, hreading, List.mem_cons]
      simp [Ne.symm hne]

/-- The memory has no readout. -/
theorem reading_dram (h : b.step i = some b') (hb : .readout .dram ∉ b.reading) :
    .readout .dram ∉ b'.reading := by
  cases i with
  | call op =>
      change (if op.isCall = true then b.start op else none) = some b' at h
      split_ifs at h
      rwa [(start_ports h).2]
  | clock write env =>
      obtain ⟨x, -, hreading, -⟩ := clock_board h
      rwa [hreading]
  | finish u =>
      unfold Board.step at h
      rw [Option.map_eq_some_iff] at h
      obtain ⟨p, -, rfl⟩ := h
      exact hb
  | read =>
      change (if b.reading.isEmpty = true then some _ else none) = some b' at h
      split_ifs at h
      cases h
      exact fun hmem => (readout_mem_notices.mp hmem).1 rfl
  | dispatch =>
      obtain ⟨n, hreading, -⟩ := dispatch_board h
      rw [hreading] at hb
      exact fun hmem => hb (List.mem_cons_of_mem n hmem)

/-- Preparing an axis leaves its engine alone. -/
theorem prepares_port (h : b.step i = some b') (hprepares : Rig.Prepares b i t)
    (htrigger : (b.ports t).trigger t = false) :
    (b'.ports t).engine = (b.ports t).engine ∧ (b'.ports t).doneEvent = (b.ports t).doneEvent ∧
      b'.reading = b.reading := by
  cases i with
  | clock write env =>
      obtain ⟨x, hports, hreading, hx⟩ := clock_board h
      cases write with
      | false => exact hprepares.elim
      | true =>
          have hhead : b.pending.head? = some (.prepareSeq t) := hprepares
          rw [hx rfl] at hhead
          subst hhead
          have hport : b'.ports t = (b.ports t).clock t none env := by rw [hports]; rfl
          rw [hport, Port.clock_eq (by simp), htrigger, Engine.clock_still]
          exact ⟨rfl, rfl, hreading⟩
  | _ => exact hprepares.elim

/-- Nothing is captured by `t`, and no capture starts or is left to be read out. -/
def Rests (b : Board Client) (t : TargetId) : Prop :=
  (b.ports t).trigger t = false ∧ ¬ Busy b t

omit [DecidableEq Client] in
theorem prepares_readsOut (hprepares : Rig.Prepares b i t) : ¬ Rig.ReadsOut b i t := by
  intro hreads
  cases i with
  | dispatch => exact hprepares.elim
  | _ => exact hreads.elim

omit [DecidableEq Client] in
theorem readsOut_mem (hreads : Rig.ReadsOut b i t) : .readout t ∈ b.reading := by
  cases i with
  | dispatch =>
      have hhead : b.reading.head? = some (.readout t) := hreads
      exact List.mem_of_mem_head? hhead
  | _ => exact hreads.elim

omit [DecidableEq Client] in
theorem readsOut_busy (hreads : Rig.ReadsOut b i t) : Busy b t :=
  Or.inr (Or.inr (readsOut_mem hreads))

omit [DecidableEq Client] in
/-- What is published is the axis that is read out. -/
theorem published_eq {axes : TargetId → Axis Tune} {p : Publication Tune}
    (hp : (t, p) ∈ Rig.published b i axes) : Rig.ReadsOut b i t ∧ p = {
      captured := (axes t).captured
      scaleInfo := (axes t).det.scaleInfo
      scaleLength := (axes t).det.scaleLength
      samples := (axes t).det.samples } := by
  cases i with
  | dispatch =>
      unfold Rig.published at hp
      unfold Rig.ReadsOut
      cases hreading : b.reading with
      | nil => simp [hreading] at hp
      | cons n ns =>
          cases n with
          | trigger u => simp [hreading] at hp
          | complete u => simp [hreading] at hp
          | readout u =>
              simp only [hreading, Option.mem_some_iff, Prod.mk.injEq] at hp
              obtain ⟨rfl, rfl⟩ := hp
              exact ⟨rfl, rfl⟩
  | _ => cases hp

/-- A readout starts no capture. -/
theorem readsOut_starts (h : b.step i = some b') (hreads : Rig.ReadsOut b i t) :
    ¬ Rig.Starts b b' t := by
  cases i with
  | dispatch =>
      obtain ⟨n, -, hports⟩ := dispatch_board h
      rintro ⟨hidle, hbusy⟩
      rw [hports] at hbusy
      exact hbusy hidle
  | _ => exact hreads.elim

/-- A step of the board keeps the axis and its hardware in agreement, if the axis is prepared
only while its hardware rests, and with a flag that tells if its scale is to change. -/
theorem axisStep_agrees {a : Axis Tune} (ht : t ≠ .dram) (h : b.step i = some b')
    (ha : a.Agrees setup (Busy b t))
    (hprepare : Rig.Prepares b i t → Rests b t ∧ a.Flagged) :
    (Rig.axisStep setup b b' i t a).Agrees setup (Busy b' t) := by
  unfold Rig.axisStep
  dsimp only
  by_cases hprepares : Rig.Prepares b i t
  · obtain ⟨⟨htrigger, hbusy⟩, hflagged⟩ := hprepare hprepares
    obtain ⟨hengine, hdone, hreading⟩ := prepares_port h hprepares htrigger
    have hstarts : ¬ Rig.Starts b b' t := by
      rintro ⟨hidle, hrunning⟩
      rw [hengine] at hrunning
      exact hrunning hidle
    have hbusy' : ¬ Busy b' t := by
      unfold Busy
      rwa [hengine, hdone, hreading]
    rw [if_neg hstarts, if_pos hprepares, if_neg (prepares_readsOut hprepares)]
    exact ha.prepare hbusy' hflagged
  · rw [if_neg hprepares]
    by_cases hreads : Rig.ReadsOut b i t
    · rw [if_neg (readsOut_starts h hreads), if_pos hreads]
      exact ha.readout (readsOut_busy hreads)
    · rw [if_neg hreads]
      by_cases hstarts : Rig.Starts b b' t
      · rw [if_pos hstarts]
        exact ha.capture (Or.inl hstarts.2)
      · rw [if_neg hstarts]
        exact ha.congr (busy_step ht h hstarts hreads)

end board

/-! ### Runs -/

section run
variable [DecidableEq Client]

/-- Every axis agrees with its hardware, and the memory has no readout. -/
structure Rig.Agrees (setup : Setup Tune) (r : Rig Client Tune) : Prop where
  axes : ∀ t, t ≠ .dram → (r.axes t).Agrees setup (Busy r.board t)
  reading : .readout .dram ∉ r.board.reading

/-- The axis is armed while its hardware rests, and with a flag that tells whether its scale has
changed. -/
def Rig.Armable (r : Rig Client Tune) : RigInput Client → Prop
  | .board i => ∀ t, Prepares r.board i t → Rests r.board t ∧ (r.axes t).Flagged
  | _ => True

/-- At the readout the detectors are configured as they are enabled in hardware. -/
def Rig.Unchanged (r : Rig Client Tune) : RigInput Client → Prop
  | .board i => ∀ t, ReadsOut r.board i t → (r.axes t).det.enable = (r.axes t).det.enabled
  | _ => True

theorem Rig.agrees_init {r : Rig Client Tune} (h : (rig Client setup).init r) :
    r.Agrees setup := by
  obtain ⟨⟨-, -, hports, hreading⟩, haxes⟩ := h
  refine ⟨fun t _ => ?_, ?_⟩
  · apply Axis.Agrees.of_initial (haxes t)
    unfold Busy
    rw [hports, hreading]
    simp [Port.reset]
  · rw [hreading]
    exact List.not_mem_nil

omit [DecidableEq Client] in
theorem Rig.Agrees.setAxis {r : Rig Client Tune} (h : r.Agrees setup) {t : TargetId} {a : Axis Tune}
    (ha : t ≠ .dram → a.Agrees setup (Busy r.board t)) : (r.setAxis t a).Agrees setup := by
  refine ⟨fun u hu => ?_, h.reading⟩
  unfold Rig.setAxis
  by_cases heq : u = t
  · subst heq
    dsimp only
    rw [Function.update_self]
    exact ha hu
  · dsimp only
    rw [Function.update_of_ne heq]
    exact h.axes u hu

theorem Rig.Agrees.step {r r' : Rig Client Tune} {i : RigInput Client}
    {out : Option (TargetId × Publication Tune)} (h : r.Agrees setup) (harm : r.Armable i)
    (hstep : r.step setup i = some (r', out)) : r'.Agrees setup := by
  cases i with
  | board i =>
      unfold Rig.step at hstep
      rw [Option.map_eq_some_iff] at hstep
      obtain ⟨b', hb, heq⟩ := hstep
      cases heq
      exact ⟨fun t ht => axisStep_agrees ht hb (h.axes t ht) (harm t), reading_dram hb h.reading⟩
  | editSeq t e =>
      change (if _ then some (r.setAxis t _, none) else none) = some (r', out) at hstep
      split_ifs at hstep
      cases hstep
      exact h.setAxis fun ht => (h.axes t ht).editSeq e
  | editDet t e =>
      cases hstep
      exact h.setAxis fun ht => (h.axes t ht).editDet e
  | detectorCommand t =>
      change (if _ then some (r, none) else none) = some (r', out) at hstep
      split_ifs at hstep
      cases hstep
      exact h

/-- What a readout publishes. -/
theorem Rig.Agrees.published {r r' : Rig Client Tune} {i : RigInput Client}
    {out : Option (TargetId × Publication Tune)} (h : r.Agrees setup) (hsame : r.Unchanged i)
    (hstep : r.step setup i = some (r', out)) : ∀ p ∈ out, p.2.Consistent setup := by
  intro p hp
  cases i with
  | board i =>
      unfold Rig.step at hstep
      rw [Option.map_eq_some_iff] at hstep
      obtain ⟨b', hb, heq⟩ := hstep
      cases heq
      obtain ⟨t, p⟩ := p
      obtain ⟨hreads, rfl⟩ := published_eq hp
      have ht : t ≠ .dram := by
        rintro rfl
        exact h.reading (readsOut_mem hreads)
      have hagrees := h.axes t ht
      have hcaptured := hagrees.captured (readsOut_busy hreads)
      have haxis : axisStep setup r.board b' i t (r.axes t) = (r.axes t).readout setup := by
        unfold axisStep
        rw [if_neg (readsOut_starts hb hreads), if_pos hreads,
          if_neg fun hprepares => prepares_readsOut hprepares hreads]
      unfold Publication.Consistent
      dsimp only
      rw [haxis]
      refine ⟨?_, fun d => ?_⟩
      · rw [hagrees.readout_scaleInfo, ← hcaptured]
        rfl
      · rw [Axis.Agrees.readout_samples, hsame t hreads, hagrees.enabled, ← hcaptured]
        rfl
  | editSeq t e =>
      change (if _ then some (r.setAxis t _, none) else none) = some (r', out) at hstep
      split_ifs at hstep
      cases hstep
      cases hp
  | editDet t e =>
      cases hstep
      cases hp
  | detectorCommand t =>
      change (if _ then some (r, none) else none) = some (r', out) at hstep
      split_ifs at hstep
      cases hstep
      cases hp

/-- In a run that meets the conditions, what is published is consistent. -/
theorem published_scale_consistent {r₀ r : Rig Client Tune}
    {l : List (Rig Client Tune × RigInput Client × Option (TargetId × Publication Tune))}
    (hi : (rig Client setup).init r₀) (hp : Runs.Path (rig Client setup).system r₀ l r)
    (hl : ∀ x ∈ l, x.1.Armable x.2.1 ∧ x.1.Unchanged x.2.1) :
    ∀ x ∈ l, ∀ p ∈ x.2.2, p.2.Consistent setup := by
  apply hp.until (J := Rig.Agrees setup)
    (R := fun r a => ¬ (r.Armable a.1 ∧ r.Unchanged a.1))
    (G := fun _ a => ∀ p ∈ a.2, p.2.Consistent setup) _ (Rig.agrees_init hi)
  · exact fun x hx => not_not_intro (hl x hx)
  · intro r a r' hr ha hstep
    rw [not_not] at ha
    exact ⟨hr.step ha.1 hstep, hr.published ha.2 hstep⟩

end run

/-! ### Two runs -/

section decidable
variable [DecidableEq Tune]

instance (b : Board Client) (t : TargetId) : Decidable (Busy b t) :=
  inferInstanceAs (Decidable (_ ∨ _ ∨ _))

instance (b : Board Client) (t : TargetId) : Decidable (Rests b t) :=
  inferInstanceAs (Decidable (_ ∧ _))

instance (p : Publication Tune) : Decidable (p.Consistent setup) :=
  inferInstanceAs (Decidable (_ ∧ _))

instance (a : Axis Tune) : Decidable a.Flagged := inferInstanceAs (Decidable (_ ∨ _))

instance (r : Rig Client Tune) : DecidablePred r.Armable
  | .board i => inferInstanceAs (Decidable (∀ t, Rig.Prepares r.board i t → Rests r.board t ∧
      (r.axes t).Flagged))
  | .editSeq _ _ | .editDet _ _ | .detectorCommand _ => inferInstanceAs (Decidable True)

instance (r : Rig Client Tune) : DecidablePred r.Unchanged
  | .board i => inferInstanceAs (Decidable (∀ t, Rig.ReadsOut r.board i t →
      (r.axes t).det.enable = (r.axes t).det.enabled))
  | .editSeq _ _ | .editDet _ _ | .detectorCommand _ => inferInstanceAs (Decidable True)

end decidable

/-- Two points are published, and frequencies as they are. -/
def smallSetup : Setup (BitVec 64) where
  detectorLength := 2
  bunches := 2
  detAdcDelay := 1
  detFirDelay := 1
  detAdcRejectDelay := 1
  freqToTune := id

/-- One state with one capture, which is not written. -/
def smallConfig : SeqConfig where
  bank0 := 0
  sequencerPc := 1
  superSeqCount := 1
  entries _ := { dwellTime := 1, captureCount := 1 }
  superOffsets _ := 0

theorem smallConfig_admitted : smallConfig.Admitted := by
  refine ⟨by decide, by decide, fun i _ => ⟨?_, ?_, ?_, ?_⟩⟩ <;> simp [smallConfig]

/-- The axis as it comes up. -/
def smallAxis : Axis (BitVec 64) where
  seq := ⟨smallConfig, smallConfig, true, false⟩
  det := {
    enable := fun _ => false
    enabled := fun _ => false
    samples := fun _ => 0
    inputSelect := .adc
    firGroupDelay := 0
    phaseDelay := 0
    detectorCount := 0
    detectorMask := 0
    scaleInfo := readDetectorScaleInfo smallSetup smallConfig
    fillWaveform := false
    scaleLength := 0 }
  hw := ⟨smallConfig, fun _ => false, 0⟩
  captured := ⟨smallConfig, fun _ => false, 0⟩
  memory := none
  current := false
  unmarked := false
  readOut := false

/-- The rig as it comes up, with all targets in one-shot mode. -/
def smallRig : Rig ℕ (BitVec 64) := ⟨.reset, fun _ => smallAxis⟩

theorem smallRig_init : (rig ℕ smallSetup).init smallRig :=
  ⟨board_reset, fun _ => ⟨rfl, rfl, rfl, rfl, rfl, rfl, rfl, smallConfig_admitted,
    points_length smallConfig_admitted⟩⟩

/-- A detector is enabled, and a frequency is set whose capture is to be written. -/
def smallEdits : List (RigInput ℕ) :=
  [.editDet .seq0 (.enable 1 true), .editSeq .seq0 (.startFreq ⟨0, by decide⟩ 5),
    .editSeq .seq0 (.capture ⟨0, by decide⟩ true), .editSeq .seq0 .updateCount]

/-- The first sequencer is armed. -/
def armInputs : List (RigInput ℕ) :=
  [.board (.call (.arm .seq0)), .board (.clock true calm), .board (.clock true calm),
    .board (.clock true calm)]

/-- It is triggered, runs to its end and is read out. -/
def captureInputs : List (RigInput ℕ) :=
  [.board (.clock false { calm with trigger := fun _ => true }),
    .board (.clock false { calm with turnClock := true })] ++
    List.replicate 5 (.board (.clock false calm)) ++
      [.board (.finish .seq0), .board .read, .board .dispatch]

/-- The end of the capture is dispatched. -/
def completeInputs : List (RigInput ℕ) :=
  [.board .dispatch, .board (.clock true calm), .board .dispatch, .board (.clock true calm),
    .board (.clock true calm)]

/-- Two captures after one edit. -/
theorem published_scale_consistent_capture :
    let l := (rig ℕ smallSetup).trace smallRig (smallEdits ++ armInputs ++ captureInputs ++
      completeInputs ++ armInputs ++ captureInputs)
    l.countP (fun x => x.2.2.isSome) = 2 ∧ ∀ x ∈ l, ∀ p ∈ x.2.2, p.2.Consistent smallSetup :=
  ⟨by decide +kernel, published_scale_consistent smallRig_init
    ((rig ℕ smallSetup).path_trace _ _) (by decide +kernel)⟩

/-- It is armed, disarmed and armed again after the edit: the scale is not published. -/
theorem published_scale_stale :
    ∃ r₀ r l, (rig ℕ smallSetup).init r₀ ∧ Runs.Path (rig ℕ smallSetup).system r₀ l r ∧
      ∃ x ∈ l, ∃ p ∈ x.2.2, ¬ p.2.Consistent smallSetup :=
  ⟨_, _, _, smallRig_init, (rig ℕ smallSetup).path_trace _ (smallEdits ++ armInputs ++
    [.board (.call (.disarm .seq0)), .board (.clock true calm), .board (.clock true calm)] ++
      armInputs ++ captureInputs), by decide +kernel⟩

end Mbf.Detector
