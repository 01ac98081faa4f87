import Mbf.Bunch.Gains

/-! # The configuration of the bunches

What is written last to the records of a bank is its `Settings`, bunch by bunch; `Reference` keeps
them for all banks.  After any sequence of writes the banks of the program are what the settings
make of them (`Tracks`), and so is what the circuit decodes for a bank that has been written at all
(`bunch_configuration`).  The number of bunches must be one that the bunch counter can hold: else
the address wraps, and the first bunches get the configuration of the last
(`bunch_configuration_wraps`). -/

namespace Mbf.Bunch

/-! ### What was written last -/

/-- The settings of a bank, bunch by bunch. -/
structure Settings (bunches : ℕ) where
  firSelect : Waveform bunches (BitVec 2)
  enable : Source → Waveform bunches Bool
  gain : Source → Waveform bunches ℤ

/-- The settings of all banks, and which of them have been written, with what is needed to know
what a write means. -/
structure Reference (bunches : ℕ) where
  settings : BankId → Settings bunches
  written : BankId → Bool
  gainSelect : BankId → Source → FloatValue
  firSelect : BankId → BitVec 16
  selection : BankId → Waveform bunches Bool
  copyFrom : BankId
  copyTo : BankId

namespace Reference
variable {bunches : ℕ}

def initial (bunches : ℕ) : Reference bunches where
  settings _ := ⟨fun _ => 0, fun _ _ => false, fun _ _ => 0⟩
  written _ := false
  gainSelect _ _ := gainToFloat (2 ^ 14)
  firSelect _ := 0
  selection _ _ := false
  copyFrom := 0
  copyTo := 0

/-- New settings for a bank. -/
def write (r : Reference bunches) (b : BankId) (settings : Settings bunches) :
    Reference bunches :=
  { r with
    settings := Function.update r.settings b settings
    written := Function.update r.written b true }

def writeEnable (r : Reference bunches) (b : BankId) (source : Source)
    (enable : Waveform bunches Bool) : Reference bunches :=
  let settings := r.settings b
  r.write b { settings with enable := Function.update settings.enable source enable }

def writeGain (r : Reference bunches) (b : BankId) (source : Source)
    (gain : Waveform bunches ℤ) : Reference bunches :=
  let settings := r.settings b
  r.write b { settings with gain := Function.update settings.gain source gain }

def writeFirSelect (r : Reference bunches) (b : BankId) (firSelect : Waveform bunches (BitVec 2)) :
    Reference bunches :=
  let settings := r.settings b
  r.write b { settings with firSelect := firSelect }

/-- The bit of a source in `OUTWF`. -/
def outBit : Source → ℕ
  | .fir => 0
  | .nco0 => 1
  | .nco1 => 2
  | .nco2 => 3
  | .nco3 => 4

/-- What a write means for the settings. -/
def process (r : Reference bunches) : BunchWriteOp bunches → Reference bunches
  | .enables b source wf => r.writeEnable b source fun i => wf i != 0
  | .gains b source wf => r.writeGain b source fun i => floatToGain (wf i)
  | .setEnablesAll b source value => r.writeEnable b source fun _ => value
  | .setEnables b source value => r.writeEnable b source fun i =>
      if r.selection b i then value else (r.settings b).enable source i
  | .gainSelect b source value =>
      { r with gainSelect :=
          Function.update r.gainSelect b (Function.update (r.gainSelect b) source value) }
  | .setGains b source => r.writeGain b source fun i =>
      if r.selection b i then floatToGain (r.gainSelect b source) else (r.settings b).gain source i
  | .firWf b wf => r.writeFirSelect b fun i => (wf i).setWidth 2
  | .firSelect b value => { r with firSelect := Function.update r.firSelect b value }
  | .setFirWf b => r.writeFirSelect b fun i =>
      if r.selection b i then (r.firSelect b).setWidth 2 else (r.settings b).firSelect i
  | .resetGains b =>
      let settings := r.settings b
      r.write b { settings with gain := fun _ _ => 2 ^ 14 }
  | .outWf b wf =>
      let settings := r.settings b
      r.write b { settings with enable := fun source i => (wf i).getLsbD (outBit source) }
  | .bunchSelect b selection => { r with selection := Function.update r.selection b selection }
  | .copyFrom b => { r with copyFrom := b }
  | .copyTo b => { r with copyTo := b }
  | .copyBank =>
      if r.copyFrom ≠ r.copyTo then r.write r.copyTo (r.settings r.copyFrom) else r

/-- The bank that a write is about. -/
def bank (r : Reference bunches) : BunchWriteOp bunches → Option BankId
  | .enables b _ _ | .gains b _ _ | .setEnablesAll b _ _ | .setEnables b _ _ | .gainSelect b _ _
  | .setGains b _ | .firWf b _ | .firSelect b _ | .setFirWf b | .resetGains b | .outWf b _
  | .bunchSelect b _ => some b
  | .copyFrom _ | .copyTo _ => none
  | .copyBank => some r.copyTo

end Reference

/-! ### The program -/

section program
variable {bunches : ℕ} (setup : Setup)

/-- The configuration for some settings. -/
def Settings.config (st : Settings bunches) : BunchConfig bunches where
  firSelect := Waveform.rotate (fun i => (st.firSelect i).setWidth 8) setup.firOffset
  firEnable := Waveform.rotate (st.enable .fir) setup.gainOffset
  firGains := Waveform.rotate (st.gain .fir) setup.gainOffset
  nco0Gains i := if Waveform.rotate (st.enable .nco0) setup.gainOffset i = true then
    Waveform.rotate (st.gain .nco0) setup.gainOffset i else 0
  nco1Gains i := if Waveform.rotate (st.enable .nco1) setup.gainOffset i = true then
    Waveform.rotate (st.gain .nco1) setup.gainOffset i else 0
  nco2Gains i := if Waveform.rotate (st.enable .nco2) setup.gainOffset i = true then
    Waveform.rotate (st.gain .nco2) setup.gainOffset i else 0
  nco3Gains i := if Waveform.rotate (st.enable .nco3) setup.gainOffset i = true then
    Waveform.rotate (st.gain .nco3) setup.gainOffset i else 0

/-- The state of a source for some settings. -/
def Settings.source (st : Settings bunches) (gainSelect : FloatValue) (source : Source) :
    BunchSource bunches where
  enablesWf := st.enable source
  scaledGains := st.gain source
  gainSelect := gainSelect
  enables i := if st.enable source i then 1 else 0
  gains i := gainToFloat (st.gain source i)

/-- The bank of the program for the settings. -/
def Reference.bunchBank (r : Reference bunches) (b : BankId) : BunchBank bunches where
  config := (r.settings b).config setup
  firwf i := ((r.settings b).firSelect i).setWidth 8
  firSelect := r.firSelect b
  selection := r.selection b
  sources source := (r.settings b).source (r.gainSelect b source) source

/-- The banks of the program are what the settings make of them. -/
structure Tracks (ctx : BunchContext bunches) (r : Reference bunches) : Prop where
  banks : ∀ b, ctx.banks b = r.bunchBank setup b
  copyFrom : ctx.copyFrom = r.copyFrom
  copyTo : ctx.copyTo = r.copyTo
  gain : ∀ b source i, -2 ^ 17 ≤ (r.settings b).gain source i ∧ (r.settings b).gain source i < 2 ^ 17

/-- The axis is one that the program writes. -/
def Setup.Writes (axis : Fin 2) : Prop := axis = setup.axis ∨ setup.lmbfMode = true ∧ axis = 1

/-- The circuit of an axis has the entries of the banks that have been written. -/
def Stored (axis : Fin 2) (p : Port) (ctx : BunchContext bunches) (r : Reference bunches) : Prop :=
  ∀ b, r.written b = true → ∀ i : Fin bunches,
    ((ctx.writes axis).foldl Port.step p).stored (BitVec.ofFin b ++ BitVec.ofNat 11 i.val) =
      ((r.settings b).config setup).entry i

/-- Only the bank `b` is written. -/
def Frame (b : BankId) (ctx ctx' : BunchContext bunches) : Prop :=
  ∀ axis p, ∀ b' ≠ b, ∀ bunch : BitVec 11,
    ((ctx'.writes axis).foldl Port.step p).stored (BitVec.ofFin b' ++ bunch) =
      ((ctx.writes axis).foldl Port.step p).stored (BitVec.ofFin b' ++ bunch)

/-! ### One write -/

theorem bank_ne {b b' : BankId} (h : b' ≠ b) : (BitVec.ofFin b' : BitVec 2) ≠ BitVec.ofFin b := by
  revert b b'
  decide

section laws
variable (r : Reference bunches) (b : BankId) (st : Settings bunches) (ctx : BunchContext bunches)
  (bank : BunchBank bunches)

@[simp] theorem Reference.write_settings : (r.write b st).settings b = st :=
  Function.update_self _ _ _

theorem Reference.write_settings_other {b' : BankId} (h : b' ≠ b) :
    (r.write b st).settings b' = r.settings b' := Function.update_of_ne h _ _

theorem Reference.write_written_other {b' : BankId} (h : b' ≠ b) :
    (r.write b st).written b' = r.written b' := Function.update_of_ne h _ _

@[simp] theorem BunchContext.setBank_banks : (ctx.setBank b bank).banks b = bank :=
  Function.update_self _ _ _

theorem BunchContext.setBank_banks_other {b' : BankId} (h : b' ≠ b) :
    (ctx.setBank b bank).banks b' = ctx.banks b' := Function.update_of_ne h _ _

theorem BunchContext.writeBunchConfig_banks : (ctx.writeBunchConfig setup b).banks = ctx.banks := rfl

theorem BunchContext.writeBunchConfig_writes {axis : Fin 2} (h : setup.Writes axis) :
    (ctx.writeBunchConfig setup b).writes axis =
      ctx.writes axis ++ hwWriteBunchConfig b (ctx.banks b).config := if_pos h

theorem BunchContext.writeBunchConfig_writes_other {axis : Fin 2} (h : ¬ setup.Writes axis) :
    (ctx.writeBunchConfig setup b).writes axis = ctx.writes axis := if_neg h

end laws

/-- Nothing but the bank `b` is written, in the program and in the circuit, and what is written is
what is meant. -/
structure Follows (b : BankId) (ctx : BunchContext bunches) (r : Reference bunches)
    (ctx' : BunchContext bunches) (r' : Reference bunches) : Prop where
  tracks : Tracks setup ctx r → Tracks setup ctx' r'
  stored : Tracks setup ctx r → bunches ≤ 2 ^ 11 → ∀ axis p, setup.Writes axis →
    Stored setup axis p ctx r → Stored setup axis p ctx' r'
  frame : Tracks setup ctx r → Frame b ctx ctx'

variable {setup} {b : BankId} {ctx ctx' ctx'' : BunchContext bunches}
  {r r' r'' : Reference bunches}

theorem Follows.refl : Follows setup b ctx r ctx r :=
  ⟨fun h => h, fun _ _ _ _ _ h => h, fun _ _ _ _ _ _ => rfl⟩

theorem Follows.of_tracks (h : Tracks setup ctx r → Follows setup b ctx r ctx' r') :
    Follows setup b ctx r ctx' r' :=
  ⟨fun ht => (h ht).tracks ht, fun ht => (h ht).stored ht, fun ht => (h ht).frame ht⟩

theorem Follows.trans (h : Follows setup b ctx r ctx' r') (h' : Follows setup b ctx' r' ctx'' r'') :
    Follows setup b ctx r ctx'' r'' where
  tracks ht := h'.tracks (h.tracks ht)
  stored ht hfits axis p hwrites hs :=
    h'.stored (h.tracks ht) hfits axis p hwrites (h.stored ht hfits axis p hwrites hs)
  frame ht axis p b' hb' bunch :=
    (h'.frame (h.tracks ht) axis p b' hb' bunch).trans (h.frame ht axis p b' hb' bunch)

/-- A new state of a bank with its settings, written to the hardware. -/
theorem follows_write {st : Settings bunches} {bank : BunchBank bunches}
    (hbank : Tracks setup ctx r → bank = (r.write b st).bunchBank setup b)
    (hgain : Tracks setup ctx r →
      ∀ source i, -2 ^ 17 ≤ st.gain source i ∧ st.gain source i < 2 ^ 17) :
    Follows setup b ctx r ((ctx.setBank b bank).writeBunchConfig setup b) (r.write b st) where
  tracks h := by
    refine ⟨?_, h.copyFrom, h.copyTo, ?_⟩
    · intro b'
      rw [BunchContext.writeBunchConfig_banks]
      by_cases hb : b' = b
      · subst hb
        rw [BunchContext.setBank_banks, hbank h]
      · rw [BunchContext.setBank_banks_other _ _ _ hb, h.banks b']
        unfold Reference.bunchBank
        rw [Reference.write_settings_other _ _ _ hb]
        rfl
    · intro b' source i
      by_cases hb : b' = b
      · subst hb
        rw [Reference.write_settings]
        exact hgain h source i
      · rw [Reference.write_settings_other _ _ _ hb]
        exact h.gain b' source i
  stored h hfits axis p hwrites hs := by
    intro b' hwritten i
    have hconfig : ((ctx.setBank b bank).banks b).config = st.config setup := by
      rw [BunchContext.setBank_banks, hbank h]
      unfold Reference.bunchBank
      rw [Reference.write_settings]
    have hlog : (ctx.setBank b bank).writes axis = ctx.writes axis := rfl
    rw [BunchContext.writeBunchConfig_writes _ _ _ hwrites, hconfig, hlog, List.foldl_append,
      step_hwWriteBunchConfig]
    by_cases hb : b' = b
    · subst hb
      have hentry : ((List.finRange bunches).map (st.config setup).entry)[i.val]? =
          some ((st.config setup).entry i) := by
        rw [List.getElem?_map, List.getElem?_eq_getElem (by simp)]
        simp
      have hplace := @storeEntries_getElem (BitVec.ofFin b') 0 i.val _ _
        ((ctx.writes axis).foldl Port.step p).stored hentry (by simpa using hfits)
      rw [Nat.zero_add] at hplace
      rw [Reference.write_settings]
      exact hplace
    · rw [storeEntries_other (bank_ne hb), Reference.write_settings_other _ _ _ hb]
      rw [Reference.write_written_other _ _ _ hb] at hwritten
      exact hs b' hwritten i
  frame := by
    intro _ axis p b' hb' bunch
    have hlog : (ctx.setBank b bank).writes axis = ctx.writes axis := rfl
    by_cases hwrites : setup.Writes axis
    · rw [BunchContext.writeBunchConfig_writes _ _ _ hwrites, hlog, List.foldl_append,
        step_hwWriteBunchConfig, storeEntries_other (bank_ne hb')]
    · rw [BunchContext.writeBunchConfig_writes_other _ _ _ hwrites, hlog]

/-- Settings with a new state of a source. -/
def Settings.withSource (st : Settings bunches) (source : Source) (enable : Waveform bunches Bool)
    (gain : Waveform bunches ℤ) : Settings bunches :=
  { st with
    enable := Function.update st.enable source enable
    gain := Function.update st.gain source gain }

/-- The part of the configuration that belongs to a source. -/
theorem updateConfig_eq (st : Settings bunches) (source : Source) (gainSelect : FloatValue)
    (enable : Waveform bunches Bool) (gain : Waveform bunches ℤ) :
    BunchContext.updateConfig setup source
        ((st.withSource source enable gain).source gainSelect source) (st.config setup) =
      (st.withSource source enable gain).config setup := by
  cases source with
  | fir => simp [BunchContext.updateConfig, Settings.withSource, Settings.source, Settings.config]
  | nco0 => simp [BunchContext.updateConfig, Settings.withSource, Settings.source, Settings.config]
  | nco1 => simp [BunchContext.updateConfig, Settings.withSource, Settings.source, Settings.config]
  | nco2 => simp [BunchContext.updateConfig, Settings.withSource, Settings.source, Settings.config]
  | nco3 => simp [BunchContext.updateConfig, Settings.withSource, Settings.source, Settings.config]

/-- A new state of a source. -/
theorem follows_source {source : Source} {state : BunchSource bunches}
    {enable : Waveform bunches Bool} {gain : Waveform bunches ℤ}
    (hstate : Tracks setup ctx r → state =
      ((r.settings b).withSource source enable gain).source (r.gainSelect b source) source)
    (hgain : Tracks setup ctx r → ∀ i, -2 ^ 17 ≤ gain i ∧ gain i < 2 ^ 17) :
    Follows setup b ctx r (ctx.updateSourceGainsEnables setup b source state)
      (r.write b ((r.settings b).withSource source enable gain)) := by
  apply follows_write
  · intro h
    rw [hstate h, h.banks b]
    unfold Reference.bunchBank
    rw [updateConfig_eq, Reference.write_settings]
    congr 1
    funext other
    by_cases hother : other = source
    · subst hother
      rw [Function.update_self]
      rfl
    · rw [Function.update_of_ne hother]
      simp [Settings.source, Settings.withSource, Function.update_of_ne hother, Reference.write]
  · intro h other i
    show -2 ^ 17 ≤ Function.update (r.settings b).gain source gain other i ∧
      Function.update (r.settings b).gain source gain other i < 2 ^ 17
    by_cases hother : other = source
    · subst hother
      rw [Function.update_self]
      exact hgain h i
    · rw [Function.update_of_ne hother]
      exact h.gain b other i

theorem follows_writeEnables {source : Source} {wf : Waveform bunches (BitVec 8)}
    {enable : Waveform bunches Bool} (hwf : Tracks setup ctx r → ∀ i, (wf i != 0) = enable i) :
    Follows setup b ctx r (ctx.writeEnables setup b source wf) (r.writeEnable b source enable) := by
  have hsettings : r.writeEnable b source enable =
      r.write b ((r.settings b).withSource source enable ((r.settings b).gain source)) := by
    unfold Reference.writeEnable Settings.withSource
    rw [Function.update_eq_self]
  rw [hsettings]
  apply follows_source
  · intro h
    simp only [h.banks b, Reference.bunchBank, Settings.source, Settings.withSource,
      Function.update_self, hwf h]
  · intro h i
    exact h.gain b source i

theorem follows_writeGains {source : Source} {wf : Waveform bunches FloatValue}
    {gain : Waveform bunches ℤ} (hwf : Tracks setup ctx r → ∀ i, floatToGain (wf i) = gain i) :
    Follows setup b ctx r (ctx.writeGains setup b source wf) (r.writeGain b source gain) := by
  have hsettings : r.writeGain b source gain =
      r.write b ((r.settings b).withSource source ((r.settings b).enable source) gain) := by
    unfold Reference.writeGain Settings.withSource
    rw [Function.update_eq_self]
  rw [hsettings]
  apply follows_source
  · intro h
    simp only [h.banks b, Reference.bunchBank, Settings.source, Settings.withSource,
      Function.update_self, hwf h]
  · intro h i
    rw [← hwf h i]
    exact floatToGain_range (wf i)

theorem follows_writeFirWf {wf : Waveform bunches (BitVec 8)}
    {firSelect : Waveform bunches (BitVec 2)}
    (hwf : Tracks setup ctx r → ∀ i, (wf i).setWidth 2 = firSelect i) :
    Follows setup b ctx r (ctx.writeFirWf setup b wf) (r.writeFirSelect b firSelect) := by
  have hmask : ∀ x : BitVec 8, x &&& 3 = (x.setWidth 2).setWidth 8 := by decide
  apply follows_write
  · intro h
    have hfir : (fun i => wf i &&& 3) = fun i => (firSelect i).setWidth 8 := by
      funext i
      rw [hmask, hwf h i]
    rw [hfir, h.banks b]
    unfold Reference.bunchBank
    rw [Reference.write_settings]
    rfl
  · intro h other i
    exact h.gain b other i

/-- A bank that is not written. -/
theorem follows_still {bank : BunchBank bunches}
    (hsettings : r'.settings = r.settings) (hwritten : r'.written = r.written)
    (hbank : Tracks setup ctx r → bank = r'.bunchBank setup b)
    (hother : ∀ b' ≠ b, r'.bunchBank setup b' = r.bunchBank setup b')
    (hfrom : r'.copyFrom = r.copyFrom) (hto : r'.copyTo = r.copyTo) :
    Follows setup b ctx r (ctx.setBank b bank) r' where
  tracks h := by
    refine ⟨?_, h.copyFrom.trans hfrom.symm, h.copyTo.trans hto.symm, ?_⟩
    · intro b'
      by_cases hb : b' = b
      · subst hb
        rw [BunchContext.setBank_banks, hbank h]
      · rw [BunchContext.setBank_banks_other _ _ _ hb, hother b' hb, h.banks b']
    · intro b' source i
      rw [hsettings]
      exact h.gain b' source i
  stored _ _ axis p _ hs := by
    intro b' hb' i
    rw [hwritten] at hb'
    rw [hsettings]
    exact hs b' hb' i
  frame _ _ _ _ _ _ := rfl

/-! ### Several writes -/

theorem Reference.write_write (r : Reference bunches) (b : BankId) (st st' : Settings bunches) :
    (r.write b st).write b st' = r.write b st' := by
  simp [Reference.write, Function.update_idem]

theorem Reference.writeEnable_eq (r : Reference bunches) (b : BankId) (source : Source)
    (enable : Waveform bunches Bool) : r.writeEnable b source enable =
      r.write b { r.settings b with
        enable := Function.update (r.settings b).enable source enable } := rfl

theorem Reference.writeGain_eq (r : Reference bunches) (b : BankId) (source : Source)
    (gain : Waveform bunches ℤ) : r.writeGain b source gain =
      r.write b { r.settings b with
        gain := Function.update (r.settings b).gain source gain } := rfl

theorem Reference.write_writeEnable (r : Reference bunches) (b : BankId) (st : Settings bunches)
    (source : Source) (enable : Waveform bunches Bool) :
    (r.write b st).writeEnable b source enable =
      r.write b { st with enable := Function.update st.enable source enable } := by
  unfold Reference.writeEnable
  rw [Reference.write_settings, Reference.write_write]

theorem Reference.write_writeGain (r : Reference bunches) (b : BankId) (st : Settings bunches)
    (source : Source) (gain : Waveform bunches ℤ) :
    (r.write b st).writeGain b source gain =
      r.write b { st with gain := Function.update st.gain source gain } := by
  unfold Reference.writeGain
  rw [Reference.write_settings, Reference.write_write]

theorem follows_resetAllSourceGains :
    Follows setup b ctx r (ctx.resetAllSourceGains setup b) (r.process (.resetGains b)) := by
  have hone : floatToGain (.finite 1) = 2 ^ 14 := by
    have hgain := @floatToGain_gainToFloat (2 ^ 14) (by norm_num) (by norm_num)
    norm_num [gainToFloat] at hgain
    exact hgain
  have hstep : ∀ (ctx : BunchContext bunches) (r : Reference bunches) (source : Source),
      Follows setup b ctx r (ctx.writeGains setup b source fun _ => .finite 1)
        (r.writeGain b source fun _ => 2 ^ 14) :=
    fun ctx r source => follows_writeGains fun _ _ => hone
  have hall : r.process (.resetGains b) =
      ((((r.writeGain b .fir fun _ => 2 ^ 14).writeGain b .nco0 fun _ => 2 ^ 14).writeGain b .nco1
        fun _ => 2 ^ 14).writeGain b .nco2 fun _ => 2 ^ 14).writeGain b .nco3 fun _ => 2 ^ 14 := by
    unfold Reference.process
    dsimp only
    rw [r.writeGain_eq, Reference.write_writeGain, Reference.write_writeGain,
      Reference.write_writeGain, Reference.write_writeGain]
    congr 2
    funext source
    cases source <;> rfl
  rw [hall]
  exact ((((hstep _ _ _).trans (hstep _ _ _)).trans (hstep _ _ _)).trans (hstep _ _ _)).trans
    (hstep _ _ _)

theorem follows_writeOutWf {wf : Waveform bunches (BitVec 8)} :
    Follows setup b ctx r (ctx.writeOutWf setup b wf) (r.process (.outWf b wf)) := by
  have hbit : ∀ shift < 5, ∀ x : BitVec 8,
      (x.sshiftRight shift &&& 1 != 0) = x.getLsbD shift := by decide +kernel
  have hstep : ∀ (ctx : BunchContext bunches) (r : Reference bunches) (source : Source),
      Follows setup b ctx r
        (ctx.writeSourceEnables setup b source wf (Reference.outBit source))
        (r.writeEnable b source fun i => (wf i).getLsbD (Reference.outBit source)) := by
    intro ctx r source
    apply follows_writeEnables
    intro _ i
    apply hbit
    cases source <;> decide
  have hall : r.process (.outWf b wf) =
      ((((r.writeEnable b .fir fun i => (wf i).getLsbD 0).writeEnable b .nco0
        fun i => (wf i).getLsbD 1).writeEnable b .nco1 fun i => (wf i).getLsbD 2).writeEnable b
        .nco2 fun i => (wf i).getLsbD 3).writeEnable b .nco3 fun i => (wf i).getLsbD 4 := by
    unfold Reference.process
    dsimp only
    rw [r.writeEnable_eq, Reference.write_writeEnable, Reference.write_writeEnable,
      Reference.write_writeEnable, Reference.write_writeEnable]
    congr 2
    funext source
    cases source <;> rfl
  rw [hall]
  exact ((((hstep _ _ .fir).trans (hstep _ _ .nco0)).trans (hstep _ _ .nco1)).trans
    (hstep _ _ .nco2)).trans (hstep _ _ .nco3)

/-- One source of a copy. -/
theorem follows_copySource {fromBank : BankId} (hne : fromBank ≠ b) (st : Settings bunches)
    (source : Source) :
    Follows setup b ctx (r.write b st) (ctx.copySource setup fromBank b source)
      (r.write b { st with
        enable := Function.update st.enable source ((r.settings fromBank).enable source)
        gain := Function.update st.gain source ((r.settings fromBank).gain source) }) := by
  have hwrites : r.write b { st with
        enable := Function.update st.enable source ((r.settings fromBank).enable source)
        gain := Function.update st.gain source ((r.settings fromBank).gain source) } =
      ((r.write b st).writeEnable b source ((r.settings fromBank).enable source)).writeGain b
        source ((r.settings fromBank).gain source) := by
    rw [Reference.write_writeEnable, Reference.write_writeGain]
  rw [hwrites]
  have hfrom : (r.write b st).settings fromBank = r.settings fromBank :=
    r.write_settings_other b st hne
  unfold BunchContext.copySource
  dsimp only
  have henables : Follows setup b ctx (r.write b st)
      (ctx.writeEnables setup b source ((ctx.banks fromBank).sources source).enables)
      ((r.write b st).writeEnable b source ((r.settings fromBank).enable source)) := by
    apply follows_writeEnables
    intro h i
    rw [h.banks fromBank]
    show ((if ((r.write b st).settings fromBank).enable source i then 1 else 0 : BitVec 8) != 0) = _
    rw [hfrom]
    cases (r.settings fromBank).enable source i <;> rfl
  refine henables.trans ?_
  apply follows_writeGains
  intro h i
  have hrange := h.gain fromBank source i
  rw [h.banks fromBank]
  rw [Reference.write_writeEnable, Reference.write_settings_other _ _ _ hne] at hrange
  show floatToGain (gainToFloat ((Reference.settings _ fromBank).gain source i)) = _
  rw [Reference.write_writeEnable, Reference.write_settings_other _ _ _ hne]
  exact floatToGain_gainToFloat hrange.1 hrange.2

theorem follows_copyBankFromTo (hb : r.copyTo = b) :
    Follows setup b ctx r (ctx.copyBankFromTo setup) (r.process .copyBank) := by
  apply Follows.of_tracks
  intro ht
  unfold BunchContext.copyBankFromTo Reference.process
  rw [ht.copyFrom, ht.copyTo, hb]
  split_ifs with hne
  · have hfir : Follows setup b ctx r (ctx.writeFirWf setup b (ctx.banks r.copyFrom).firwf)
        (r.writeFirSelect b (r.settings r.copyFrom).firSelect) := by
      apply follows_writeFirWf
      intro h i
      rw [h.banks r.copyFrom]
      exact setWidth_back _
    have hall : r.write b (r.settings r.copyFrom) = r.write b
        ((Source.nco3 :: [.nco2, .nco1, .nco0, .fir]).foldr (fun source st =>
          { st with
            enable := Function.update st.enable source ((r.settings r.copyFrom).enable source)
            gain := Function.update st.gain source ((r.settings r.copyFrom).gain source) })
          { r.settings b with firSelect := (r.settings r.copyFrom).firSelect }) := by
      have hsettings : ∀ st st' : Settings bunches, st.firSelect = st'.firSelect →
          (∀ source, st.enable source = st'.enable source) →
          (∀ source, st.gain source = st'.gain source) → st = st' := by
        intro st st' hfir henable hgain
        obtain ⟨firSelect, enable, gain⟩ := st
        obtain ⟨firSelect', enable', gain'⟩ := st'
        obtain rfl : firSelect = firSelect' := hfir
        obtain rfl : enable = enable' := funext henable
        obtain rfl : gain = gain' := funext hgain
        rfl
      congr 1
      apply hsettings
      · rfl
      · intro source
        cases source <;> rfl
      · intro source
        cases source <;> rfl
    rw [hall]
    exact ((((hfir.trans (follows_copySource hne _ .fir)).trans
      (follows_copySource hne _ .nco0)).trans (follows_copySource hne _ .nco1)).trans
      (follows_copySource hne _ .nco2)).trans (follows_copySource hne _ .nco3)
  · exact Follows.refl

/-- What the processing of a record does is what it is meant to do. -/
theorem follows_process (op : BunchWriteOp bunches) (hb : ∀ b', r.bank op = some b' → b' = b) :
    Follows setup b ctx r (ctx.process setup op) (r.process op) := by
  cases op with
  | enables b' source wf =>
      obtain rfl := hb b' rfl
      exact follows_writeEnables fun _ _ => rfl
  | gains b' source wf =>
      obtain rfl := hb b' rfl
      exact follows_writeGains fun _ _ => rfl
  | setEnablesAll b' source value =>
      obtain rfl := hb b' rfl
      apply follows_writeEnables
      intro _ _
      cases value <;> rfl
  | setEnables b' source value =>
      obtain rfl := hb b' rfl
      apply follows_writeEnables
      intro h i
      unfold BunchContext.withBunchSet
      rw [h.banks b']
      show ((if r.selection b' i then _ else (if (r.settings b').enable source i then 1 else 0) :
        BitVec 8) != 0) = _
      cases r.selection b' i <;> cases value <;> cases (r.settings b').enable source i <;> rfl
  | gainSelect b' source value =>
      obtain rfl := hb b' rfl
      apply follows_still
      · rfl
      · rfl
      · intro h
        rw [h.banks b']
        unfold Reference.bunchBank Reference.process
        dsimp only
        congr 1
        funext other
        rw [Function.update_self]
        by_cases hother : other = source
        · subst hother
          rw [Function.update_self, Function.update_self]
          rfl
        · rw [Function.update_of_ne hother, Function.update_of_ne hother]
      · intro b'' hb''
        unfold Reference.bunchBank Reference.process
        dsimp only
        rw [Function.update_of_ne hb'']
      · rfl
      · rfl
  | setGains b' source =>
      obtain rfl := hb b' rfl
      apply follows_writeGains
      intro h i
      unfold BunchContext.withBunchSet
      rw [h.banks b']
      show floatToGain (if r.selection b' i then r.gainSelect b' source else
        gainToFloat ((r.settings b').gain source i)) = _
      split_ifs
      · rfl
      · have hrange := h.gain b' source i
        exact floatToGain_gainToFloat hrange.1 hrange.2
  | firWf b' wf =>
      obtain rfl := hb b' rfl
      exact follows_writeFirWf fun _ _ => rfl
  | firSelect b' value =>
      obtain rfl := hb b' rfl
      apply follows_still
      · rfl
      · rfl
      · intro h
        rw [h.banks b']
        unfold Reference.bunchBank Reference.process
        dsimp only
        rw [Function.update_self]
      · intro b'' hb''
        unfold Reference.bunchBank Reference.process
        dsimp only
        rw [Function.update_of_ne hb'']
      · rfl
      · rfl
  | setFirWf b' =>
      obtain rfl := hb b' rfl
      apply follows_writeFirWf
      intro h i
      unfold BunchContext.withBunchSet
      rw [h.banks b']
      show (if r.selection b' i then (r.firSelect b').setWidth 8 else
        ((r.settings b').firSelect i).setWidth 8 : BitVec 8).setWidth 2 = _
      split_ifs
      · exact BitVec.setWidth_setWidth_of_le _ (by decide)
      · exact setWidth_back _
  | resetGains b' =>
      obtain rfl := hb b' rfl
      exact follows_resetAllSourceGains
  | outWf b' wf =>
      obtain rfl := hb b' rfl
      exact follows_writeOutWf
  | bunchSelect b' selection =>
      obtain rfl := hb b' rfl
      apply follows_still
      · rfl
      · rfl
      · intro h
        rw [h.banks b']
        unfold Reference.bunchBank Reference.process
        dsimp only
        rw [Function.update_self]
      · intro b'' hb''
        unfold Reference.bunchBank Reference.process
        dsimp only
        rw [Function.update_of_ne hb'']
      · rfl
      · rfl
  | copyFrom b' => exact ⟨fun h => ⟨h.banks, rfl, h.copyTo, h.gain⟩, fun _ _ _ _ _ h => h,
      fun _ _ _ _ _ _ => rfl⟩
  | copyTo b' => exact ⟨fun h => ⟨h.banks, h.copyFrom, rfl, h.gain⟩, fun _ _ _ _ _ h => h,
      fun _ _ _ _ _ _ => rfl⟩
  | copyBank => exact follows_copyBankFromTo (hb _ rfl)

/-! ### Any number of writes -/

theorem tracks_initial :
    Tracks setup (BunchContext.initial bunches) (Reference.initial bunches) where
  banks b := by
    have hzero : ∀ offset, Waveform.rotate (fun _ : Fin bunches => (0 : ℤ)) offset = fun _ => 0 := by
      intro offset
      funext i
      simp [Waveform.rotate]
    have hoff : ∀ offset, Waveform.rotate (fun _ : Fin bunches => false) offset = fun _ => false := by
      intro offset
      funext i
      simp [Waveform.rotate]
    have hfir : ∀ offset, Waveform.rotate (fun _ : Fin bunches => (0 : BitVec 8)) offset =
        fun _ => 0 := by
      intro offset
      funext i
      simp [Waveform.rotate]
    simp [BunchContext.initial, Reference.bunchBank, Reference.initial, Settings.config,
      Settings.source, hzero, hoff]
    exact (hfir setup.firOffset).symm
  copyFrom := rfl
  copyTo := rfl
  gain _ _ _ := ⟨by norm_num [Reference.initial], by norm_num [Reference.initial]⟩

/-- The program and the circuit after some writes. -/
theorem run_process (ops : List (BunchWriteOp bunches)) (hfits : bunches ≤ 2 ^ 11) {axis : Fin 2}
    (hwrites : setup.Writes axis) (p : Port) :
    Tracks setup (ops.foldl (BunchContext.process setup) (BunchContext.initial bunches))
        (ops.foldl Reference.process (Reference.initial bunches)) ∧
      Stored setup axis p (ops.foldl (BunchContext.process setup) (BunchContext.initial bunches))
        (ops.foldl Reference.process (Reference.initial bunches)) := by
  induction ops using List.reverseRecOn with
  | nil =>
      refine ⟨tracks_initial, ?_⟩
      intro b hb
      exact absurd hb (by simp [Reference.initial])
  | append_singleton ops op ih =>
      obtain ⟨htracks, hstored⟩ := ih
      rw [List.foldl_append, List.foldl_append]
      have hbank : ∃ b, ∀ b',
          (ops.foldl Reference.process (Reference.initial bunches)).bank op = some b' → b' = b := by
        cases hb : (ops.foldl Reference.process (Reference.initial bunches)).bank op with
        | none => exact ⟨0, by simp⟩
        | some b => exact ⟨b, by simp [eq_comm]⟩
      obtain ⟨b, hb⟩ := hbank
      have hstep : Follows setup b
          (ops.foldl (BunchContext.process setup) (BunchContext.initial bunches))
          (ops.foldl Reference.process (Reference.initial bunches)) _ _ := follows_process op hb
      exact ⟨hstep.tracks htracks, hstep.stored htracks hfits axis p hwrites hstored⟩

end program

/-! ### The whole way -/

section whole
variable {bunches : ℕ}

/-- The circuit has for a position of a bank the settings of the bunch there. -/
structure BunchConfigT.Decodes (c : BunchConfigT) (st : Settings bunches) (j k : Fin bunches) :
    Prop where
  firSelect : c.firSelect = st.firSelect k
  firEnable : c.firEnable = st.enable .fir j
  firGain : c.firGain.toInt = st.gain .fir j
  nco0Gain : c.nco0Gain.toInt = if st.enable .nco0 j then st.gain .nco0 j else 0
  nco1Gain : c.nco1Gain.toInt = if st.enable .nco1 j then st.gain .nco1 j else 0
  nco2Gain : c.nco2Gain.toInt = if st.enable .nco2 j then st.gain .nco2 j else 0
  nco3Gain : c.nco3Gain.toInt = if st.enable .nco3 j then st.gain .nco3 j else 0

theorem Settings.decodes {setup : Setup} {st : Settings bunches}
    (hgain : ∀ source i, -2 ^ 17 ≤ st.gain source i ∧ st.gain source i < 2 ^ 17)
    {i j k : Fin bunches} (hj : (j.val : ℤ) = (i.val + setup.gainOffset) % bunches)
    (hk : (k.val : ℤ) = (i.val + setup.firOffset) % bunches) :
    (toBunchConfigT ((st.config setup).entry i)).Decodes st j k := by
  have hnco : ∀ source, ((BitVec.ofInt 32 (if st.enable source j = true then st.gain source j
      else 0)).setWidth 18).toInt = if st.enable source j then st.gain source j else 0 := by
    intro source
    split_ifs
    · exact gain_toInt (hgain source j).1 (hgain source j).2
    · exact gain_toInt (by norm_num) (by norm_num)
  rw [toBunchConfigT_entry]
  unfold Settings.config
  dsimp only
  simp only [Waveform.rotate_eq _ hj, Waveform.rotate_eq _ hk]
  exact ⟨setWidth_back _, rfl, gain_toInt (hgain .fir j).1 (hgain .fir j).2, hnco _, hnco _,
    hnco _, hnco _⟩

/-- After any writes to the records, delivered to the circuit on any clocks.

The gain of a source that is disabled is zero, or for the FIR its enable is.  The gains are those
of the records, with all of their bits (`floatToGain_gainToFloat`). -/
theorem bunch_configuration (hfits : bunches ≤ 2 ^ 11) (setup : Setup)
    (ops : List (BunchWriteOp bunches)) {axis : Fin 2} (hwrites : setup.Writes axis)
    (s : BunchStore) {clocks : List (Option BunchWrite)}
    (hclocks : clocks.reduceOption =
      (ops.foldl (BunchContext.process setup) (BunchContext.initial bunches)).writes axis) :
    (∀ b, (ops.foldl Reference.process (Reference.initial bunches)).written b = true →
      ∀ i j k : Fin bunches, (j.val : ℤ) = (i.val + setup.gainOffset) % bunches →
        (k.val : ℤ) = (i.val + setup.firOffset) % bunches →
        (toBunchConfigT (((clocks ++ [none]).foldl BunchStore.clock s).memory
          (BitVec.ofFin b ++ BitVec.ofNat 11 i.val))).Decodes
          ((ops.foldl Reference.process (Reference.initial bunches)).settings b) j k) ∧
    ∀ op (more : List (Option BunchWrite)), (clocks ++ more).reduceOption =
        ((ops ++ [op]).foldl (BunchContext.process setup)
          (BunchContext.initial bunches)).writes axis →
      ∀ b, (ops.foldl Reference.process (Reference.initial bunches)).bank op ≠ some b →
        ∀ bunch : BitVec 11,
          ((clocks ++ more ++ [none]).foldl BunchStore.clock s).memory (BitVec.ofFin b ++ bunch) =
            ((clocks ++ [none]).foldl BunchStore.clock s).memory (BitVec.ofFin b ++ bunch) := by
  obtain ⟨htracks, hstored⟩ := run_process ops hfits hwrites s.port
  refine ⟨?_, ?_⟩
  · intro b hwritten i j k hj hk
    rw [BunchStore.memory_foldl, hclocks, hstored b hwritten i]
    exact Settings.decodes (htracks.gain b) hj hk
  · intro op more hmore b hbank bunch
    rw [BunchStore.memory_foldl, BunchStore.memory_foldl, hmore, hclocks, List.foldl_append]
    have hother : ∃ b', b ≠ b' ∧ ∀ b'',
        (ops.foldl Reference.process (Reference.initial bunches)).bank op = some b'' →
          b'' = b' := by
      cases hb : (ops.foldl Reference.process (Reference.initial bunches)).bank op with
      | none =>
          have hnext : ∀ b : BankId, b ≠ b + 1 := by decide
          exact ⟨b + 1, hnext b, by simp⟩
      | some b' =>
          refine ⟨b', ?_, by simp [eq_comm]⟩
          rintro rfl
          exact hbank hb
    obtain ⟨b', hne, hb'⟩ := hother
    have hstep : Follows setup b'
        (ops.foldl (BunchContext.process setup) (BunchContext.initial bunches))
        (ops.foldl Reference.process (Reference.initial bunches)) _ _ := follows_process op hb'
    exact hstep.frame htracks axis s.port b hne bunch

end whole

/-! ### Fixed writes -/

/-- The circuit as it comes up. -/
def emptyStore : BunchStore where
  configRegister := 0
  writeWord0 := 0
  writeWord1 := 0
  writeWord2 := 0
  writePhase := .word0
  writeBunch := 0
  writeStrobe := false
  writeAddr := 0
  memory _ := 0

def fourSetup : Setup := ⟨1, false, -1, 21⟩

/-- The second source of one bank is set up and the bank is copied. -/
def fourWrites : List (BunchWriteOp 4) :=
  [.gains 1 .nco1 fun i => .finite (1 / 2 ^ (i.val + 1)), .outWf 1 fun i => BitVec.ofNat 8 (4 * i.val),
    .firWf 1 fun i => BitVec.ofNat 8 i.val, .copyFrom 1, .copyTo 2, .copyBank]

theorem bunch_configuration_four :
    (toBunchConfigT (((((fourWrites.foldl (BunchContext.process fourSetup)
      (BunchContext.initial 4)).writes 1).map some ++ [none]).foldl BunchStore.clock
        emptyStore).memory (BitVec.ofFin 2 ++ BitVec.ofNat 11 2))).nco1Gain.toInt = 2 ^ 12 := by
  have hclocks : (((fourWrites.foldl (BunchContext.process fourSetup)
      (BunchContext.initial 4)).writes 1).map some).reduceOption =
      (fourWrites.foldl (BunchContext.process fourSetup) (BunchContext.initial 4)).writes 1 :=
    Bus.reduceOption_map_some _
  have hdecodes := (bunch_configuration (by decide) fourSetup fourWrites (Or.inl rfl) emptyStore
    hclocks).1 2 (by decide) 2 1 3 (by decide) (by decide)
  exact hdecodes.nco1Gain.trans (by decide +kernel)

/-! ### Too many bunches -/

theorem storeEntries_append (bank : BitVec 2) (bunch : BitVec 11) (entries rest : List BunchBits)
    (memory : BunchAddress → BunchBits) :
    storeEntries bank bunch (entries ++ rest) memory =
      storeEntries bank (bunch + BitVec.ofNat 11 entries.length) rest
        (storeEntries bank bunch entries memory) := by
  induction entries generalizing bunch memory with
  | nil => simp [storeEntries]
  | cons entry entries ih =>
      have hlength : bunch + 1 + BitVec.ofNat 11 entries.length =
          bunch + BitVec.ofNat 11 (entries.length + 1) := by
        rw [BitVec.ofNat_add, BitVec.add_assoc, BitVec.add_comm 1]
        rfl
      rw [List.cons_append, storeEntries, ih, hlength]
      rfl

def plainSetup : Setup := ⟨0, false, 0, 0⟩

/-- The FIR of the last bunch is enabled. -/
def lastWrites (last : ℕ) : List (BunchWriteOp (last + 1)) :=
  [.enables 0 .fir fun i => if i.val = last then 1 else 0]

/-- The last of more bunches than there are addresses. -/
theorem last_decoded {last : ℕ} (hwraps : BitVec.ofNat 11 last = 0) :
    (toBunchConfigT ((((((lastWrites last).foldl (BunchContext.process plainSetup)
      (BunchContext.initial (last + 1))).writes 0).map some ++ [none]).foldl BunchStore.clock
        emptyStore).memory (BitVec.ofFin 0 ++ (0 : BitVec 11)))).firEnable = true := by
  have hlog : ((lastWrites last).foldl (BunchContext.process plainSetup)
      (BunchContext.initial (last + 1))).writes 0 = hwWriteBunchConfig 0
        (((lastWrites last).foldl (BunchContext.process plainSetup)
          (BunchContext.initial (last + 1))).banks 0).config := rfl
  have henable : (((lastWrites last).foldl (BunchContext.process plainSetup)
      (BunchContext.initial (last + 1))).banks 0).config.firEnable (Fin.last last) = true := by
    have hplace : ((Fin.last last).val : ℤ) =
        ((Fin.last last).val + plainSetup.gainOffset) % (last + 1 : ℕ) := by
      show (last : ℤ) = (last + 0) % _
      rw [add_zero, Int.emod_eq_of_lt (by omega) (by omega)]
    show Waveform.rotate (fun i : Fin (last + 1) =>
      (if i.val = last then (1 : BitVec 8) else 0) != 0) plainSetup.gainOffset (Fin.last last) = true
    rw [Waveform.rotate_eq _ hplace, Fin.val_last, if_pos rfl]
    rfl
  rw [BunchStore.memory_foldl, Bus.reduceOption_map_some, hlog, step_hwWriteBunchConfig]
  generalize (((lastWrites last).foldl (BunchContext.process plainSetup)
    (BunchContext.initial (last + 1))).banks 0).config = config at henable ⊢
  have hrange : (List.finRange (last + 1)).map config.entry =
      (List.finRange last).map (fun i => config.entry i.castSucc) ++
        [config.entry (Fin.last last)] := by
    rw [List.finRange_succ_last, List.map_append, List.map_map]
    rfl
  have hfirst : (0 : BitVec 11) + 0 = 0 := by decide
  rw [hrange, storeEntries_append, List.length_map, List.length_finRange, hwraps,
    hfirst, storeEntries, storeEntries, Function.update_self, toBunchConfigT_entry]
  exact henable

/-- The settings of the bunches are as they were written. -/
theorem last_written {last : ℕ} (hpos : 0 < last) :
    ((lastWrites last).foldl Reference.process (Reference.initial (last + 1))).written 0 = true ∧
    (((lastWrites last).foldl Reference.process (Reference.initial (last + 1))).settings 0).enable
      .fir 0 = false := by
  refine ⟨rfl, ?_⟩
  show ((if (0 : Fin (last + 1)).val = last then (1 : BitVec 8) else 0) != 0) = false
  rw [if_neg (by rw [Fin.val_zero]; omega)]
  rfl

/-- With one bunch more than there are addresses the first bunch gets the enable of the last. -/
theorem bunch_configuration_wraps : ∃ last : ℕ, last = 2 ^ 11 ∧
    ((lastWrites last).foldl Reference.process (Reference.initial (last + 1))).written 0 = true ∧
    (((lastWrites last).foldl Reference.process (Reference.initial (last + 1))).settings 0).enable
      .fir 0 = false ∧
    (toBunchConfigT ((((((lastWrites last).foldl (BunchContext.process plainSetup)
      (BunchContext.initial (last + 1))).writes 0).map some ++ [none]).foldl BunchStore.clock
        emptyStore).memory (BitVec.ofFin 0 ++ (0 : BitVec 11)))).firEnable = true := by
  obtain ⟨hwritten, henable⟩ := @last_written (2 ^ 11) (by decide)
  exact ⟨2 ^ 11, rfl, hwritten, henable, last_decoded (by decide)⟩

end Mbf.Bunch
