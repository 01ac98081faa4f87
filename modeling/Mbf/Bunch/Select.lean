import Mathlib.Data.Rat.Floor
import Mbf.Bunch.Store

/-! # Bunch selection control

The records of an axis in `bunch_select.c`, bank by bank, with what the processing of each of them
does.  All of them come down to a write to one of three waveforms, the enables or the gains of a
source or the FIR selections; each such write updates the configuration of the bank, rotated by the
delay of the hardware, and writes all of it to the hardware.

A waveform that is written has as many elements as there are bunches.  Where the processing of one
record writes to another, the other is processed at once. -/

namespace Mbf.Bunch

/-! ### Numbers -/

/-- A `float`, without those that are not numbers: `lroundf` says nothing of these. -/
inductive FloatValue where
  | finite (x : ℚ)
  | infinite (negative : Bool)
deriving DecidableEq

/-- `lroundf`: halves are rounded away from zero. -/
def lroundf (x : ℚ) : ℤ := if 0 ≤ x then ⌊x + 1 / 2⌋ else ⌈x - 1 / 2⌉

/-- `max_val` of `float_array_to_int` for the 18 bits of a gain, 14 of them after the point. -/
def maxGain : ℚ := 8 - 1 / 2 ^ 21 - 1 / 2 ^ 14

/-- `float_array_to_int` for a gain. -/
def floatToGain : FloatValue → ℤ
  | .finite x =>
      if maxGain < x then lroundf (maxGain * 2 ^ 14)
      else if x < -8 then lroundf (-8 * 2 ^ 14)
      else lroundf (x * 2 ^ 14)
  | .infinite false => lroundf (maxGain * 2 ^ 14)
  | .infinite true => lroundf (-8 * 2 ^ 14)

/-- The value that `float_array_to_int` leaves for a gain. -/
def gainToFloat (gain : ℤ) : FloatValue := .finite (gain / 2 ^ 14)

/-! ### State -/

/-- The sources of the output. -/
inductive Source where
  | fir | nco0 | nco1 | nco2 | nco3
deriving DecidableEq

section state
variable (bunches : ℕ)

/-- A value for each bunch. -/
abbrev Waveform (α : Type) := Fin bunches → α

/-- `struct bunch_source`, and the values of its records. -/
structure BunchSource where
  enablesWf : Waveform bunches Bool
  scaledGains : Waveform bunches ℤ
  gainSelect : FloatValue
  /-- `ENABLE` -/
  enables : Waveform bunches (BitVec 8)
  /-- `GAIN` -/
  gains : Waveform bunches FloatValue

/-- `struct bunch_bank`, and the value of `FIRWF`. -/
structure BunchBank where
  config : BunchConfig bunches
  firwf : Waveform bunches (BitVec 8)
  firSelect : BitVec 16
  /-- The selection of the bunch set. -/
  selection : Waveform bunches Bool
  sources : Source → BunchSource bunches

/-- `struct bunch_context`, and the writes to the registers of each axis. -/
structure BunchContext where
  copyFrom : BankId
  copyTo : BankId
  banks : BankId → BunchBank bunches
  writes : Fin 2 → List BunchWrite

/-- What is configured when the program starts. -/
structure Setup where
  axis : Fin 2
  lmbfMode : Bool
  /-- `BUNCH_GAIN_OFFSET` and `BUNCH_FIR_OFFSET` as they are configured. -/
  gainOffset : ℤ
  firOffset : ℤ

end state

/-- The context after `initialise_bunch_select`. -/
def BunchContext.initial (bunches : ℕ) : BunchContext bunches where
  copyFrom := 0
  copyTo := 0
  banks _ := {
    config := ⟨fun _ => 0, fun _ => false, fun _ => 0, fun _ => 0, fun _ => 0, fun _ => 0, fun _ => 0⟩
    firwf := fun _ => 0
    firSelect := 0
    selection := fun _ => false
    sources := fun _ => ⟨fun _ => false, fun _ => 0, gainToFloat (2 ^ 14), fun _ => 0,
      fun _ => gainToFloat 0⟩ }
  writes _ := []

/-! ### Offsets -/

/-- The offset that `convert_field` makes of an `int`, as a number. -/
def convertField (bunches : ℕ) (value : ℤ) : ℕ :=
  if value < 0 then (bunches - 1 - (-value - 1).tmod bunches : ℤ).toNat
  else (value.tmod bunches).toNat

/-- The second index of `FOR_BUNCHES_OFFSET` where the first one is `i`. -/
def offsetIndex (bunches offset : ℕ) : ℕ → ℕ
  | 0 => offset
  | i + 1 =>
      let j := offsetIndex bunches offset i
      if j + 1 < bunches then j + 1 else 0

section operations
variable {bunches : ℕ} (setup : Setup)

/-- A waveform at the index of `FOR_BUNCHES_OFFSET` for `i`, which is in range if the offset is. -/
def Waveform.rotate {α : Type} (wf : Waveform bunches α) (offset : ℤ) (i : Fin bunches) : α :=
  let j := offsetIndex bunches (convertField bunches offset) i
  if h : j < bunches then wf ⟨j, h⟩ else wf i

namespace BunchContext

def setBank (b : BankId) (bank : BunchBank bunches) (ctx : BunchContext bunches) :
    BunchContext bunches :=
  { ctx with banks := Function.update ctx.banks b bank }

/-- `write_bunch_config`: in LMBF mode both axes are written. -/
def writeBunchConfig (b : BankId) (ctx : BunchContext bunches) : BunchContext bunches :=
  { ctx with
    writes := fun axis =>
      if axis = setup.axis ∨ setup.lmbfMode = true ∧ axis = 1 then
        ctx.writes axis ++ hwWriteBunchConfig b (ctx.banks b).config
      else ctx.writes axis }

/-! ### Sources -/

/-- The hardware configuration of a source. -/
def updateConfig (source : Source) (state : BunchSource bunches) (config : BunchConfig bunches) :
    BunchConfig bunches :=
  let gains : Waveform bunches ℤ := fun i =>
    if source = .fir ∨ Waveform.rotate state.enablesWf setup.gainOffset i = true then
      Waveform.rotate state.scaledGains setup.gainOffset i
    else 0
  match source with
  | .fir =>
      { config with firGains := gains, firEnable := Waveform.rotate state.enablesWf setup.gainOffset }
  | .nco0 => { config with nco0Gains := gains }
  | .nco1 => { config with nco1Gains := gains }
  | .nco2 => { config with nco2Gains := gains }
  | .nco3 => { config with nco3Gains := gains }

/-- `update_source_gains_enables`, with the new state of the source. -/
def updateSourceGainsEnables (b : BankId) (source : Source) (state : BunchSource bunches)
    (ctx : BunchContext bunches) : BunchContext bunches :=
  let bank := ctx.banks b
  writeBunchConfig setup b (ctx.setBank b
    { bank with
      config := updateConfig setup source state bank.config
      sources := Function.update bank.sources source state })

/-- `write_enables`. -/
def writeEnables (b : BankId) (source : Source) (wf : Waveform bunches (BitVec 8))
    (ctx : BunchContext bunches) : BunchContext bunches :=
  let state := (ctx.banks b).sources source
  updateSourceGainsEnables setup b source
    { state with
      enablesWf := fun i => wf i != 0
      enables := fun i => if wf i != 0 then 1 else 0 } ctx

/-- `write_gains`. -/
def writeGains (b : BankId) (source : Source) (wf : Waveform bunches FloatValue)
    (ctx : BunchContext bunches) : BunchContext bunches :=
  let state := (ctx.banks b).sources source
  updateSourceGainsEnables setup b source
    { state with
      scaledGains := fun i => floatToGain (wf i)
      gains := fun i => gainToFloat (floatToGain (wf i)) } ctx

/-- `write_fir_wf`. -/
def writeFirWf (b : BankId) (wf : Waveform bunches (BitVec 8)) (ctx : BunchContext bunches) :
    BunchContext bunches :=
  let bank := ctx.banks b
  let firwf : Waveform bunches (BitVec 8) := fun i => wf i &&& 3
  writeBunchConfig setup b (ctx.setBank b
    { bank with
      firwf := firwf
      config := { bank.config with firSelect := Waveform.rotate firwf setup.firOffset } })

/-- A waveform with a value where the bunch set selects it, `update_record_with_bunch_set`. -/
def withBunchSet {α : Type} (b : BankId) (wf : Waveform bunches α) (value : α)
    (ctx : BunchContext bunches) : Waveform bunches α :=
  fun i => if (ctx.banks b).selection i then value else wf i

/-- `set_enables` and `reset_enables`. -/
def setEnables (b : BankId) (source : Source) (value : Bool) (ctx : BunchContext bunches) :
    BunchContext bunches :=
  writeEnables setup b source (ctx.withBunchSet b ((ctx.banks b).sources source).enables
    (if value then 1 else 0)) ctx

/-- `set_gains`. -/
def setGains (b : BankId) (source : Source) (ctx : BunchContext bunches) : BunchContext bunches :=
  writeGains setup b source (ctx.withBunchSet b ((ctx.banks b).sources source).gains
    ((ctx.banks b).sources source).gainSelect) ctx

/-- `update_fir_waveform`. -/
def updateFirWaveform (b : BankId) (ctx : BunchContext bunches) : BunchContext bunches :=
  writeFirWf setup b (ctx.withBunchSet b (ctx.banks b).firwf
    ((ctx.banks b).firSelect.setWidth 8)) ctx

/-! ### Banks -/

/-- `reset_all_source_gains`. -/
def resetAllSourceGains (b : BankId) (ctx : BunchContext bunches) : BunchContext bunches :=
  [Source.fir, .nco0, .nco1, .nco2, .nco3].foldl
    (fun ctx source => writeGains setup b source (fun _ => .finite 1) ctx) ctx

/-- `write_source_enables`. -/
def writeSourceEnables (b : BankId) (source : Source) (outWf : Waveform bunches (BitVec 8))
    (shift : ℕ) (ctx : BunchContext bunches) : BunchContext bunches :=
  writeEnables setup b source (fun i => (outWf i).sshiftRight shift &&& 1) ctx

/-- `write_out_wf`. -/
def writeOutWf (b : BankId) (outWf : Waveform bunches (BitVec 8)) (ctx : BunchContext bunches) :
    BunchContext bunches :=
  let ctx := writeSourceEnables setup b .fir outWf 0 ctx
  let ctx := writeSourceEnables setup b .nco0 outWf 1 ctx
  let ctx := writeSourceEnables setup b .nco1 outWf 2 ctx
  let ctx := writeSourceEnables setup b .nco2 outWf 3 ctx
  writeSourceEnables setup b .nco3 outWf 4 ctx

/-- `COPY_SOURCE`. -/
def copySource (fromBank toBank : BankId) (ctx : BunchContext bunches) (source : Source) :
    BunchContext bunches :=
  let ctx := writeEnables setup toBank source ((ctx.banks fromBank).sources source).enables ctx
  writeGains setup toBank source ((ctx.banks fromBank).sources source).gains ctx

/-- `copy_bank_from_to`. -/
def copyBankFromTo (ctx : BunchContext bunches) : BunchContext bunches :=
  if ctx.copyFrom ≠ ctx.copyTo then
    let copied := writeFirWf setup ctx.copyTo (ctx.banks ctx.copyFrom).firwf ctx
    [Source.fir, .nco0, .nco1, .nco2, .nco3].foldl
      (copySource setup ctx.copyFrom ctx.copyTo) copied
  else ctx

end BunchContext

/-! ### Records -/

/-- A write to one of the records. -/
inductive BunchWriteOp (bunches : ℕ) where
  | enables (b : BankId) (source : Source) (wf : Waveform bunches (BitVec 8))
  | gains (b : BankId) (source : Source) (wf : Waveform bunches FloatValue)
  /-- `SET_ENABLE_ALL` and `SET_DISABLE_ALL` -/
  | setEnablesAll (b : BankId) (source : Source) (value : Bool)
  /-- `SET_ENABLE` and `SET_DISABLE` -/
  | setEnables (b : BankId) (source : Source) (value : Bool)
  | gainSelect (b : BankId) (source : Source) (value : FloatValue)
  | setGains (b : BankId) (source : Source)
  | firWf (b : BankId) (wf : Waveform bunches (BitVec 8))
  | firSelect (b : BankId) (value : BitVec 16)
  | setFirWf (b : BankId)
  | resetGains (b : BankId)
  | outWf (b : BankId) (wf : Waveform bunches (BitVec 8))
  /-- `BUNCH_SELECT`, if it is accepted -/
  | bunchSelect (b : BankId) (selection : Waveform bunches Bool)
  | copyFrom (b : BankId)
  | copyTo (b : BankId)
  | copyBank

namespace BunchContext

/-- The processing of a record. -/
def process (ctx : BunchContext bunches) : BunchWriteOp bunches → BunchContext bunches
  | .enables b source wf => writeEnables setup b source wf ctx
  | .gains b source wf => writeGains setup b source wf ctx
  | .setEnablesAll b source value =>
      writeEnables setup b source (fun _ => if value then 1 else 0) ctx
  | .setEnables b source value => setEnables setup b source value ctx
  | .gainSelect b source value =>
      let bank := ctx.banks b
      let state := bank.sources source
      ctx.setBank b { bank with
        sources := Function.update bank.sources source { state with gainSelect := value } }
  | .setGains b source => setGains setup b source ctx
  | .firWf b wf => writeFirWf setup b wf ctx
  | .firSelect b value =>
      let bank := ctx.banks b
      ctx.setBank b { bank with firSelect := value }
  | .setFirWf b => updateFirWaveform setup b ctx
  | .resetGains b => resetAllSourceGains setup b ctx
  | .outWf b wf => writeOutWf setup b wf ctx
  | .bunchSelect b selection =>
      let bank := ctx.banks b
      ctx.setBank b { bank with selection := selection }
  | .copyFrom b => { ctx with copyFrom := b }
  | .copyTo b => { ctx with copyTo := b }
  | .copyBank => copyBankFromTo setup ctx

end BunchContext

end operations

end Mbf.Bunch
