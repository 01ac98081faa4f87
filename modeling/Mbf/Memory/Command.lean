import Mbf.Command.Parse

/-! # The memory readout command

The syntax of the `M` command of `socket_command.c`:

    [R] M count [F] [O offset] [C channel] [B bunch | [D decimation] [T tune]] [L [W timeout]]

`parseMemoryArgs` receives what follows the `M`.  `strtod` of the C library is a parameter. -/

namespace Mbf.Memory

open Parsing Command

/-- `MEM_CHANNEL_COUNT`. -/
def memChannelCount : ℤ := 2

/-- An error: its message and, for a parse error, the offset in the command it was found at. -/
structure Error where
  message : String
  offset : Option ℕ
deriving DecidableEq, Repr

/-- `struct lock_parse`. -/
structure LockParse where
  lock : Bool
  timeout : ℕ
deriving DecidableEq, Repr

/-- `IF(read_char(command, ch), …)`: a field that keeps its default unless its letter is there. -/
def field {α : Type} (ch : Char) (default : α) (parse : Parser α) : Parser α := do
  if ← readChar ch then parse else pure default

theorem field_returns {α : Type} {ch : Char} {default : α} {parse : Parser α} {P : α → Prop}
    (hdefault : P default) (hparse : Returns parse P) : Returns (field ch default parse) P :=
  Returns.bind Returns.trivial fun _ _ =>
    Returns.ite (fun _ => hparse) fun _ => Returns.pure hdefault

/-- `parse_lock`. -/
def parseLock : Parser LockParse :=
  field 'L' ⟨false, 0⟩ do
    let timeout ← field 'W' 0 parseUint
    return ⟨true, timeout⟩

/-- `enum memory_data_format`. -/
inductive DataFormat where
  | int16
  | float32
  | complex64
deriving DecidableEq, Repr

/-- The number of a format in the header of a reply. -/
def DataFormat.toNat : DataFormat → ℕ
  | .int16 => 0
  | .float32 => 1
  | .complex64 => 2

/-- `struct memory_args`. -/
structure MemoryArgs where
  count : ℕ
  framed : Bool := false
  offset : ℤ := 0
  channel : ℤ := -1
  bunch : ℤ := -1
  decimation : ℕ := 1
  tune : Float := 0
  locking : LockParse := ⟨false, 0⟩
  format : DataFormat := .int16

/-- `parse_double`. -/
def parseDouble (strtod : List Char → Float × List Char × Bool) : Parser Float := parseNum strtod

/-- The value of `C`. -/
def parseChannel : Parser ℤ := do
  let channel ← parseInt
  test (0 ≤ channel ∧ channel < memChannelCount) "Invalid channel number"
  return channel

/-- The value of `B`. -/
def parseBunch (bunchesPerTurn : ℕ) : Parser ℤ := do
  let bunch ← parseInt
  test (0 ≤ bunch ∧ bunch < bunchesPerTurn) "Invalid bunch number"
  return bunch

/-- The value of `D`. -/
def parseDecimation : Parser ℕ := do
  let decimation ← parseUint
  test (0 < decimation) "Invalid decimation"
  return decimation

/-- `[B bunch | [D decimation] [T tune]]`. -/
def parseSelection (strtod : List Char → Float × List Char × Bool) (bunchesPerTurn : ℕ)
    (args : MemoryArgs) : Parser MemoryArgs := do
  if ← readChar 'B' then (do
    let bunch ← parseBunch bunchesPerTurn
    return { args with bunch })
  else (do
    let args ← field 'D' args do
      let decimation ← parseDecimation
      return { args with format := .float32, decimation }
    field 'T' args do
      let tune ← parseDouble strtod
      return { args with format := .complex64, tune })

/-- The chain of parsers in `parse_memory_args`. -/
def memoryArgs (strtod : List Char → Float × List Char × Bool) (bunchesPerTurn : ℕ) :
    Parser MemoryArgs := do
  let count ← parseUint
  let framed ← readChar 'F'
  let offset ← field 'O' 0 parseInt
  let channel ← field 'C' (-1) parseChannel
  let args ← parseSelection strtod bunchesPerTurn { count, framed, offset, channel }
  let locking ← parseLock
  parseEos
  return { args with locking }

/-- `parse_memory_args`, with `fixup_parse_error`: the offset takes account of the leading
command character and of any preceding `R`. -/
def parseMemoryArgs (strtod : List Char → Float × List Char × Bool) (bunchesPerTurn : ℕ)
    (rawMode : Bool) (command : List Char) : Except Error MemoryArgs :=
  match memoryArgs strtod bunchesPerTurn command with
  | .ok args _ => .ok args
  | .error message rest =>
      .error ⟨message, some (command.length - rest.length + 1 + rawMode.toNat)⟩

/-! ### What a valid command asks for -/

/-- The ranges of the fields of an accepted command. -/
structure MemoryArgs.Valid (bunchesPerTurn : ℕ) (args : MemoryArgs) : Prop where
  channel : -1 ≤ args.channel ∧ args.channel < memChannelCount
  bunch : -1 ≤ args.bunch ∧ args.bunch < bunchesPerTurn
  decimation : 0 < args.decimation
  undecimated : args.format = .int16 → args.decimation = 1

section
variable {strtod : List Char → Float × List Char × Bool} {bunchesPerTurn : ℕ}

theorem parseChannel_spec :
    Returns parseChannel fun channel => -1 ≤ channel ∧ channel < memChannelCount :=
  Returns.bind Returns.trivial fun _ _ => Returns.bind Returns.test fun _ h =>
    Returns.pure ⟨by omega, h.2⟩

theorem parseBunch_spec :
    Returns (parseBunch bunchesPerTurn) fun bunch => -1 ≤ bunch ∧ bunch < bunchesPerTurn :=
  Returns.bind Returns.trivial fun _ _ => Returns.bind Returns.test fun _ h =>
    Returns.pure ⟨by omega, h.2⟩

theorem parseDecimation_spec : Returns parseDecimation fun decimation => 0 < decimation :=
  Returns.bind Returns.trivial fun _ _ => Returns.bind Returns.test fun _ h => Returns.pure h

/-- The bunch is checked, and only `D` sets the decimation. -/
theorem parseSelection_spec {args : MemoryArgs} (h : args.Valid bunchesPerTurn) :
    Returns (parseSelection strtod bunchesPerTurn args) (MemoryArgs.Valid bunchesPerTurn) := by
  refine Returns.bind Returns.trivial fun _ _ => Returns.ite (fun _ => ?_) fun _ => ?_
  · refine Returns.bind parseBunch_spec fun bunch hbunch => Returns.pure ?_
    exact { h with bunch := hbunch }
  · have hdecimated : Returns (field 'D' args do
          let decimation ← parseDecimation
          return { args with format := .float32, decimation })
        (MemoryArgs.Valid bunchesPerTurn) := by
      refine field_returns h (Returns.bind parseDecimation_spec fun d hd => Returns.pure ?_)
      exact { h with decimation := hd, undecimated := fun hf => by cases hf }
    refine Returns.bind hdecimated fun args' h' => ?_
    refine field_returns h' (Returns.bind Returns.trivial fun tune _ => Returns.pure ?_)
    exact { h' with undecimated := fun hf => by cases hf }

theorem memoryArgs_spec :
    Returns (memoryArgs strtod bunchesPerTurn) (MemoryArgs.Valid bunchesPerTurn) := by
  refine Returns.bind Returns.trivial fun count _ => ?_
  refine Returns.bind Returns.trivial fun framed _ => ?_
  refine Returns.bind Returns.trivial fun offset _ => ?_
  refine Returns.bind (field_returns (by decide) parseChannel_spec) fun channel hchannel => ?_
  have hargs : MemoryArgs.Valid bunchesPerTurn { count, framed, offset, channel } :=
    ⟨hchannel, ⟨le_rfl, show (-1 : ℤ) < bunchesPerTurn by omega⟩, Nat.one_pos, fun _ => rfl⟩
  refine Returns.bind (parseSelection_spec hargs) fun args h => ?_
  refine Returns.bind Returns.trivial fun locking _ => ?_
  exact Returns.bind Returns.trivial fun _ _ => Returns.pure { h with }

/-- `B` cannot be combined with `D` or `T`. -/
theorem memoryArgs_whole : Returns (memoryArgs strtod bunchesPerTurn) fun args =>
    args.format ≠ .int16 → args.bunch = -1 := by
  refine Returns.bind Returns.trivial fun count _ => ?_
  refine Returns.bind Returns.trivial fun framed _ => ?_
  refine Returns.bind Returns.trivial fun offset _ => ?_
  refine Returns.bind Returns.trivial fun channel _ => ?_
  have hselection : Returns
      (parseSelection strtod bunchesPerTurn { count, framed, offset, channel })
      fun args => args.format ≠ .int16 → args.bunch = -1 := by
    refine Returns.bind Returns.trivial fun _ _ => Returns.ite (fun _ => ?_) fun _ => ?_
    · exact Returns.bind Returns.trivial fun _ _ => Returns.pure fun hformat => absurd rfl hformat
    · have hdecimated : Returns (field 'D' { count, framed, offset, channel } do
            let decimation ← parseDecimation
            return { count, framed, offset, channel, format := .float32, decimation })
          fun args : MemoryArgs => args.bunch = -1 :=
        field_returns rfl (Returns.bind Returns.trivial fun _ _ => Returns.pure rfl)
      refine Returns.bind hdecimated fun args' hbunch => field_returns (fun _ => hbunch) ?_
      exact Returns.bind Returns.trivial fun _ _ => Returns.pure fun _ => hbunch
  refine Returns.bind hselection fun args h => Returns.bind Returns.trivial fun locking _ => ?_
  exact Returns.bind Returns.trivial fun _ _ => Returns.pure h

/-- What holds of all arguments that are parsed holds of those of an accepted command. -/
theorem parseMemoryArgs_returns {P : MemoryArgs → Prop}
    (hP : Returns (memoryArgs strtod bunchesPerTurn) P) {rawMode : Bool} {command : List Char}
    {args : MemoryArgs}
    (h : parseMemoryArgs strtod bunchesPerTurn rawMode command = .ok args) : P args := by
  unfold parseMemoryArgs at h
  split at h
  · next a rest ha =>
      cases h
      exact hP command args rest ha
  · cases h

/-- An accepted command asks for a valid readout. -/
theorem parseMemoryArgs_valid {rawMode : Bool} {command : List Char} {args : MemoryArgs}
    (h : parseMemoryArgs strtod bunchesPerTurn rawMode command = .ok args) :
    args.Valid bunchesPerTurn :=
  parseMemoryArgs_returns memoryArgs_spec h

end

end Mbf.Memory
