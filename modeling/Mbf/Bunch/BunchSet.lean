import Mbf.Config.Line

/-! # Bunch selection

`bunch_set.c`: the text written to `BUNCH_SELECT` is parsed into a fresh array, which becomes the
selection if the parse succeeds.

The loops get `fuel`, and give `none` when they run out of it.  The counter of `set_range` is an
`unsigned int`.  A write to an element that the array does not have is noted (`outside`). -/

namespace Mbf.Bunch

open Parsing Mbf.Command
open Mbf.Config (IsSpace decimal)

/-- An array of flags. -/
structure Flags where
  cells : ℕ → Bool
  /-- An element that the array does not have has been written. -/
  outside : Bool

/-- `selection[i] = true`. -/
def Flags.select (bunches i : ℕ) (flags : Flags) : Flags where
  cells := Function.update flags.cells i true
  outside := flags.outside || !decide (i < bunches)

/-! ### Parsing -/

/-- `parse_bunch_num`. -/
def parseBunchNum (bunches : ℕ) : Parser ℕ := do
  let bunch ← parseUint
  test (bunch < bunches) "Bunch number out of range"
  skipWhitespace
  return bunch

/-- An item of the list. -/
inductive Item where
  | bunch (b : ℕ)
  | range (start skip stop : ℕ)
deriving DecidableEq, Repr

/-- The body of the loop of `parse_bunch_select`, up to what it does to the array. -/
def parseItem (bunches : ℕ) : Parser Item := do
  let bunch ← parseBunchNum bunches
  if ← readChar ':' then
    let bunch2 ← parseBunchNum bunches
    if ← readChar ':' then
      -- Must be start:skip:end.
      let bunch3 ← parseBunchNum bunches
      return .range bunch bunch2 bunch3
    else return .range bunch 1 bunch2
  else return .bunch bunch

/-- Nothing may follow the full range. -/
def parseEnd : Parser Unit := do
  skipWhitespace
  parseEos

/-! ### Selecting -/

/-- The loop of `set_range`. -/
def rangeLoop (bunches skip stop : ℕ) : ℕ → ℕ → Flags → Option Flags
  | 0, _, _ => none
  | fuel + 1, i, flags =>
      if i ≤ stop then
        rangeLoop bunches skip stop fuel ((i + skip) % 2 ^ 32) (flags.select bunches i)
      else some flags

/-- `set_range`. -/
def setRange (bunches fuel start skip stop : ℕ) (flags : Flags) : Option (Except String Flags) :=
  if ¬ start ≤ stop then some (.error "Empty range")
  else if ¬ 0 < skip then some (.error "Invalid skip interval")
  else (rangeLoop bunches skip stop fuel start flags).map .ok

def Item.apply (bunches fuel : ℕ) (flags : Flags) : Item → Option (Except String Flags)
  | .bunch b => some (.ok (flags.select bunches b))
  | .range start skip stop => setRange bunches fuel start skip stop flags

/-- How a parse ends. -/
structure Parsed where
  error : Option String
  rest : List Char
  flags : Flags

/-- The loop of `parse_bunch_select`; `rangeFuel` is for the loops within. -/
def itemLoop (bunches rangeFuel : ℕ) : ℕ → List Char → Flags → Option Parsed
  | 0, _, _ => none
  | fuel + 1, text, flags =>
      match parseItem bunches text with
      | .error e rest => some ⟨some e, rest, flags⟩
      | .ok item rest =>
          match item.apply bunches rangeFuel flags with
          | none => none
          | some (.error e) => some ⟨some e, rest, flags⟩
          | some (.ok flags) =>
              if rest = [] then some ⟨none, rest, flags⟩
              else itemLoop bunches rangeFuel fuel rest flags

/-- `hardware_config.bunches - 1`, an `unsigned int`. -/
def lastBunch (bunches : ℕ) : ℕ := (bunches + (2 ^ 32 - 1)) % 2 ^ 32

/-- How the parse of the full range ends, after `set_range`. -/
def allRange (rest : List Char) (flags : Flags) : Option (Except String Flags) → Option Parsed
  | none => none
  | some (.error e) => some ⟨some e, rest, flags⟩
  | some (.ok flags) => some ⟨none, rest, flags⟩

/-- `parse_bunch_select` after a colon: the full range, on an array that has not been initialised. -/
def parseAll (bunches fuel : ℕ) (text : List Char) (flags : Flags) : Option Parsed :=
  match parseEnd text with
  | .error e rest => some ⟨some e, rest, flags⟩
  | .ok _ rest => allRange rest flags (setRange bunches fuel 0 1 (lastBunch bunches) flags)

/-- `parse_bunch_select`. -/
def parseBunchSelect (bunches fuel : ℕ) (text : List Char) (flags : Flags) : Option Parsed :=
  match text.dropWhile isSpace with
  | ':' :: text => parseAll bunches fuel text flags
  | text => itemLoop bunches fuel fuel text { flags with cells := fun _ => false }

/-- What `write_bunch_select` leaves behind, and whether it accepts the write. -/
structure Written where
  accepted : Bool
  selection : ℕ → Bool
  /-- `SELECT_STATUS`, and whether it has an alarm. -/
  status : String
  alarm : Bool
  outside : Bool

/-- The end of `write_bunch_select`: `selection` is the stored array. -/
def Parsed.written (bunches : ℕ) (text : List Char) (selection : ℕ → Bool) (parsed : Parsed) :
    Written :=
  match parsed.error with
  | none =>
      { accepted := true
        selection := fun i => if i < bunches then parsed.flags.cells i else selection i
        status := "Ok"
        alarm := false
        outside := parsed.flags.outside }
  | some error =>
      { accepted := false
        selection := selection
        status := s!"{error} @{text.length - parsed.rest.length + 1}"
        alarm := true
        outside := parsed.flags.outside }

/-- `write_bunch_select`: `garbage` is what is in the fresh array. -/
def writeBunchSelect (bunches fuel : ℕ) (text : List Char) (selection garbage : ℕ → Bool) :
    Option Written :=
  (parseBunchSelect bunches fuel text ⟨garbage, false⟩).map (Parsed.written bunches text selection)

/-! ### The documented grammar -/

section grammar
variable (number : List Char → ℕ → Prop)

/-- A number, with optional white space after it. -/
def Padded (text : List Char) (b : ℕ) : Prop :=
  ∃ t w, text = t ++ w ∧ number t b ∧ IsSpace w

/-- `bunch`, `start:end` or `start:skip:end`, and the bunches it denotes. -/
inductive Denotes : List Char → (ℕ → Prop) → Prop
  | bunch {t b} (h : Padded number t b) : Denotes t (· = b)
  | range {t w t' a b} (h : Padded number t a) (hw : IsSpace w) (h' : Padded number t' b)
      (hle : a ≤ b) : Denotes (t ++ ':' :: (w ++ t')) fun i => a ≤ i ∧ i ≤ b
  | skip {t w t' w' t'' a k b} (h : Padded number t a) (hw : IsSpace w) (h' : Padded number t' k)
      (hw' : IsSpace w') (h'' : Padded number t'' b) (hle : a ≤ b) (hpos : 0 < k) :
      Denotes (t ++ ':' :: (w ++ (t' ++ ':' :: (w' ++ t'')))) fun i => ∃ j, i = a + j * k ∧ i ≤ b

/-- A list of items; `separated` says when one item may follow another. -/
inductive Lists (separated : List Char → List Char → Prop) : List Char → (ℕ → Prop) → Prop
  | last {t selected} (h : Denotes number t selected) : Lists separated t selected
  | more {t t' selected selected'} (h : Denotes number t selected) (hsep : separated t t')
      (h' : Lists separated t' selected') : Lists separated (t ++ t') fun i => selected i ∨ selected' i

end grammar

/-- A plain unsigned decimal numeral below the number of bunches. -/
structure Plain (bunches : ℕ) (t : List Char) (b : ℕ) : Prop where
  ne : t ≠ []
  digits : ∀ c ∈ t, c.isDigit
  value : b = decimal t
  lt : b < bunches

/-- There is white space between the items. -/
def Spaced (t _t' : List Char) : Prop := ∃ c ∈ t.getLast?, isSpace c

/-- The documented grammar, and the bunches that a text selects. -/
inductive Selects (bunches : ℕ) : List Char → (ℕ → Prop) → Prop
  | all {w w'} (hw : IsSpace w) (hw' : IsSpace w') : Selects bunches (w ++ ':' :: w') (· < bunches)
  | list {w t selected} (hw : IsSpace w) (h : Lists (Plain bunches) Spaced t selected) :
      Selects bunches (w ++ t) selected

end Mbf.Bunch
