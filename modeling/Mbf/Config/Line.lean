import Mbf.Command.Parse
import Mathlib.Logic.Function.Basic

/-! # One line of a configuration file

`do_parse_line` of `config_file.c`: a line is blank, a comment, or an assignment of a value to one
of the entries of a table.  The grammar of the lines is stated on its own (`Assignment`), for the
names and values that a file can have (`stated`) and for those that the parser takes (`taken`).

`strtod` is a parameter, with the value, what follows, and whether `errno` was set. -/

namespace Mbf.Config

open Parsing Mbf.Command

/-! ### The table -/

/-- `enum config_entry_type`. -/
inductive EntryType where
  | int
  | uint
  | double
  | string
  | bool
deriving DecidableEq, Repr

/-- `struct config_entry`.  Where to write the result is told by the position in the table. -/
structure Entry where
  entryType : EntryType
  name : List Char
deriving DecidableEq, Repr

/-- What a target holds. -/
inductive Value (δ : Type) where
  | int (n : ℤ)
  | uint (n : ℕ)
  | double (x : δ)
  | string (text : List Char)
  | bool (b : Bool)
deriving DecidableEq, Repr

/-- The array of seen flags, and the targets. -/
structure Loaded (δ : Type) where
  seen : ℕ → Bool
  target : ℕ → Option (Value δ)

def Loaded.assign {δ : Type} (ix : ℕ) (value : Value δ) (loaded : Loaded δ) : Loaded δ where
  seen := Function.update loaded.seen ix true
  target := Function.update loaded.target ix (some value)

/-- `NAME_LENGTH`. -/
def nameLength : ℕ := 40

/-- `lookup_name`. -/
def lookupName (name : List Char) (table : List Entry) : Option ℕ :=
  table.findIdx? fun entry => decide (entry.name = name)

/-! ### The parser -/

section parser
variable {δ : Type} (strtod : List Char → δ × List Char × Bool)

/-- `parse_value`. -/
def parseValue : EntryType → Parser (Value δ)
  | .int => Value.int <$> parseInt
  | .uint => Value.uint <$> parseUint
  | .string => Value.string <$> parseToEos
  | .double => Value.double <$> parseNum strtod
  | .bool => Value.bool <$> parseBit

/-- The name, the sign of equality and the white space around it. -/
def parseAssignment : Parser (List Char) := do
  let name ← parseAlphanumName nameLength
  skipWhitespace
  parseChar '='
  skipWhitespace
  return name

/-- The value, and nothing after it. -/
def parseEntry (entryType : EntryType) : Parser (Value δ) := do
  let value ← parseValue strtod entryType
  skipWhitespace
  parseEos
  return value

/-- The message of `error_extend`. -/
def parseError (fileName : String) (lineNumber : ℕ) (line rest : List Char) : String :=
  s!"Error parsing {fileName}, line {lineNumber}, offset {line.length - rest.length}"

/-- `do_parse_line`, from the value on. -/
def assignEntry (fileName : String) (lineNumber : ℕ) (line name text : List Char) (ix : ℕ)
    (entryType : EntryType) (loaded : Loaded δ) : Except (List String) (Loaded δ) :=
  match parseEntry strtod entryType text with
  | .error message rest => .error [message, parseError fileName lineNumber line rest]
  | .ok value _ =>
      if loaded.seen ix then
        .error [s!"Parameter {String.ofList name} repeated on line {lineNumber}"]
      else .ok (loaded.assign ix value)

/-- `do_parse_line`. -/
def doParseLine (fileName : String) (lineNumber : ℕ) (line : List Char) (table : List Entry)
    (ignoreUnknown : Bool) (loaded : Loaded δ) : Except (List String) (Loaded δ) :=
  let string := line.dropWhile isSpace
  if string = [] ∨ string.head? = some '#' then .ok loaded
  else
    match parseAssignment string with
    | .error message rest => .error [message, parseError fileName lineNumber line rest]
    | .ok name string =>
        match lookupName name table with
        | none =>
            if ignoreUnknown then .ok loaded
            else .error [s!"Identifier {String.ofList name} not known",
              parseError fileName lineNumber line string]
        | some ix =>
            assignEntry strtod fileName lineNumber line name string ix
              ((table[ix]?.map Entry.entryType).getD .int) loaded

end parser

/-! ### The grammar -/

/-- White space. -/
def IsSpace (w : List Char) : Prop := ∀ c ∈ w, isSpace c

/-- What starts here is not white space. -/
def IsTrimmed (text : List Char) : Prop := ∀ c ∈ text.head?, isSpace c = false

/-- Nothing, or a comment, after optional white space. -/
def IsBlank (line : List Char) : Prop :=
  ∃ w text, line = w ++ text ∧ IsSpace w ∧ (text = [] ∨ text.head? = some '#')

/-- A name starts with a letter or underscore. -/
structure IsName (name : List Char) : Prop where
  head : ∃ c ∈ name.head?, validNameChar c
  all : ∀ c ∈ name, validAlphanumChar c

/-- `name = text`, with optional white space. -/
def Assignment (line name text : List Char) : Prop :=
  ∃ w₀ w₁ w₂, line = w₀ ++ (name ++ (w₁ ++ '=' :: (w₂ ++ text))) ∧ IsSpace w₀ ∧ IsSpace w₁ ∧
    IsSpace w₂ ∧ IsName name ∧ IsTrimmed text

/-- The number a run of digits denotes. -/
def decimal (digits : List Char) : ℕ :=
  digits.foldl (fun n c => 10 * n + (c.toNat - '0'.toNat)) 0

/-- A numeral with an optional sign, and white space after it. -/
inductive Numeral : List Char → ℤ → Prop
  | unsigned {digits w} (hne : digits ≠ []) (hdigits : ∀ c ∈ digits, c.isDigit) (hw : IsSpace w) :
      Numeral (digits ++ w) (decimal digits)
  | plus {digits w} (hne : digits ≠ []) (hdigits : ∀ c ∈ digits, c.isDigit) (hw : IsSpace w) :
      Numeral ('+' :: (digits ++ w)) (decimal digits)
  | minus {digits w} (hne : digits ≠ []) (hdigits : ∀ c ∈ digits, c.isDigit) (hw : IsSpace w) :
      Numeral ('-' :: (digits ++ w)) (-decimal digits)

section grammar
variable {δ : Type} (strtod : List Char → δ × List Char × Bool)

/-- The text is a well formed value in the range of the type. -/
inductive Denotes : EntryType → List Char → Value δ → Prop
  | int {text z} (h : Numeral text z) (hmin : -2 ^ 31 ≤ z) (hmax : z < 2 ^ 31) :
      Denotes .int text (.int z)
  | uint {text n} (h : Numeral text (n : ℕ)) (hmax : n < 2 ^ 32) : Denotes .uint text (.uint n)
  | double {text x rest} (h : strtod text = (x, rest, false)) (hlength : rest.length < text.length)
      (hw : IsSpace rest) : Denotes .double text (.double x)
  | string {text} : Denotes .string text (.string text)
  | zero {w} (hw : IsSpace w) : Denotes .bool ('0' :: w) (.bool false)
  | one {w} (hw : IsSpace w) : Denotes .bool ('1' :: w) (.bool true)

/-- What the parser takes for a value: the range is that of the conversion functions, and the number
is cut down to 32 bits. -/
inductive Reads : EntryType → List Char → Value δ → Prop
  | int {text z} (h : Numeral text z) (hmin : -2 ^ 63 ≤ z) (hmax : z < 2 ^ 63) :
      Reads .int text (.int (z.bmod (2 ^ 32)))
  | uint {text z} (h : Numeral text z) (hmax : z.natAbs < 2 ^ 64) :
      Reads .uint text (.uint (z % 2 ^ 32).toNat)
  | other {entryType text v} (hint : entryType ≠ .int) (huint : entryType ≠ .uint)
      (h : Denotes strtod entryType text v) : Reads entryType text v

/-- The names that a line can have, and what its text is read as. -/
structure Language (δ : Type) where
  name : List Char → Prop
  reads : EntryType → List Char → Value δ → Prop

/-- What a file can say: any name, and values in the range of their type. -/
def stated : Language δ := ⟨fun _ => True, Denotes strtod⟩

/-- What the parser takes: a name with its terminating character fits `NAME_LENGTH`. -/
def taken : Language δ := ⟨fun name => name.length < nameLength, Reads strtod⟩

variable (lang : Language δ) (table : List Entry)

/-- The line assigns a value to entry `ix`. -/
def Assigns (line : List Char) (ix : ℕ) (v : Value δ) : Prop :=
  ∃ name text entry, Assignment line name text ∧ lang.name name ∧
    lookupName name table = some ix ∧ table[ix]? = some entry ∧ lang.reads entry.entryType text v

/-- The line is blank, a comment, or an assignment to an unknown key that is ignored. -/
def IsSkipped (ignoreUnknown : Bool) (line : List Char) : Prop :=
  IsBlank line ∨ ignoreUnknown ∧
    ∃ name text, Assignment line name text ∧ lang.name name ∧ lookupName name table = none

end grammar

end Mbf.Config
