import Mathlib.Data.List.Basic
import Mbf.Parse.Indent

/-! # Register definitions

`register_defs.py` reads the forest that the indentation parser makes of a definition file.  A group
has its entries one after the other: registers, arrays of registers, pairs of a register that is
read and one that is written, overlays of registers, unions of entries and groups.  Entries of the
top level that start with `:` define a group or a register that is used by name in the groups after
it.

All offsets are from the start of the group of the top level. -/

namespace Mbf.RegisterDefs

open Nesting Indent

/-! ### What a parse returns -/

abbrev Name := List Char

abbrev Doc := List (List Char)

/-- `rw`: R, W, RW or WP. -/
inductive Access where
  | read
  | write
  | readWrite
  | writePulse
deriving DecidableEq, Repr

def Access.text : Access → List Char
  | .read => ['R']
  | .write => ['W']
  | .readWrite => ['R', 'W']
  | .writePulse => ['W', 'P']

/-- `Field`; `range` is the offset and the width. -/
structure Field where
  name : Name
  offset : ℤ
  width : ℤ
  isBit : Bool
  rw : Option Access
  doc : Doc
deriving DecidableEq, Repr

/-- A `Register` that is used by name; it has offset 0 and no definition. -/
structure RegisterDef where
  name : Name
  rw : Access
  fields : List Field
  doc : Doc
deriving DecidableEq, Repr

/-- `Register` -/
structure Register extends RegisterDef where
  offset : ℤ
  definition : Option RegisterDef
deriving DecidableEq, Repr

/-- `Group`, `Register`, `RegisterArray`, `RwPair`, `Overlay` and `Union`; `range` is the base and
the length.  A `Group` with a definition is a `groupUse`: it is not hidden, and has no content until
it is flattened. -/
inductive Item where
  | group (name : Name) (base length : ℤ) (hidden : Bool) (content : List Item) (doc : Doc)
  | groupUse (name : Name) (base length : ℤ) (definition : Item) (content : List Item) (doc : Doc)
  | register (register : Register)
  | registerArray (name : Name) (base length : ℤ) (rw : Access) (doc : Doc)
  | rwPair (registers : List Register)
  | overlay (name : Name) (offset : ℤ) (rw : Access) (registers : List Register) (doc : Doc)
  | union (name : Name) (base length : ℤ) (content : List Item) (doc : Doc)

/-- What a name stands for. -/
inductive Define where
  | group (group : Item)
  | register (register : RegisterDef)

/-- A dictionary in the order in which its keys were first set. -/
abbrev Dict (α : Type) := List (Name × α)

def Dict.set {α : Type} (key : Name) (value : α) (d : Dict α) : Dict α :=
  if d.any (·.1 = key) then d.map fun entry => if entry.1 = key then (key, value) else entry
  else d ++ [(key, value)]

/-- `Constant` -/
structure Constant where
  name : Name
  value : ℤ
  doc : Doc
deriving DecidableEq, Repr

/-- `Parse` of `register_defs.py`. -/
structure Definitions where
  groupDefs : List Item
  registerDefs : List RegisterDef
  groups : List Item
  constants : Dict Constant

/-! ### Words and numbers -/

/-- How the parser stops: `fail_parse`, or an exception of Python. -/
inductive Stop where
  | failParse (message : String) (lineNo : ℕ)
  | indexError
  | valueError
deriving DecidableEq, Repr

abbrev Result := Except Stop

def failParse {α : Type} (message : String) (lineNo : ℕ) : Result α :=
  .error (.failParse message lineNo)

/-- `x[0]` -/
def first {α : Type} : List α → Result α
  | [] => .error .indexError
  | x :: _ => .ok x

/-- `str.isspace` -/
def isSpace (c : Char) : Bool := c ∈ [' ', '\t', '\n', '\x0b', '\x0c', '\r']

/-- `str.split` -/
def words (line : List Char) : List (List Char) := (line.splitOnP isSpace).filter (· ≠ [])

/-- `str.strip` -/
def strip (text : List Char) : List Char :=
  ((text.dropWhile isSpace).reverse.dropWhile isSpace).reverse

/-- The value of a digit, up to base 16. -/
def digit (c : Char) : Option ℕ :=
  if '0' ≤ c ∧ c ≤ '9' then some (c.toNat - '0'.toNat)
  else if 'a' ≤ c.toLower ∧ c.toLower ≤ 'f' then some (c.toLower.toNat - 'a'.toNat + 10)
  else none

/-- The number that some digits make. -/
def digits (base : ℕ) (text : List Char) : Option ℕ :=
  if text = [] then none
  else text.foldlM (fun n c => do
    let d ← digit c
    if d < base then some (n * base + d) else none) 0

/-- A number without a sign, in the base that its prefix says. -/
def unsigned : List Char → Option ℕ
  | ['0'] => some 0
  | '0' :: c :: text =>
      if c.toLower = 'x' then digits 16 text
      else if c.toLower = 'o' then digits 8 text
      else if c.toLower = 'b' then digits 2 text
      else digits 8 (c :: text)
  | text => digits 10 text

/-- A number with a sign. -/
def signed (unsigned : List Char → Option ℕ) (text : List Char) : Option ℤ :=
  match strip text with
  | '-' :: text => (unsigned text).map fun n : ℕ => -(n : ℤ)
  | '+' :: text => (unsigned text).map Int.ofNat
  | text => (unsigned text).map Int.ofNat

/-- `parse_int`, where `int(value, 0)` takes the base from the prefix. -/
def parseInt (value : List Char) (lineNo : ℕ) : Result ℤ :=
  match signed unsigned value with
  | some n => .ok n
  | none => failParse "Expected integer" lineNo

/-- `check_args` -/
def checkArgs (args : List (List Char)) (minLength maxLength lineNo : ℕ) : Result Unit :=
  if args.length < minLength then failParse "Expected more arguments" lineNo
  else if maxLength < args.length then failParse "Unexpected extra arguments" lineNo
  else .ok ()

/-- `name_pattern` -/
def isName : Name → Bool
  | [] => false
  | c :: text => c.isAlpha && text.all fun c => c.isAlphanum || c = '_'

/-- `check_name` -/
def checkName (name : Name) (lineNo : ℕ) : Result Unit :=
  if isName name then .ok ()
  else failParse ("Invalid name \"" ++ String.ofList name ++ "\"") lineNo

/-- `check_body` -/
def checkBody : Parse → Result Unit
  | .node e body =>
      if body.isEmpty then .ok () else failParse "No sub-definitions allowed here" e.lineNo

/-- `is_int` -/
def isInt : List Char → Bool
  | [] => false
  | c :: _ => c.isDigit

/-- `check_rw` -/
def checkRw (rw : List Char) (lineNo : ℕ) : Result Access :=
  match [.read, .write, .readWrite, .writePulse].find? fun access => access.text = rw with
  | some access => .ok access
  | none => failParse "Invalid R/W specification" lineNo

/-! ### Fields -/

/-- The width of a field, if it is given, and the words after it. -/
def parseWidth (args : List (List Char)) (lineNo : ℕ) :
    Result (Option ℤ × List (List Char)) :=
  match args with
  | [] => .ok (none, [])
  | arg :: rest =>
      if isInt arg then do
        let count ← parseInt arg lineNo
        return (some count, rest)
      else .ok (none, args)

/-- The offset of a field, if it is given, and the words after it. -/
def parseAt (offset : ℤ) (args : List (List Char)) (lineNo : ℕ) : Result (ℤ × List (List Char)) :=
  match args with
  | ('@' :: value) :: rest => do
      let offset ← parseInt value lineNo
      return (offset, rest)
  | _ => .ok (offset, args)

/-- `parse_field_def` -/
def parseFieldDef (offset : ℤ) (parse : Parse) : Result (Field × ℤ) := do
  let e := parse.label
  let line := words e.line
  let name ← first line
  checkBody parse
  if name.head? ≠ some '.' then failParse "Expected field definition" e.lineNo
  let (width, args) ← parseWidth line.tail e.lineNo
  let count := width.getD 1
  let (offset, args) ← parseAt offset args e.lineNo
  checkArgs args 0 1 e.lineNo
  let rw ← args.head?.mapM (checkRw · e.lineNo)
  return (⟨name.tail, offset, count, width.isNone, rw, e.doc⟩, offset + count)

/-- `parse_field_skip` -/
def parseFieldSkip (parse : Parse) : Result ℤ := do
  let e := parse.label
  let args := words e.line
  checkArgs args 1 2 e.lineNo
  match args[1]? with
  | some count => parseInt count e.lineNo
  | none => return 1

/-- `is_field_skip` -/
def isFieldSkip (parse : Parse) : Result Bool := do
  let word ← first (words parse.label.line)
  return word = ['-']

/-- The loop of `parse_field_defs`, at an offset. -/
def parseFields (offset : ℤ) : List Parse → Result (List Field)
  | [] => .ok []
  | parse :: rest => do
      if ← isFieldSkip parse then
        let count ← parseFieldSkip parse
        parseFields (offset + count) rest
      else
        let (field, offset) ← parseFieldDef offset parse
        let fields ← parseFields offset rest
        return field :: fields

/-- `parse_field_defs` -/
def parseFieldDefs (fieldList : List Parse) : Result (List Field) := parseFields 0 fieldList

/-! ### Registers -/

/-- `parse_reg_def`: `expect` is a condition on `rw`, with how it is written, and `rw` what it is if
it is not given. -/
def parseRegDef (parse : Parse) (expect : Option (List Access × String)) (rw : Option Access) :
    Result RegisterDef := do
  let e := parse.label
  let args := words e.line
  checkArgs args 1 2 e.lineNo
  let name ← first args
  checkName name e.lineNo
  let rw ← match args[1]? with
    | some word => checkRw word e.lineNo
    | none =>
        match rw with
        | some rw => .ok rw
        | none => failParse "Invalid R/W specification" e.lineNo
  match expect with
  | some (allowed, text) =>
      if rw ∉ allowed then failParse ("Expected " ++ text ++ " field") e.lineNo
  | none => pure ()
  let fields ← parseFieldDefs parse.children
  return ⟨name, rw, fields, e.doc⟩

/-- A register at an offset. -/
def RegisterDef.at (offset : ℤ) (register : RegisterDef) : Register :=
  { register with offset := offset, definition := none }

/-- `is_reg_array` -/
def isRegArray (e : Entry) : Bool :=
  match words e.line with
  | _ :: word :: _ => isInt word
  | _ => false

/-- `parse_reg_array` -/
def parseRegArray (offset : ℤ) (parse : Parse) : Result (Item × ℤ) := do
  let e := parse.label
  let line := words e.line
  checkArgs line 3 3 e.lineNo
  let name := line.getD 0 []
  checkName name e.lineNo
  let count ← parseInt (line.getD 1 []) e.lineNo
  let rw ← checkRw (line.getD 2 []) e.lineNo
  checkBody parse
  return (.registerArray name offset count rw e.doc, count)

/-- `parse_reg_pair` -/
def parseRegPair (offset : ℤ) (parse : Parse) : Result (Item × ℤ) := do
  let e := parse.label
  checkArgs (words e.line) 1 1 e.lineNo
  match parse.children with
  | [read, write] => do
      let read ← parseRegDef read (some ([.read], "['R']")) none
      let write ← parseRegDef write (some ([.write, .writePulse], "['W', 'WP']")) none
      return (.rwPair [read.at offset, write.at offset], 1)
  | _ => failParse "Must have two registers" e.lineNo

/-- The loop of `parse_reg_overlay`. -/
def parseOverlay (rw : Access) (regOffset : ℤ) : List Parse → Result (List Register)
  | [] => .ok []
  | parse :: rest => do
      let register ← parseRegDef parse none (some rw)
      let registers ← parseOverlay rw (regOffset + 1) rest
      return register.at regOffset :: registers

/-- `parse_reg_overlay` -/
def parseRegOverlay (offset : ℤ) (parse : Parse) : Result (Item × ℤ) := do
  let e := parse.label
  let line := words e.line
  checkArgs line 3 3 e.lineNo
  let name := line.getD 1 []
  checkName name e.lineNo
  let rw ← checkRw (line.getD 2 []) e.lineNo
  let registers ← parseOverlay rw 0 parse.children
  return (.overlay name offset rw registers e.doc, 1)

/-- The name of a union, which may be missing. -/
def unionName (e : Entry) : Result Name := do
  let line := words e.line
  checkArgs line 1 2 e.lineNo
  return line.getD 1 []

/-! ### Groups -/

/-- The name of a group, and whether it is hidden. -/
def groupHeader (e : Entry) : Result (Name × Bool) := do
  let line := words e.line
  let word ← first line
  let mark ← first word.tail
  let hidden : Bool := mark = '!'
  let name := if hidden then word.tail.tail else word.tail
  checkName name e.lineNo
  checkArgs line 1 1 e.lineNo
  return (name, hidden)

/-- What is defined under a name, the last time if there are several. -/
def lookup {α : Type} (defines : Dict α) (key : Name) : Option α :=
  (defines.find? (·.1 = key)).map (·.2)

/-- `parse_shared_name`, of an entry whose line goes on after the `:`. -/
def parseSharedName (offset : ℤ) (parse : Parse) (defines : Dict Define) : Result (Item × ℤ) := do
  let e := parse.label
  let line := words e.line.tail
  let key ← first line
  let name := line.getD 1 key
  checkName name e.lineNo
  match lookup defines key with
  | none => failParse ("Unknown shared name " ++ String.ofList key) e.lineNo
  | some (.group define) => do
      checkBody parse
      let length := match define with
        | .group _ _ length _ _ _ => length
        | _ => 0
      return (.groupUse name offset length define [] e.doc, length)
  | some (.register define) => do
      let fields ← parseFieldDefs parse.children
      let register : RegisterDef := ⟨name, define.rw, fields, e.doc⟩
      return (.register { register with offset := offset, definition := some define }, 1)

/-- What an entry is parsed as. -/
inductive Kind where
  | sharedName
  | regPair
  | regOverlay
  | regUnion
  | groupDef
  | regArray
  | regDef

/-- The dispatch of `parse_group_entry` and `parse_special`. -/
def kind (e : Entry) : Result Kind := do
  let mark ← first e.line
  if mark = '.' ∨ mark = '-' then failParse "Field definition not allowed here" e.lineNo
  else if mark = ':' then return .sharedName
  else if mark = '*' then do
    let word ← first (words e.line)
    if word = ['*', 'R', 'W'] then return .regPair
    else if word = ['*', 'O', 'V', 'E', 'R', 'L', 'A', 'Y'] then return .regOverlay
    else if word = ['*', 'U', 'N', 'I', 'O', 'N'] then return .regUnion
    else failParse "Unexpected special directive" e.lineNo
  else if mark = '!' then return .groupDef
  else if isRegArray e then return .regArray
  else return .regDef

mutual

/-- `parse_group_entry`: what an entry is, and the number of words that it takes. -/
def parseGroupEntry (offset : ℤ) (defines : Dict Define) : Parse → Result (Item × ℤ)
  | .node e body => do
      match ← kind e with
      | .sharedName => parseSharedName offset (.node e body) defines
      | .regPair => parseRegPair offset (.node e body)
      | .regOverlay => parseRegOverlay offset (.node e body)
      | .regUnion => do
          let name ← unionName e
          let (content, size) ← parseUnion offset body
          return (.union name offset size content e.doc, size)
      | .groupDef => do
          let (name, hidden) ← groupHeader e
          let (content, count) ← parseContent offset defines body
          return (.group name offset count hidden content e.doc, count)
      | .regArray => parseRegArray offset (.node e body)
      | .regDef => do
          let register ← parseRegDef (.node e body) none none
          return (.register (register.at offset), 1)

/-- The loop of `parse_group_def`. -/
def parseContent (offset : ℤ) (defines : Dict Define) : List Parse → Result (List Item × ℤ)
  | [] => .ok ([], 0)
  | parse :: rest => do
      let (result, entryCount) ← parseGroupEntry offset defines parse
      let (content, count) ← parseContent (offset + entryCount) defines rest
      return (result :: content, entryCount + count)

/-- The loop of `parse_reg_union`. -/
def parseUnion (offset : ℤ) : List Parse → Result (List Item × ℤ)
  | [] => .ok ([], 0)
  | parse :: rest => do
      let (result, count) ← parseGroupEntry offset [] parse
      let (content, size) ← parseUnion offset rest
      return (result :: content, if size < count then count else size)

end

/-- `parse_group_def` -/
def parseGroupDef (offset : ℤ) (parse : Parse) (defines : Dict Define) : Result (Item × ℤ) := do
  let e := parse.label
  let (name, hidden) ← groupHeader e
  let (content, count) ← parseContent offset defines parse.children
  return (.group name offset count hidden content e.doc, count)

/-! ### The file -/

/-- `parse_shared_def` -/
def parseSharedDef (parse : Parse) (defines : Dict Define) : Result (Dict Define) := do
  let e := { parse.label with line := parse.label.line.tail }
  let parse : Parse := .node e parse.children
  let mark ← first e.line
  if mark = '!' then do
    let (group, _) ← parseGroupDef 0 parse []
    let (name, _) ← groupHeader e
    return defines.set name (.group group)
  else do
    let register ← parseRegDef parse none none
    return defines.set register.name (.register register)

/-- `parse_constant_def` -/
def parseConstantDef (parse : Parse) (constants : Dict Constant) : Result (Dict Constant) := do
  let e := parse.label
  checkBody parse
  let name := strip (e.line.takeWhile (· ≠ '='))
  checkName name e.lineNo
  match signed (digits 10) (e.line.dropWhile (· ≠ '=')).tail with
  | some value => return constants.set name ⟨name, value, e.doc⟩
  | none => .error .valueError

/-- `defines`, `groups` and `constants` of `parse_defs`. -/
structure Parsing where
  defines : Dict Define := []
  groups : List Item := []
  constants : Dict Constant := []

/-- `parse_register_def_entry` -/
def parseRegisterDefEntry (p : Parsing) (parse : Parse) : Result Parsing := do
  let e := parse.label
  let mark ← first e.line
  if mark = ':' then do
    let defines ← parseSharedDef parse p.defines
    return { p with defines }
  else if mark = '!' then do
    let (group, _) ← parseGroupDef 0 parse p.defines
    return { p with groups := p.groups ++ [group] }
  else if '=' ∈ e.line then do
    let constants ← parseConstantDef parse p.constants
    return { p with constants }
  else failParse "Ungrouped register definition not expected here" e.lineNo

/-- `FlattenMethods.walk_register` -/
def Register.flatten (offset : ℤ) (register : Register) : Register :=
  match register.definition with
  | some define => { register with fields := define.fields ++ register.fields }
  | none => { register with offset := register.offset + offset }

mutual

/-- The walk of `FlattenMethods`. -/
def Item.flatten (offset : ℤ) : Item → Item
  | .group name base length hidden content doc =>
      .group name (base + offset) length hidden (flattenAll offset content) doc
  | .groupUse name base length (.group n b l h content d) _ doc =>
      .groupUse name (base + offset) length (.group n b l h content d)
        (flattenAll (offset + base) content) doc
  | .groupUse name base length definition _ doc =>
      .groupUse name (base + offset) length definition [] doc
  | .register register => .register (register.flatten offset)
  | .registerArray name base length rw doc => .registerArray name (base + offset) length rw doc
  | .rwPair registers => .rwPair (registers.map (Register.flatten offset))
  | .overlay name base rw registers doc => .overlay name (base + offset) rw registers doc
  | .union name base length content doc =>
      .union name (base + offset) length (flattenAll offset content) doc

/-- `walk_subgroups` of `FlattenMethods`. -/
def flattenAll (offset : ℤ) : List Item → List Item
  | [] => []
  | item :: content => item.flatten offset :: flattenAll offset content

end

/-- `flatten` -/
def flatten (parse : Definitions) : Definitions :=
  { parse with groups := flattenAll 0 parse.groups }

end Mbf.RegisterDefs
