import Mathlib.Data.Int.Notation
import Mbf.Lib.Nesting

/-! # The indentation parser

`indent.py` reads a definition file line by line, with one line of lookahead, and makes a forest of
its body lines: the lines that are indented more than a line are below it.  Comment lines that stand
directly before a body line document it. -/

namespace Mbf.Indent

open Nesting

/-! ### Lines -/

/-- `read_lines.EOF`, `BLANK`, `COMMENT` and `LINE`. -/
inductive Kind where
  | eof
  | blank
  | comment
  | line
deriving DecidableEq, Repr

/-- The triples that the reader gives out. -/
structure Token where
  kind : Kind
  indent : ℕ
  text : List Char
deriving DecidableEq, Repr

/-- What a line with its newline is; nothing for lines that start with `##`. -/
def classify (line : List Char) : Option Token :=
  let content := line.dropWhile (· = ' ')
  if content = ['\n'] then some ⟨.blank, 0, []⟩
  else
    let indent := line.length - content.length
    if content.take 2 = ['#', '#'] then none
    else if content.take 1 = ['#'] then some ⟨.comment, indent, content.dropLast.tail⟩
    else some ⟨.line, indent, content.dropLast⟩

/-! ### The reader -/

/-- How the parser stops: `fail`, or the assertion in `parse_line`.  `fuel` is the bound on the
number of calls. -/
inductive Exit where
  | fail (message : String) (lineNo : ℕ)
  | assertion
  | fuel
deriving DecidableEq, Repr

/-- `read_lines`.  `input` is what is still to be read, line by line with the newlines, and
`warnings` what was printed. -/
structure ReadLines where
  input : List (List Char)
  undo : Bool
  result : Token
  warn : Bool
  lineNo : ℕ
  warnings : List (String × ℕ)

/-- `__init__`; the empty `result` is not read. -/
def ReadLines.init (input : List (List Char)) (warn : Bool) : ReadLines where
  input := input
  undo := false
  result := ⟨.eof, 0, []⟩
  warn := warn
  lineNo := 0
  warnings := []

/-- Programs that read lines. -/
abbrev Reads := StateT ReadLines (Except Exit)

def fail {α : Type} (message : String) : Reads α := fun s => .error (.fail message s.lineNo)

def warn (message : String) : Reads Unit := fun s =>
  .ok ((), if s.warn then { s with warnings := s.warnings ++ [(message, s.lineNo)] } else s)

/-- `warn`, on a condition. -/
def warnIf (c : Prop) [Decidable c] (message : String) : Reads Unit := fun s =>
  if c then warn message s else .ok ((), s)

/-- `__read_line` until it gives a token: the token, what is left and the number of the line. -/
def readToken : List (List Char) → ℕ → Except Exit (Token × List (List Char) × ℕ)
  | [], lineNo => .ok (⟨.eof, 0, []⟩, [], lineNo + 1)
  | line :: rest, lineNo =>
      if line.getLast? ≠ some '\n' then
        .error (.fail "Missing newline at end of file" (lineNo + 1))
      else
        match classify line with
        | none => readToken rest (lineNo + 1)
        | some token => .ok (token, rest, lineNo + 1)

/-- `__fill`. -/
def fill (undo : Bool) : Reads Token := fun s =>
  if s.undo then .ok (s.result, { s with undo := undo })
  else
    match readToken s.input s.lineNo with
    | .error e => .error e
    | .ok (token, rest, lineNo) =>
        .ok (token, { s with input := rest, lineNo := lineNo, result := token, undo := undo })

def readLine : Reads Token := fill false

def lookahead : Reads Token := fill true

def undo : Reads Unit := fun s => .ok ((), { s with undo := true })

/-! ### The parser -/

/-- `Parse`, but for the body. -/
structure Entry where
  line : List Char
  doc : List (List Char)
  lineNo : ℕ
deriving DecidableEq, Repr

/-- `Parse`: the body are the children. -/
abbrev Parse := Rose Entry

/-- `parse_comments`, with the comments so far. -/
def parseComments : ℕ → ℕ → List (List Char) → Reads (List (List Char))
  | 0, _, _ => fun _ => .error .fuel
  | fuel + 1, indent, comments => do
      let token ← readLine
      match token.kind with
      | .blank =>
          warnIf (comments ≠ []) "Discarding inline comments"
          parseComments fuel indent []
      | .comment =>
          if indent ≠ token.indent then fail "Bad comment indentation"
          else if token.text.head? = some '#' then parseComments fuel indent comments
          else parseComments fuel indent (comments ++ [token.text])
      | .eof | .line =>
          undo
          return comments

/-- `find_new_indent`. -/
def findNewIndent : ℕ → Reads ℕ
  | 0 => fun _ => .error .fuel
  | fuel + 1 => do
      let token ← readLine
      match token.kind with
      | .eof => return 0
      | .blank => findNewIndent fuel
      | .comment | .line =>
          undo
          return token.indent

mutual

/-- `parse_line`. -/
def parseLine : ℕ → ℕ → Reads (Option Parse)
  | 0, _ => fun _ => .error .fuel
  | fuel + 1, indent => do
      let comments ← parseComments fuel indent []
      let token ← readLine
      let lineNo := (← get).lineNo
      match token.kind with
      | .eof =>
          warnIf (comments ≠ []) "Discarding comments at end of file"
          return none
      | .line =>
          if token.indent ≠ indent then fail "Invalid identation"
          else
            let subLines ← parseSubLines fuel indent
            return some (.node ⟨token.text, comments, lineNo⟩ subLines)
      | .blank | .comment => fun _ => .error .assertion

/-- `parse_sub_lines`. -/
def parseSubLines : ℕ → ℤ → Reads (List Parse)
  | 0, _ => fun _ => .error .fuel
  | fuel + 1, indent => do
      let newIndent ← findNewIndent fuel
      if indent < newIndent then parseLines fuel newIndent
      else return []

/-- The loop of `parse_sub_lines`. -/
def parseLines : ℕ → ℕ → Reads (List Parse)
  | 0, _ => fun _ => .error .fuel
  | fuel + 1, indent => do
      match ← parseLine fuel indent with
      | none => return []
      | some line =>
          let token ← lookahead
          if indent < token.indent then fail "Invalid indentation"
          else if token.indent < indent then return [line]
          else
            let lines ← parseLines fuel indent
            return line :: lines

end

/-- `parse_file`. -/
def parseFile (warn : Bool) (input : List (List Char)) : Except Exit (List Parse) :=
  (parseSubLines (3 * input.length + 4) (-1)).run' (ReadLines.init input warn)

end Mbf.Indent
