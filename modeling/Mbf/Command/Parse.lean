import Mathlib.Algebra.Order.Ring.Int
import Mbf.Lib.Parser

/-! # Parsing support

The parsers of `parse.c` that the socket commands and the configuration files use.  A string is the
list of its characters up to the terminating null.  The numbers are read by `strtol` and `strtoul`
in base 10, on 64-bit `long`, and then cut down to 32 bits. -/

namespace Mbf.Command

open Parsing

/-- `isspace` in the C locale. -/
def isSpace (c : Char) : Bool := c = ' ' || (9 ≤ c.toNat && c.toNat ≤ 13)

/-- `skip_whitespace`. -/
def skipWhitespace : Parser Unit := modify (List.dropWhile isSpace)

/-- `valid_name_char`. -/
def validNameChar (c : Char) : Bool := c.isAlpha || c = '_'

/-- `valid_alphanum_char`: allow numbers as well. -/
def validAlphanumChar (c : Char) : Bool := c.isAlpha || c = '_' || c.isDigit

/-- `parse_filtered_name`. -/
def parseFilteredName (filterChar : Char → Bool) (maxLength : ℕ) : Parser (List Char) := do
  let s ← get
  let result := (s.take maxLength).takeWhile filterChar
  set (s.drop result.length)
  test (0 < result.length) "No name found"
  test (result.length < maxLength) "Name too long"
  return result

/-- `parse_alphanum_name`. -/
def parseAlphanumName (maxLength : ℕ) : Parser (List Char) := do
  let s ← get
  test (s.head?.any validNameChar) "No name found"
  parseFilteredName validAlphanumChar maxLength

/-- `read_char`. -/
def readChar (ch : Char) : Parser Bool := do
  match ← get with
  | c :: rest =>
      if c = ch then
        set rest
        return true
      else return false
  | [] => return false

/-- `parse_char`. -/
def parseChar (ch : Char) : Parser Unit := do
  let seen ← readChar ch
  test seen s!"Character '{ch}' expected"

/-- `parse_bit`. -/
def parseBit : Parser Bool := do
  let s ← get
  test (s.head? = some '0' ∨ s.head? = some '1') "Invalid bit value"
  set s.tail
  return s.head? = some '1'

/-- `parse_to_eos`. -/
def parseToEos : Parser (List Char) := do
  let s ← get
  set ([] : List Char)
  return s

/-- `parse_eos`. -/
def parseEos : Parser Unit := do
  let s ← get
  test (s = []) "Unexpected extra character"

/-! ### Numbers -/

/-- The sign, the magnitude and what follows of the numeral at the start of `s`. -/
def numeral (s : List Char) : Option (Bool × ℕ × List Char) :=
  let (negative, s) :=
    match s.dropWhile isSpace with
    | '-' :: s => (true, s)
    | '+' :: s => (false, s)
    | s => (false, s)
  if (s.takeWhile Char.isDigit).isEmpty then none
  else some (negative,
    (s.takeWhile Char.isDigit).foldl (fun n c => 10 * n + (c.toNat - '0'.toNat)) 0,
    s.dropWhile Char.isDigit)

/-- `strtol`: the value, what follows, and whether `errno` was set. -/
def strtol (s : List Char) : ℤ × List Char × Bool :=
  match numeral s with
  | none => (0, s, false)
  | some (negative, n, rest) =>
      let value : ℤ := if negative then -n else n
      if value < -2 ^ 63 then (-2 ^ 63, rest, true)
      else if 2 ^ 63 - 1 < value then (2 ^ 63 - 1, rest, true)
      else (value, rest, false)

/-- `strtoul`: a sign negates the value in the unsigned type. -/
def strtoul (s : List Char) : ℕ × List Char × Bool :=
  match numeral s with
  | none => (0, s, false)
  | some (negative, n, rest) =>
      if 2 ^ 64 - 1 < n then (2 ^ 64 - 1, rest, true)
      else (if negative then (2 ^ 64 - n) % 2 ^ 64 else n, rest, false)

/-- `DEFINE_PARSE_NUM`: a conversion function of the C library followed by `check_number`. -/
def parseNum {ν : Type} (convert : List Char → ν × List Char × Bool) : Parser ν := do
  let start ← get
  let (result, rest, errno) := convert start
  set rest
  test (rest.length < start.length) "Number missing"
  test (errno = false) "Error converting number"
  return result

/-- `parse_int`. -/
def parseInt : Parser ℤ := (fun n => n.bmod (2 ^ 32)) <$> parseNum strtol

/-- `parse_uint`. -/
def parseUint : Parser ℕ := (fun n => n % 2 ^ 32) <$> parseNum strtoul

theorem parseUint_lt : Returns parseUint fun n => n < 2 ^ 32 :=
  Returns.map Returns.trivial fun n _ => Nat.mod_lt n (by decide)

end Mbf.Command
