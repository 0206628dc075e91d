import Mathlib.Algebra.Group.Int.Defs
import Mathlib.Algebra.Group.Nat.Defs
import Mathlib.Data.List.Basic

/-!
# Byte strings

`std::string` and the `string` and `bytes` fields of the messages are lists of
bytes.  The functions below are the ones of `utils.hpp` and `entry_iterator.hpp`
that the server uses on addresses and configurations.
-/

namespace Draft

abbrev Bytes := List UInt8

instance : LawfulBEq Bytes := inferInstanceAs (LawfulBEq (List UInt8))

def ascii (s : String) : Bytes :=
  s.toList.map fun c => c.toNat.toUInt8

/-- `split` of `utils.hpp` at a one-byte separator: always at least one piece. -/
def split (sep : UInt8) : Bytes → List Bytes
  | [] => [[]]
  | c :: rest =>
      if c = sep then [] :: split sep rest
      else
        match split sep rest with
        | [] => [[c]]
        | piece :: pieces => (c :: piece) :: pieces

def joinComma : List Bytes → Bytes
  | [] => []
  | [piece] => piece
  | piece :: rest => piece ++ ascii "," ++ joinComma rest

/-- `isspace` in the C locale. -/
def isSpace (c : UInt8) : Bool := c = 32 || (9 ≤ c && c ≤ 13)

/-- `isblank` in the C locale. -/
def isBlank (c : UInt8) : Bool := c = 32 || c = 9

def isDigit (c : UInt8) : Bool := 48 ≤ c && c ≤ 57

def digitsValue (digits : Bytes) : Nat :=
  digits.foldl (fun value c => value * 10 + (c.toNat - 48)) 0

/--
`std::stol`: leading white space, an optional sign and the longest run of
digits.  `none` is the exception, thrown for no digit and outside `long`.
-/
def stol (field : Bytes) : Option Int :=
  let body := field.dropWhile isSpace
  let negative := body.head? = some 45
  let digits :=
    (if negative || body.head? = some 43 then body.tail else body).takeWhile isDigit
  let value : Int := if negative then -(digitsValue digits : Int) else digitsValue digits
  if digits = [] then none
  else if value < -(2 ^ 63) ∨ 2 ^ 63 ≤ value then none
  else some value

/-- `is_ipv4`: four fields between dots, each with a value from 0 to 255. -/
def isIpv4 (address : Bytes) : Bool :=
  -- `strtok_r` never returns an empty field
  let fields := (split 46 address).filter (· ≠ [])
  fields.length = 4 &&
    fields.all fun field =>
      match stol field with
      | none => false
      | some value => 0 ≤ value && value ≤ 255

end Draft
