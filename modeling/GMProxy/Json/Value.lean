import Mathlib.Tactic.Common

/-!
# JSON values

The values of json11, how they are read and how `dump` writes them.
-/

namespace GMProxy.Json11

/-- A `std::string`. -/
abbrev Bytes := List UInt8

/-- The bytes of an ASCII text. -/
def ascii (s : String) : Bytes := s.toList.map fun c => UInt8.ofNat c.toNat

/-- A value; `δ` are the doubles. The members of an object are in the order of their keys. -/
inductive Json (δ : Type) where
  | nul
  | double (value : δ)
  | longlong (value : Int64)
  | int (value : Int32)
  | boolean (value : Bool)
  | string (value : Bytes)
  | array (values : List (Json δ))
  | object (values : List (Bytes × Json δ))

/-- What json11 asks of the doubles. -/
structure Doubles (δ : Type) where
  isfinite : δ → Bool
  /-- `snprintf` with `%.17g`. -/
  format : δ → Bytes
  /-- `strtod` on the text of a number. -/
  strtod : Bytes → δ
  /-- The conversion to `int`. -/
  toInt : δ → Int32

namespace Json

variable {δ : Type} (doubles : Doubles δ)

def isNull : Json δ → Bool
  | nul => true
  | _ => false

def stringValue : Json δ → Bytes
  | string value => value
  | _ => []

def intValue : Json δ → Int32
  | double value => doubles.toInt value
  | longlong value => value.toInt32
  | int value => value
  | _ => 0

def arrayItems : Json δ → List (Json δ)
  | array values => values
  | _ => []

/-- `operator[]` with a key. -/
def member (key : Bytes) : Json δ → Json δ
  | object values => (values.lookup key).getD nul
  | _ => nul

end Json

/-- The order of `std::string`. -/
def before : Bytes → Bytes → Bool
  | _, [] => false
  | [], _ :: _ => true
  | a :: as, b :: bs => if a < b then true else if b < a then false else before as bs

/-- The assignment to `operator[]` of a `std::map`. -/
def assign {α : Type} (key : Bytes) (value : α) : List (Bytes × α) → List (Bytes × α)
  | [] => [(key, value)]
  | (k, v) :: rest =>
      if before key k then (key, value) :: (k, v) :: rest
      else if before k key then (k, v) :: assign key value rest
      else (k, value) :: rest

/-- A digit of `%x`. -/
def hexDigit (n : Nat) : UInt8 := if n < 10 then UInt8.ofNat (48 + n) else UInt8.ofNat (87 + n)

/-- `snprintf` with `%d` and `%lld`. -/
def decimal (n : Int) : Bytes := ascii (toString n)

/-- `dump` of a string without its quotes. -/
def dumpChars : Bytes → Bytes
  | 0xe2 :: 0x80 :: 0xa8 :: rest => ascii "\\u2028" ++ dumpChars rest
  | 0xe2 :: 0x80 :: 0xa9 :: rest => ascii "\\u2029" ++ dumpChars rest
  | [] => []
  | ch :: rest =>
      (if ch = 0x5c then ascii "\\\\"
      else if ch = 0x22 then ascii "\\\""
      else if ch = 0x08 then ascii "\\b"
      else if ch = 0x0c then ascii "\\f"
      else if ch = 0x0a then ascii "\\n"
      else if ch = 0x0d then ascii "\\r"
      else if ch = 0x09 then ascii "\\t"
      else if ch ≤ 0x1f then
        ascii "\\u00" ++ [hexDigit (ch.toNat / 16), hexDigit (ch.toNat % 16)]
      else [ch]) ++ dumpChars rest

def dumpString (value : Bytes) : Bytes := 0x22 :: dumpChars value ++ [0x22]

variable {δ : Type} (doubles : Doubles δ)

mutual

def Json.dump : Json δ → Bytes
  | .nul => ascii "null"
  | .double value => if doubles.isfinite value then doubles.format value else ascii "null"
  | .longlong value => decimal value.toInt
  | .int value => decimal value.toInt
  | .boolean value => if value then ascii "true" else ascii "false"
  | .string value => dumpString value
  | .array values => ascii "[" ++ dumpItems values ++ ascii "]"
  | .object values => ascii "\x7b" ++ dumpMembers values ++ ascii "\x7d"

/-- The loop over an array, with its separators. -/
def dumpItems : List (Json δ) → Bytes
  | [] => []
  | [value] => value.dump
  | value :: rest => value.dump ++ ascii ", " ++ dumpItems rest

/-- The loop over an object, with its separators. -/
def dumpMembers : List (Bytes × Json δ) → Bytes
  | [] => []
  | [(key, value)] => dumpString key ++ ascii ": " ++ value.dump
  | (key, value) :: rest =>
      dumpString key ++ ascii ": " ++ value.dump ++ ascii ", " ++ dumpMembers rest

end

end GMProxy.Json11
