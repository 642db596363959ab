import GMProxy.Json.Value

/-!
# The JSON parser

`Json::parse` of json11 with the strategy `JsonParse::STANDARD`. The position in the input is the rest
of the input from there on, and `str[i]` behind the end is 0. A parse that fails goes on in the source,
but keeps its first message and consumes nothing more, so it ends here with that message.
-/

namespace GMProxy.Json11

variable {δ : Type}

def maxDepth : Nat := 200

def isDigit (ch : UInt8) : Bool := 0x30 ≤ ch && ch ≤ 0x39

def isSpace (ch : UInt8) : Bool := ch = 0x20 || ch = 0x0d || ch = 0x0a || ch = 0x09

/-- A byte as a `char`, which is signed. -/
def charValue (ch : UInt8) : Int := if ch < 0x80 then ch.toNat else (ch.toNat : Int) - 256

def esc (ch : UInt8) : Bytes :=
  if 0x20 ≤ ch ∧ ch ≤ 0x7f then [0x27, ch] ++ ascii "' (" ++ decimal (charValue ch) ++ ascii ")"
  else ascii "(" ++ decimal (charValue ch) ++ ascii ")"

/-- `str[i]`. -/
def peek : Bytes → UInt8
  | [] => 0
  | ch :: _ => ch

@[simp] theorem peek_nil : peek [] = 0 := rfl
@[simp] theorem peek_cons (ch : UInt8) (rest : Bytes) : peek (ch :: rest) = ch := rfl

def consumeWhitespace (str : Bytes) : Bytes := str.dropWhile isSpace

def getNextToken (str : Bytes) : Except Bytes (UInt8 × Bytes) :=
  match consumeWhitespace str with
  | [] => .error (ascii "unexpected end of input")
  | ch :: rest => .ok (ch, rest)

def encodeUtf8 (pt : Nat) : Bytes :=
  if pt < 0x80 then [UInt8.ofNat pt]
  else if pt < 0x800 then [UInt8.ofNat (pt / 64 ||| 0xc0), UInt8.ofNat (pt % 64 ||| 0x80)]
  else if pt < 0x10000 then
    [UInt8.ofNat (pt / 4096 ||| 0xe0), UInt8.ofNat (pt / 64 % 64 ||| 0x80),
      UInt8.ofNat (pt % 64 ||| 0x80)]
  else
    [UInt8.ofNat (pt / 262144 ||| 0xf0), UInt8.ofNat (pt / 4096 % 64 ||| 0x80),
      UInt8.ofNat (pt / 64 % 64 ||| 0x80), UInt8.ofNat (pt % 64 ||| 0x80)]

/-- `encode_utf8` of `last_escaped_codepoint`, which is negative when there is none. -/
def encodeLast (last : Option Nat) : Bytes := (last.map encodeUtf8).getD []

/-- The value of a hexadecimal digit. -/
def hexValue (ch : UInt8) : Option Nat :=
  if isDigit ch then some (ch.toNat - 0x30)
  else if 0x61 ≤ ch ∧ ch ≤ 0x66 then some (ch.toNat - 0x57)
  else if 0x41 ≤ ch ∧ ch ≤ 0x46 then some (ch.toNat - 0x37)
  else none

/-- The code point of four hexadecimal digits. -/
def codepointOf (a b c d : UInt8) : Option Nat := do
  let a ← hexValue a
  let b ← hexValue b
  let c ← hexValue c
  let d ← hexValue d
  some (4096 * a + 256 * b + 16 * c + d)

def isLead (pt : Nat) : Bool := 0xd800 ≤ pt && pt ≤ 0xdbff
def isTrail (pt : Nat) : Bool := 0xdc00 ≤ pt && pt ≤ 0xdfff

/-- The code point of a surrogate pair. -/
def pairOf (lead trail : Nat) : Nat := 1024 * (lead - 0xd800) + (trail - 0xdc00) + 0x10000

/-- What an escape character other than `u` stands for. -/
def escaped (ch : UInt8) : Option UInt8 :=
  if ch = 0x62 then some 0x08
  else if ch = 0x66 then some 0x0c
  else if ch = 0x6e then some 0x0a
  else if ch = 0x72 then some 0x0d
  else if ch = 0x74 then some 0x09
  else if ch = 0x22 ∨ ch = 0x5c ∨ ch = 0x2f then some ch
  else none

/-- The loop of `parse_string` behind the opening quote. -/
def parseChars (last : Option Nat) (out : Bytes) : Bytes → Except Bytes (Bytes × Bytes)
  | [] => .error (ascii "unexpected end of input in string")
  | ch :: rest =>
      if ch = 0x22 then .ok (out ++ encodeLast last, rest)
      else if ch ≤ 0x1f then .error (ascii "unescaped " ++ esc ch ++ ascii " in string")
      else if ch ≠ 0x5c then parseChars none (out ++ encodeLast last ++ [ch]) rest
      else
        match rest with
        | [] => .error (ascii "unexpected end of input in string")
        | 0x75 :: a :: b :: c :: d :: rest =>
            match codepointOf a b c d with
            | none => .error (ascii "bad \\u escape: " ++ [a, b, c, d])
            | some codepoint =>
                match last with
                | some lead =>
                    if isLead lead && isTrail codepoint then
                      parseChars none (out ++ encodeUtf8 (pairOf lead codepoint)) rest
                    else parseChars (some codepoint) (out ++ encodeUtf8 lead) rest
                | none => parseChars (some codepoint) out rest
        | ch :: rest =>
            if ch = 0x75 then .error (ascii "bad \\u escape: " ++ rest)
            else
              match escaped ch with
              | some byte => parseChars none (out ++ encodeLast last ++ [byte]) rest
              | none => .error (ascii "invalid escape character " ++ esc ch)

def parseString (str : Bytes) : Except Bytes (Bytes × Bytes) := parseChars none [] str

/-- `atoi` on a text that starts with a number of at most nine characters. -/
def atoi (str : Bytes) : Int32 :=
  let digits := (if str.head? = some 0x2d then str.tail else str).takeWhile isDigit
  let value : Int := digits.foldl (fun n ch => 10 * n + (ch.toNat - 0x30 : Nat)) 0
  Int32.ofInt (if str.head? = some 0x2d then -value else value)

/-- The integer part of a number; the sign stands before it. -/
def integerPart (str : Bytes) : Except Bytes Bytes :=
  match str with
  | 0x30 :: rest =>
      if isDigit (peek rest) then .error (ascii "leading 0s not permitted in numbers")
      else .ok rest
  | _ =>
      if isDigit (peek str) then .ok (str.dropWhile isDigit)
      else .error (ascii "invalid " ++ esc (peek str) ++ ascii " in number")

def decimalPart (str : Bytes) : Except Bytes Bytes :=
  if peek str = 0x2e then
    if isDigit (peek str.tail) then .ok (str.tail.dropWhile isDigit)
    else .error (ascii "at least one digit required in fractional part")
  else .ok str

def isExponent (ch : UInt8) : Bool := ch = 0x65 || ch = 0x45

/-- The sign of an exponent is skipped. -/
def skipSign (str : Bytes) : Bytes :=
  if peek str = 0x2b ∨ peek str = 0x2d then str.tail else str

def exponentPart (str : Bytes) : Except Bytes Bytes :=
  if isExponent (peek str) then
    if isDigit (peek (skipSign str.tail)) then .ok ((skipSign str.tail).dropWhile isDigit)
    else .error (ascii "at least one digit required in exponent")
  else .ok str

/-- `std::numeric_limits<int>::digits10`. -/
def digits10 : Nat := 9

variable (doubles : Doubles δ)

def parseNumber (str : Bytes) : Except Bytes (Json δ × Bytes) := do
  let behind ← integerPart (if peek str = 0x2d then str.tail else str)
  if peek behind ≠ 0x2e ∧ isExponent (peek behind) = false ∧
      str.length - behind.length ≤ digits10 then
    return (.int (atoi str), behind)
  else
    let rest ← exponentPart (← decimalPart behind)
    return (.double (doubles.strtod (str.take (str.length - rest.length))), rest)

/-- `expect`, from the character that was just read. -/
def expect (expected : Bytes) (res : Json δ) (str : Bytes) : Except Bytes (Json δ × Bytes) :=
  if expected.isPrefixOf str then .ok (res, str.drop expected.length)
  else .error (ascii "parse error: expected " ++ expected ++ ascii ", got " ++
    str.take expected.length)

/-- The loop of an array or object, from the first character of an entry on. Each pass consumes a
character, so the length of the input bounds the passes. -/
def parseEntries {α σ : Type} (close : UInt8) (place : Bytes) (store : σ → α → σ)
    (entry : Bytes → Except Bytes (α × Bytes)) : Nat → σ → Bytes → Except Bytes (σ × Bytes)
  | 0, _, _ => .error []
  | passes + 1, data, str => do
      let (value, str) ← entry str
      let (ch, str) ← getNextToken str
      if ch = close then return (store data value, str)
      else if ch ≠ 0x2c then .error (ascii "expected ',' in " ++ place ++ ascii ", got " ++ esc ch)
      else
        let (ch, str) ← getNextToken str
        parseEntries close place store entry passes (store data value) (ch :: str)

/-- An array or object behind its opening bracket. -/
def parseBlock {α σ : Type} (close : UInt8) (place : Bytes) (store : σ → α → σ) (empty : σ)
    (entry : Bytes → Except Bytes (α × Bytes)) (str : Bytes) : Except Bytes (σ × Bytes) := do
  let (ch, str) ← getNextToken str
  if ch = close then return (empty, str)
  else parseEntries close place store entry (str.length + 1) empty (ch :: str)

def parseItems (element : Bytes → Except Bytes (Json δ × Bytes)) (str : Bytes) :
    Except Bytes (List (Json δ) × Bytes) :=
  parseBlock 0x5d (ascii "list") (fun data value => data ++ [value]) [] element str

/-- A member of an object. -/
def parseMember (element : Bytes → Except Bytes (Json δ × Bytes)) (str : Bytes) :
    Except Bytes ((Bytes × Json δ) × Bytes) := do
  if peek str ≠ 0x22 then .error (ascii "expected '\"' in object, got " ++ esc (peek str))
  else
    let (key, str) ← parseString str.tail
    let (ch, str) ← getNextToken str
    if ch ≠ 0x3a then .error (ascii "expected ':' in object, got " ++ esc ch)
    else
      let (value, str) ← element str
      return ((key, value), str)

def parseMembers (element : Bytes → Except Bytes (Json δ × Bytes)) (str : Bytes) :
    Except Bytes (List (Bytes × Json δ) × Bytes) :=
  parseBlock 0x7d (ascii "object") (fun data m => assign m.1 m.2 data) [] (parseMember element) str

/-- `parse_json` with the levels that are left of `max_depth`. -/
def parseJson : Nat → Bytes → Except Bytes (Json δ × Bytes)
  | 0, _ => .error (ascii "exceeded maximum nesting depth")
  | levels + 1, str => do
      let (ch, rest) ← getNextToken str
      if ch = 0x2d ∨ isDigit ch then parseNumber doubles (ch :: rest)
      else if ch = 0x74 then expect (ascii "true") (.boolean true) (ch :: rest)
      else if ch = 0x66 then expect (ascii "false") (.boolean false) (ch :: rest)
      else if ch = 0x6e then expect (ascii "null") .nul (ch :: rest)
      else if ch = 0x22 then
        let (value, rest) ← parseString rest
        return (.string value, rest)
      else if ch = 0x7b then
        let (data, rest) ← parseMembers (parseJson levels) rest
        return (.object data, rest)
      else if ch = 0x5b then
        let (data, rest) ← parseItems (parseJson levels) rest
        return (.array data, rest)
      else .error (ascii "expected value, got " ++ esc ch)

/-- `Json::parse`; a message stands for the value null. -/
def parse (str : Bytes) : Except Bytes (Json δ) := do
  let (result, rest) ← parseJson doubles (maxDepth + 1) str
  match consumeWhitespace rest with
  | [] => return result
  | ch :: _ => .error (ascii "unexpected trailing " ++ esc ch)

end GMProxy.Json11
