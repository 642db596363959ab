import GMProxy.Json.Parser
import GMProxy.Library.Scan

/-!
# The language of the JSON parser

The texts that stand for a value, level by level: an array or object on one level holds texts of the
level below.
-/

namespace GMProxy.Json11

open Scan

variable {δ : Type}

def White (w : Bytes) : Prop := ∀ ch ∈ w, isSpace ch = true

/-- What a string is written with: a byte, or a code unit of UTF-16. -/
inductive Piece where
  | byte (value : UInt8)
  | unit (codepoint : Nat)

/-- The texts of a piece. -/
inductive PieceText : Bytes → Piece → Prop
  | plain {ch : UInt8} : 0x1f < ch → ch ≠ 0x22 → ch ≠ 0x5c → PieceText [ch] (.byte ch)
  | escape {ch byte : UInt8} : ch ≠ 0x75 → escaped ch = some byte → PieceText [0x5c, ch] (.byte byte)
  | unit {a b c d : UInt8} {codepoint : Nat} :
      codepointOf a b c d = some codepoint → PieceText [0x5c, 0x75, a, b, c, d] (.unit codepoint)

inductive PiecesText : Bytes → List Piece → Prop
  | nil : PiecesText [] []
  | cons {t ts : Bytes} {piece : Piece} {pieces : List Piece} :
      PieceText t piece → PiecesText ts pieces → PiecesText (t ++ ts) (piece :: pieces)

/-- The string that the pieces give: two units that are a surrogate pair are one code point. -/
def decode : List Piece → Bytes
  | [] => []
  | .byte value :: pieces => value :: decode pieces
  | .unit lead :: .unit trail :: pieces =>
      if isLead lead && isTrail trail then encodeUtf8 (pairOf lead trail) ++ decode pieces
      else encodeUtf8 lead ++ decode (.unit trail :: pieces)
  | .unit codepoint :: pieces => encodeUtf8 codepoint ++ decode pieces

/-- The texts of a string, with its quotes. -/
inductive StringText : Bytes → Bytes → Prop
  | mk {t : Bytes} {pieces : List Piece} :
      PiecesText t pieces → StringText (0x22 :: (t ++ [0x22])) (decode pieces)

/-- At least one digit. -/
def Digits (ds : Bytes) : Prop := ds ≠ [] ∧ ∀ ch ∈ ds, isDigit ch = true

def Sign (t : Bytes) : Prop := t = [] ∨ t = [0x2d]

/-- No 0 stands in front of another digit. -/
def IntegerText (t : Bytes) : Prop := t = [0x30] ∨ Digits t ∧ t.head? ≠ some 0x30

inductive FractionText : Bytes → Prop
  | absent : FractionText []
  | digits {ds : Bytes} : Digits ds → FractionText (0x2e :: ds)

inductive ExponentText : Bytes → Prop
  | absent : ExponentText []
  | digits {e : UInt8} {sign ds : Bytes} :
      isExponent e = true → sign = [] ∨ sign = [0x2b] ∨ sign = [0x2d] → Digits ds →
        ExponentText (e :: (sign ++ ds))

/-- A number with neither fraction nor exponent is an `int` when it is short. -/
inductive NumberText (doubles : Doubles δ) : Bytes → Json δ → Prop
  | int {sign int : Bytes} : Sign sign → IntegerText int → (sign ++ int).length ≤ digits10 →
      NumberText doubles (sign ++ int) (.int (atoi (sign ++ int)))
  | double {sign int fraction exponent : Bytes} :
      Sign sign → IntegerText int → FractionText fraction → ExponentText exponent →
      (fraction = [] → exponent = [] → digits10 < (sign ++ int).length) →
      NumberText doubles (sign ++ int ++ (fraction ++ exponent))
        (.double (doubles.strtod (sign ++ int ++ (fraction ++ exponent))))

/-- White space around a text. -/
inductive Spaced {α : Type} (P : Bytes → α → Prop) : Bytes → α → Prop
  | mk {w t w' : Bytes} {value : α} :
      White w → P t value → White w' → Spaced P (w ++ (t ++ w')) value

/-- What is between the brackets of an array or object. -/
inductive BlockText {α : Type} (P : Bytes → α → Prop) : Bytes → List α → Prop
  | empty {w : Bytes} : White w → BlockText P w []
  | entries {ts : Bytes} {values : List α} :
      Separated 0x2c (Spaced P) ts values → BlockText P ts values

/-- The members of an object with white space around the colon. -/
inductive MemberText (P : Bytes → Json δ → Prop) : Bytes → Bytes × Json δ → Prop
  | mk {k w w' t key : Bytes} {value : Json δ} :
      StringText k key → White w → White w' → P t value →
        MemberText P (k ++ (w ++ 0x3a :: (w' ++ t))) (key, value)

/-- The object of the members in the order of the text: a later one replaces an earlier one. -/
def members (ms : List (Bytes × Json δ)) : List (Bytes × Json δ) :=
  ms.foldl (fun data m => assign m.1 m.2 data) []

/-- The texts of a value whose elements and members have texts in `P`. -/
inductive LevelText (doubles : Doubles δ) (P : Bytes → Json δ → Prop) : Bytes → Json δ → Prop
  | nul : LevelText doubles P (ascii "null") .nul
  | boolean (value : Bool) :
      LevelText doubles P (if value then ascii "true" else ascii "false") (.boolean value)
  | number {t : Bytes} {value : Json δ} :
      NumberText doubles t value → LevelText doubles P t value
  | string {t value : Bytes} : StringText t value → LevelText doubles P t (.string value)
  | array {ts : Bytes} {values : List (Json δ)} :
      BlockText P ts values → LevelText doubles P (0x5b :: (ts ++ [0x5d])) (.array values)
  | object {ts : Bytes} {ms : List (Bytes × Json δ)} :
      BlockText (MemberText P) ts ms →
        LevelText doubles P (0x7b :: (ts ++ [0x7d])) (.object (members ms))

/-- The texts of a value with arrays and objects on fewer than `levels` levels. -/
def ValueText (doubles : Doubles δ) : Nat → Bytes → Json δ → Prop
  | 0 => fun _ _ => False
  | levels + 1 => LevelText doubles (ValueText doubles levels)

/-- A document: a value with white space around it. -/
def DocumentText (doubles : Doubles δ) (t : Bytes) (value : Json δ) : Prop :=
  Spaced (ValueText doubles (maxDepth + 1)) t value

end GMProxy.Json11
