import GMProxy.Library.Lines

/-!
# XML character data

The text between two tags, as a reader of the document gets it: references stand for one character,
the ends of lines are line feeds, and a text that the grammar does not allow stands for nothing. A
text stands for itself exactly when each of its characters does and it has no end of a CDATA section.
-/

namespace CharData

/-- The characters of a document. -/
def isChar (c : Char) : Bool :=
  c = '\t' || c = '\n' || c = '\r' || (0x20 ≤ c.toNat && c.toNat != 0xFFFE && c.toNat != 0xFFFF)

def digit (base : Nat) (c : Char) : Option Nat :=
  let value :=
    if c.isDigit then c.toNat - '0'.toNat
    else if 'a' ≤ c ∧ c ≤ 'f' then c.toNat - 'a'.toNat + 10
    else if 'A' ≤ c ∧ c ≤ 'F' then c.toNat - 'A'.toNat + 10
    else base
  if value < base then some value else none

def number (base : Nat) (digits : List Char) : Option Nat :=
  if digits = [] then none
  else digits.foldlM (fun n c => (digit base c).map (n * base + ·)) 0

/-- The character with a code point, if a document may have it. -/
def charOf (code : Nat) : Option Char :=
  if code.isValidChar ∧ isChar (Char.ofNat code) then some (Char.ofNat code) else none

/-- What stands between `&` and `;`. -/
def reference : List Char → Option Char
  | ['l', 't'] => some '<'
  | ['g', 't'] => some '>'
  | ['a', 'm', 'p'] => some '&'
  | ['q', 'u', 'o', 't'] => some (Char.ofNat 0x22)
  | ['a', 'p', 'o', 's'] => some (Char.ofNat 0x27)
  | '#' :: 'x' :: digits => (number 16 digits).bind charOf
  | '#' :: digits => (number 10 digits).bind charOf
  | _ => none

/-- The characters that a text stands for, where `pending` is what of a reference has been read. -/
def read : Option (List Char) → List Char → Option (List Char)
  | none, [] => some []
  | some _, [] => none
  | none, c :: cs =>
      if c = '&' then read (some []) cs
      else if c = '\r' then
        -- the carriage return of a CRLF goes, any other becomes a line feed
        if cs.head? = some '\n' then read none cs else (read none cs).map ('\n' :: ·)
      else if isChar c then (read none cs).map (c :: ·)
      else none
  | some name, c :: cs =>
      if c = ';' then (reference name).bind fun d => (read none cs).map (d :: ·)
      else read (some (name ++ [c])) cs

/-- The text that the character data of an element stands for. -/
def text (data : List Char) : Option (List Char) :=
  if (Lines.find "]]>".toList data).isSome then none else read none data

/-- The character stands for itself. -/
def Plain (c : Char) : Prop := c ≠ '&' ∧ c ≠ '\r' ∧ isChar c = true

instance : DecidablePred Plain :=
  fun c => inferInstanceAs (Decidable (c ≠ '&' ∧ c ≠ '\r' ∧ isChar c = true))

variable {c : Char} {pending : Option (List Char)} {data out : List Char}

theorem plain_of_isDigit (h : c.isDigit = true) : Plain c := by
  have hlow : 0x20 ≤ c.toNat := by
    rw [Char.isDigit_iff_toNat] at h
    exact Nat.le_trans (by decide) h.1
  have hhigh : c.toNat ≤ 0x39 := by
    rw [Char.isDigit_iff_toNat] at h
    exact h.2
  refine ⟨?_, ?_, ?_⟩
  · rintro rfl
    exact absurd h (by decide)
  · rintro rfl
    exact absurd h (by decide)
  · have hfffe : c.toNat ≠ 0xFFFE := by omega
    have hffff : c.toNat ≠ 0xFFFF := by omega
    simp [isChar, hlow, hfffe, hffff]

theorem length_le_of_read (h : read pending data = some out) : out.length ≤ data.length := by
  induction data generalizing pending out with
  | nil =>
      cases pending with
      | none =>
          obtain rfl := Option.some.inj h
          exact Nat.le_refl _
      | some name => cases h
  | cons c cs ih =>
      have hmap {d : Char} (h : (read none cs).map (d :: ·) = some out) :
          out.length ≤ (c :: cs).length := by
        obtain ⟨rest, hrest, rfl⟩ := Option.map_eq_some_iff.mp h
        exact Nat.succ_le_succ (ih hrest)
      cases pending with
      | none =>
          rw [read] at h
          split at h
          case isTrue => exact Nat.le_succ_of_le (ih h)
          case isFalse =>
            split at h
            case isTrue =>
              split at h
              case isTrue => exact Nat.le_succ_of_le (ih h)
              case isFalse => exact hmap h
            case isFalse =>
              split at h
              case isTrue => exact hmap h
              case isFalse => cases h
      | some name =>
          rw [read] at h
          split at h
          case isTrue =>
            obtain ⟨d, -, hd⟩ := Option.bind_eq_some_iff.mp h
            exact hmap hd
          case isFalse => exact Nat.le_succ_of_le (ih h)

/-- A character in front that stands for itself. -/
theorem read_cons (h : Plain c) (data : List Char) :
    read none (c :: data) = (read none data).map (c :: ·) := by
  rw [read, if_neg h.1, if_neg h.2.1, if_pos h.2.2]

theorem read_eq_self_iff : read none data = some data ↔ ∀ c ∈ data, Plain c := by
  induction data with
  | nil => exact ⟨fun _ c hc => absurd hc List.not_mem_nil, fun _ => rfl⟩
  | cons c cs ih =>
      rw [List.forall_mem_cons, ← ih]
      constructor
      · intro h
        have hlong : ∀ pending, read pending cs ≠ some (c :: cs) := by
          intro pending hcs
          exact Nat.not_succ_le_self _ (length_le_of_read hcs)
        have hplain : Plain c := by
          rw [read] at h
          split at h
          case isTrue => exact absurd h (hlong _)
          case isFalse hamp =>
            split at h
            case isTrue hcr =>
              split at h
              case isTrue => exact absurd h (hlong _)
              case isFalse =>
                obtain ⟨rest, -, hrest⟩ := Option.map_eq_some_iff.mp h
                rw [← (List.cons.inj hrest).1] at hcr
                exact absurd hcr (by decide)
            case isFalse hcr =>
              split at h
              case isTrue hchar => exact ⟨hamp, hcr, hchar⟩
              case isFalse => cases h
        rw [read_cons hplain] at h
        obtain ⟨rest, hread, hrest⟩ := Option.map_eq_some_iff.mp h
        obtain rfl := (List.cons.inj hrest).2
        exact ⟨hplain, hread⟩
      · intro h
        rw [read_cons h.1, h.2, Option.map_some]

theorem text_eq_self_iff :
    text data = some data ↔ (∀ c ∈ data, Plain c) ∧ ¬ "]]>".toList <:+: data := by
  rw [← Lines.find_none_iff, ← read_eq_self_iff, text]
  cases hend : Lines.find "]]>".toList data with
  | none => simp
  | some i => simp

theorem length_le_of_text (h : text data = some out) : out.length ≤ data.length := by
  rw [text] at h
  split at h
  case isTrue => cases h
  case isFalse => exact length_le_of_read h

/-- The text in front of the next tag stands for a text only if no tag begins in that one. -/
theorem text_takeWhile_eq_self_iff {sep : Char} :
    text (data.takeWhile (· ≠ sep)) = some data ↔ sep ∉ data ∧ text data = some data := by
  constructor
  · intro h
    have hwhole : data.takeWhile (· ≠ sep) = data :=
      (List.takeWhile_prefix _).eq_of_length_le (length_le_of_text h)
    rw [hwhole] at h
    exact ⟨Lines.takeWhile_ne_eq_self_iff.mp hwhole, h⟩
  · intro h
    rw [Lines.takeWhile_ne_eq_self_iff.mpr h.1, h.2]

example : text "1&amp;2&#x3C;\r\n".toList = some "1&2<\n".toList := by decide

end CharData
