import Mathlib.Algebra.Group.Nat.Defs
import GMProxy.Json.Acceptance
import GMProxy.Library.Decimal

/-!
# What `dump` writes

The text of a value belongs to the language. It stands for the value that is read again: a number that
`dump` writes with more than nine characters, or with a point or an exponent, comes back as a double,
and a double that is written without them comes back as an `int`.
-/

namespace GMProxy.Json11

open Scan

variable {δ : Type} {doubles : Doubles δ}

theorem hexValue_hexDigit {n : Nat} (h : n < 16) : hexValue (hexDigit n) = some n := by
  revert n
  decide

theorem encodeUtf8_toNat {ch : UInt8} (h : ch ≤ 0x1f) : encodeUtf8 ch.toNat = [ch] := by
  have hlt : ch.toNat < 0x80 := lt_of_le_of_lt (UInt8.le_iff_toNat_le.mp h) (by decide)
  rw [encodeUtf8, if_pos hlt, UInt8.ofNat_toNat]

theorem decode_unit {codepoint : Nat} (h : isLead codepoint = false) (pieces : List Piece) :
    decode (.unit codepoint :: pieces) = encodeUtf8 codepoint ++ decode pieces := by
  cases pieces with
  | nil => rfl
  | cons piece pieces =>
      cases piece with
      | byte value => rfl
      | unit trail => exact decode_alone (by simp [h]) pieces

/-- The text of a control character. -/
theorem control_text {ch : UInt8} (h : ch ≤ 0x1f) :
    PieceText (ascii "\\u00" ++ [hexDigit (ch.toNat / 16), hexDigit (ch.toNat % 16)])
      (.unit ch.toNat) := by
  have hlt : ch.toNat < 0x20 := lt_of_le_of_lt (UInt8.le_iff_toNat_le.mp h) (by decide)
  have hcode : codepointOf 0x30 0x30 (hexDigit (ch.toNat / 16)) (hexDigit (ch.toNat % 16)) =
      some ch.toNat := by
    rw [codepointOf, hexValue_hexDigit (by omega), hexValue_hexDigit (by omega)]
    have hzero : hexValue 0x30 = some 0 := by decide
    simp only [hzero, Option.bind_eq_bind, Option.bind_some, Option.some.injEq]
    omega
  exact .unit hcode

theorem escape_text (ch byte : UInt8) (hletter : ch ≠ 0x75) (hbyte : escaped ch = some byte) :
    PieceText [0x5c, ch] (.byte byte) := .escape hletter hbyte

/-- The text between the quotes is one of the string. -/
theorem dumpChars_text (s : Bytes) : ∃ pieces, PiecesText (dumpChars s) pieces ∧ decode pieces = s := by
  fun_induction dumpChars s with
  | case1 rest ih =>
      obtain ⟨pieces, htext, rfl⟩ := ih
      have hunit : PieceText (ascii "\\u2028") (.unit 0x2028) := .unit (by decide)
      exact ⟨_, .cons hunit htext, decode_unit (by decide) _⟩
  | case2 rest ih =>
      obtain ⟨pieces, htext, rfl⟩ := ih
      have hunit : PieceText (ascii "\\u2029") (.unit 0x2029) := .unit (by decide)
      exact ⟨_, .cons hunit htext, decode_unit (by decide) _⟩
  | case3 => exact ⟨[], .nil, rfl⟩
  | case4 ch rest _ _ ih =>
      obtain ⟨pieces, htext, rfl⟩ := ih
      by_cases hbackslash : ch = 0x5c
      · subst hbackslash
        exact ⟨_, .cons (escape_text 0x5c 0x5c (by decide) (by decide)) htext, rfl⟩
      by_cases hquote : ch = 0x22
      · subst hquote
        exact ⟨_, .cons (escape_text 0x22 0x22 (by decide) (by decide)) htext, rfl⟩
      by_cases hb : ch = 0x08
      · subst hb
        exact ⟨_, .cons (escape_text 0x62 0x08 (by decide) (by decide)) htext, rfl⟩
      by_cases hf : ch = 0x0c
      · subst hf
        exact ⟨_, .cons (escape_text 0x66 0x0c (by decide) (by decide)) htext, rfl⟩
      by_cases hn : ch = 0x0a
      · subst hn
        exact ⟨_, .cons (escape_text 0x6e 0x0a (by decide) (by decide)) htext, rfl⟩
      by_cases hr : ch = 0x0d
      · subst hr
        exact ⟨_, .cons (escape_text 0x72 0x0d (by decide) (by decide)) htext, rfl⟩
      by_cases ht : ch = 0x09
      · subst ht
        exact ⟨_, .cons (escape_text 0x74 0x09 (by decide) (by decide)) htext, rfl⟩
      rw [if_neg hbackslash, if_neg hquote, if_neg hb, if_neg hf, if_neg hn, if_neg hr, if_neg ht]
      by_cases hcontrol : ch ≤ 0x1f
      · rw [if_pos hcontrol]
        refine ⟨_, .cons (control_text hcontrol) htext, ?_⟩
        rw [decode_unit, encodeUtf8_toNat hcontrol, List.singleton_append]
        have hlt : ch.toNat < 0x20 := lt_of_le_of_lt (UInt8.le_iff_toNat_le.mp hcontrol) (by decide)
        simp only [isLead, Bool.and_eq_false_iff, decide_eq_false_iff_not]
        omega
      · rw [if_neg hcontrol]
        exact ⟨_, .cons (.plain (UInt8.not_le.mp hcontrol) hquote hbackslash) htext, rfl⟩

theorem dumpString_text (s : Bytes) : StringText (dumpString s) s := by
  obtain ⟨pieces, htext, hdecode⟩ := dumpChars_text s
  have h := StringText.mk htext
  rw [hdecode] at h
  exact h

/-- The digits of a number. -/
def digitBytes (k : Nat) : Bytes := (Nat.toDigits 10 k).map fun c => UInt8.ofNat c.toNat

theorem decimal_of_nonneg {n : Int} (h : 0 ≤ n) : decimal n = digitBytes n.toNat := by
  rw [decimal, ascii, ← Decimal.decimal, Decimal.decimal_of_nonneg h, digitBytes]

theorem decimal_of_neg {n : Int} (h : n < 0) : decimal n = 0x2d :: digitBytes (-n).toNat := by
  rw [decimal, ascii, ← Decimal.decimal, Decimal.decimal_of_neg h, digitBytes]
  rfl

theorem digitBytes_of_lt {k : Nat} (h : k < 10) : digitBytes k = [UInt8.ofNat (48 + k)] := by
  revert k
  decide

theorem digitBytes_append {m k : Nat} (hm : 0 < m) (hk : k < 10) :
    digitBytes (10 * m + k) = digitBytes m ++ [UInt8.ofNat (48 + k)] := by
  rw [← digitBytes_of_lt hk, digitBytes, ← Nat.toDigits_append_toDigits (by decide) hm hk,
    List.map_append, digitBytes, digitBytes]

theorem isDigit_digit {k : Nat} (h : k < 10) : isDigit (UInt8.ofNat (48 + k)) = true := by
  revert k
  decide

theorem digit_value {k : Nat} (h : k < 10) : (UInt8.ofNat (48 + k)).toNat - 0x30 = k := by
  revert k
  decide

theorem digitBytes_digits (k : Nat) : Digits (digitBytes k) := by
  induction k using Nat.base_induction 10 (by decide) with
  | single k hk =>
      rw [digitBytes_of_lt hk]
      exact ⟨by simp, by simpa using isDigit_digit hk⟩
  | digit m k hk hm ih =>
      rw [digitBytes_append hm hk]
      refine ⟨by simp, ?_⟩
      intro ch hch
      rcases List.mem_append.mp hch with h | h
      · exact ih.2 ch h
      · rw [List.mem_singleton.mp h]
        exact isDigit_digit hk

theorem digitBytes_head {k : Nat} (h : 0 < k) : (digitBytes k).head? ≠ some 0x30 := by
  induction k using Nat.base_induction 10 (by decide) with
  | single k hk =>
      rw [digitBytes_of_lt hk]
      revert k
      decide
  | digit m k hk hm ih =>
      rw [digitBytes_append hm hk]
      have hne := (digitBytes_digits m).1
      cases hd : digitBytes m with
      | nil => exact absurd hd hne
      | cons d ds =>
          rw [hd] at ih
          exact ih hm

theorem digitBytes_text (k : Nat) : IntegerText (digitBytes k) := by
  rcases Nat.eq_zero_or_pos k with rfl | hk
  · exact Or.inl (by decide)
  · exact Or.inr ⟨digitBytes_digits k, digitBytes_head hk⟩

theorem digitBytes_value (k : Nat) :
    (digitBytes k).foldl (fun (n : Int) ch => 10 * n + (ch.toNat - 0x30 : Nat)) 0 = k := by
  induction k using Nat.base_induction 10 (by decide) with
  | single k hk =>
      rw [digitBytes_of_lt hk, List.foldl_cons, digit_value hk]
      simp
  | digit m k hk hm ih =>
      rw [digitBytes_append hm hk, List.foldl_append, ih, List.foldl_cons, digit_value hk]
      simp

theorem digitBytes_length_le {k m : Nat} (hm : 0 < m) : (digitBytes k).length ≤ m ↔ k < 10 ^ m := by
  rw [digitBytes, List.length_map, Nat.length_toDigits_le_iff (by omega) hm]

/-- Where an integer is written with at most nine characters. -/
def Short (n : Int) : Prop := -100000000 < n ∧ n < 1000000000

instance (n : Int) : Decidable (Short n) := inferInstanceAs (Decidable (_ ∧ _))

theorem decimal_length_le (n : Int) : (decimal n).length ≤ digits10 ↔ Short n := by
  rcases Int.lt_or_le n 0 with h | h
  · rw [decimal_of_neg h, List.length_cons, digits10, Nat.succ_le_succ_iff,
      digitBytes_length_le (by decide), Short]
    omega
  · rw [decimal_of_nonneg h, digits10, digitBytes_length_le (by decide), Short]
    omega

theorem digitBytes_takeWhile (k : Nat) : (digitBytes k).takeWhile isDigit = digitBytes k :=
  List.takeWhile_eq_self_iff.mpr (digitBytes_digits k).2

theorem atoi_decimal (n : Int) : atoi (decimal n) = Int32.ofInt n := by
  rcases Int.lt_or_le n 0 with h | h
  · rw [decimal_of_neg h, atoi]
    simp only [List.head?_cons, List.tail_cons, if_true, digitBytes_takeWhile, digitBytes_value]
    congr 1
    omega
  · have hhead : (digitBytes n.toNat).head? ≠ some 0x2d := by
      intro hhead
      have hd := (digitBytes_digits n.toNat).2 0x2d (List.mem_of_mem_head? hhead)
      exact absurd hd (by decide)
    rw [decimal_of_nonneg h, atoi]
    simp only [if_neg hhead, digitBytes_takeWhile, digitBytes_value]
    congr 1
    omega

/-- An integer that is read again. -/
def rereadInteger (doubles : Doubles δ) (n : Int) : Json δ :=
  if Short n then .int (Int32.ofInt n) else .double (doubles.strtod (decimal n))

theorem decimal_text (doubles : Doubles δ) (n : Int) :
    NumberText doubles (decimal n) (rereadInteger doubles n) := by
  obtain ⟨sign, int, htext, hsign, hint⟩ : ∃ sign int, decimal n = sign ++ int ∧ Sign sign ∧
      IntegerText int := by
    rcases Int.lt_or_le n 0 with h | h
    · exact ⟨[0x2d], _, decimal_of_neg h, Or.inr rfl, digitBytes_text _⟩
    · exact ⟨[], _, decimal_of_nonneg h, Or.inl rfl, digitBytes_text _⟩
  unfold rereadInteger
  by_cases hshort : Short n
  · have hlen := (decimal_length_le n).mpr hshort
    rw [htext] at hlen
    rw [if_pos hshort, ← atoi_decimal, htext]
    exact .int hsign hint hlen
  · have hlen := mt (decimal_length_le n).mp hshort
    rw [htext] at hlen
    rw [if_neg hshort, htext]
    have h : NumberText doubles (sign ++ int ++ ([] ++ [])) _ :=
      .double hsign hint .absent .absent fun _ _ => Nat.lt_of_not_le hlen
    simpa using h

/-- A text without a point and an exponent. -/
def Plain (t : Bytes) : Prop := ∀ ch ∈ t, ch ≠ 0x2e ∧ isExponent ch = false

instance (t : Bytes) : Decidable (Plain t) := inferInstanceAs (Decidable (∀ _ ∈ _, _))

/-- The value of the text of a number. -/
def numberOf (doubles : Doubles δ) (t : Bytes) : Json δ :=
  if Plain t ∧ t.length ≤ digits10 then .int (atoi t) else .double (doubles.strtod t)

theorem plain_integer {sign int : Bytes} (hsign : Sign sign) (hint : IntegerText int) :
    Plain (sign ++ int) := by
  intro ch hch
  rcases List.mem_append.mp hch with h | h
  · rcases hsign with rfl | rfl
    · simp at h
    · rw [List.mem_singleton.mp h]
      decide
  · have hd : isDigit ch = true := by
      rcases hint with rfl | ⟨hds, _⟩
      · rw [List.mem_singleton.mp h]
        decide
      · exact hds.2 ch h
    refine ⟨?_, ?_⟩
    · rintro rfl
      exact absurd hd (by decide)
    · rw [Bool.eq_false_iff]
      intro he
      simp only [isExponent, Bool.or_eq_true, decide_eq_true_eq] at he
      rcases he with rfl | rfl <;> exact absurd hd (by decide)

/-- A number has only one value. -/
theorem numberText_numberOf {t : Bytes} {v : Json δ} (h : NumberText doubles t v) :
    v = numberOf doubles t := by
  cases h with
  | int hsign hint hlen => rw [numberOf, if_pos ⟨plain_integer hsign hint, hlen⟩]
  | @double sign int fraction exponent hsign hint hf he hlong =>
      rw [numberOf, if_neg]
      rintro ⟨hplain, hlen⟩
      cases hf with
      | digits => exact (hplain 0x2e (by simp)).1 rfl
      | absent =>
          cases he with
          | @digits e _ _ hexp => simp [(hplain e (by simp)).2] at hexp
          | absent => exact Nat.not_lt.mpr hlen (by simpa using hlong rfl rfl)

end GMProxy.Json11
