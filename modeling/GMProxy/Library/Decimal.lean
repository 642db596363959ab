import Mathlib.Data.List.TakeWhile
import Mathlib.Tactic.Common

/-!
# Decimal texts

The decimal text of an integer and what a reader of leading digits makes of a text.
-/

namespace Decimal

/-- The decimal text of an integer. -/
def decimal (n : Int) : List Char := (toString n).toList

/-- The number that the digits in front of a text give. -/
def digits (text : List Char) : Nat := Nat.ofDigitChars 10 (text.takeWhile Char.isDigit) 0

/-- A sign and digits; anything else behind them is ignored. -/
def parse : List Char → Int
  | '-' :: text => -digits text
  | '+' :: text => digits text
  | text => digits text

variable {n : Int} {c : Char}

theorem decimal_of_nonneg (h : 0 ≤ n) : decimal n = Nat.toDigits 10 n.toNat := by
  rw [decimal, Int.toString_eq_repr, Int.repr_eq_if, if_pos h, Nat.toList_repr]

theorem decimal_of_neg (h : n < 0) : decimal n = '-' :: Nat.toDigits 10 (-n).toNat := by
  rw [decimal, Int.toString_eq_repr, Int.repr_eq_if, if_neg (Int.not_le.mpr h), String.toList_append,
    Nat.toList_repr]
  rfl

theorem mem_decimal (h : c ∈ decimal n) : c = '-' ∨ c.isDigit = true := by
  by_cases hn : 0 ≤ n
  · rw [decimal_of_nonneg hn] at h
    exact Or.inr (Nat.isDigit_of_mem_toDigits (by decide) (by decide) h)
  · rw [decimal_of_neg (Int.not_le.mp hn), List.mem_cons] at h
    exact h.imp_right (Nat.isDigit_of_mem_toDigits (by decide) (by decide))

private theorem digits_toDigits (k : Nat) : digits (Nat.toDigits 10 k) = k := by
  have hall : ∀ c ∈ Nat.toDigits 10 k, c.isDigit = true :=
    fun c hc => Nat.isDigit_of_mem_toDigits (by decide) (by decide) hc
  have htake : (Nat.toDigits 10 k).takeWhile Char.isDigit = Nat.toDigits 10 k := by
    rw [List.takeWhile_eq_self_iff]
    exact hall
  rw [digits, htake, Nat.ofDigitChars_ten_toDigits]

theorem parse_decimal (n : Int) : parse (decimal n) = n := by
  by_cases hn : 0 ≤ n
  · rw [decimal_of_nonneg hn]
    have hread := digits_toDigits n.toNat
    cases htext : Nat.toDigits 10 n.toNat with
    | nil => exact absurd htext Nat.toDigits_ne_nil
    | cons d text =>
        have hd : d.isDigit = true := by
          apply Nat.isDigit_of_mem_toDigits (b := 10) (n := n.toNat) (by decide) (by decide)
          rw [htext]
          exact List.mem_cons_self ..
        rw [htext] at hread
        unfold parse
        split
        case h_1 heq =>
          obtain ⟨rfl, -⟩ := List.cons.inj heq
          exact absurd hd (by decide)
        case h_2 heq =>
          obtain ⟨rfl, -⟩ := List.cons.inj heq
          exact absurd hd (by decide)
        case h_3 =>
          rw [hread]
          omega
  · rw [decimal_of_neg (Int.not_le.mp hn), parse, digits_toDigits]
    omega

end Decimal
