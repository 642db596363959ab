import Mathlib.Algebra.Group.Int.Defs
import Mathlib.Algebra.Group.Nat.Defs
import Mathlib.Tactic.Common

/-!
# Bit strings, most significant bit first

The bits of a number in a field of fixed width, the bits of a block of bytes, and the way back from
bits to bytes.
-/

namespace BitString

/-- The low `count` bits of `value`, most significant first. -/
def bitsOf : Nat → Nat → List Bool
  | 0, _ => []
  | count + 1, value => value.testBit count :: bitsOf count value

def byteBits (b : UInt8) : List Bool := bitsOf 8 b.toNat

def toBits (bytes : List UInt8) : List Bool := bytes.flatMap byteBits

@[simp] theorem bitsOf_length (count value : Nat) : (bitsOf count value).length = count := by
  induction count with
  | zero => rfl
  | succ count ih => simp [bitsOf, ih]

theorem bitsOf_congr {count v w : Nat} (h : ∀ i < count, v.testBit i = w.testBit i) :
    bitsOf count v = bitsOf count w := by
  induction count with
  | zero => rfl
  | succ count ih =>
      rw [bitsOf, bitsOf, h count (by omega), ih fun i hi => h i (by omega)]

theorem bitsOf_mod (count value : Nat) : bitsOf count (value % 2 ^ count) = bitsOf count value := by
  apply bitsOf_congr
  intro i hi
  simp [hi]

/-- A field is the field of its high bits followed by the field of its low bits. -/
theorem bitsOf_add (m n value : Nat) :
    bitsOf (m + n) value = bitsOf m (value / 2 ^ n) ++ bitsOf n value := by
  induction m with
  | zero => simp [bitsOf]
  | succ m ih =>
      rw [Nat.succ_add, bitsOf, ih, bitsOf, Nat.testBit_div_two_pow, List.cons_append]

theorem bitsOf_getElem? {count value i : Nat} (h : i < count) :
    (bitsOf count value)[i]? = some (value.testBit (count - 1 - i)) := by
  induction count generalizing i with
  | zero => omega
  | succ count ih =>
      cases i with
      | zero => simp [bitsOf]
      | succ i =>
          rw [bitsOf, List.getElem?_cons_succ, ih (by omega)]
          congr 2
          omega

theorem bitsOf_injective {count v w : Nat} (hv : v < 2 ^ count) (hw : w < 2 ^ count)
    (h : bitsOf count v = bitsOf count w) : v = w := by
  apply Nat.eq_of_testBit_eq
  intro i
  by_cases hi : i < count
  · have hbit := congrArg (fun l => l[count - 1 - i]?) h
    simp only [bitsOf_getElem? (show count - 1 - i < count by omega)] at hbit
    rw [show count - 1 - (count - 1 - i) = i by omega] at hbit
    exact Option.some.inj hbit
  · have hpow : 2 ^ count ≤ 2 ^ i := Nat.pow_le_pow_right (by decide) (by omega)
    rw [Nat.testBit_lt_two_pow (by omega), Nat.testBit_lt_two_pow (by omega)]

/-- Every bit string is a field. -/
theorem exists_bitsOf (bits : List Bool) :
    ∃ value < 2 ^ bits.length, bitsOf bits.length value = bits := by
  induction bits with
  | nil => exact ⟨0, by simp, rfl⟩
  | cons b bits ih =>
      obtain ⟨value, hlt, hbits⟩ := ih
      refine ⟨2 ^ bits.length * b.toNat + value, ?_, ?_⟩
      · rw [List.length_cons, Nat.pow_succ]
        cases b <;> simp only [Bool.toNat_false, Bool.toNat_true] <;> omega
      · rw [List.length_cons, bitsOf]
        congr 1
        · rw [Nat.testBit_two_pow_mul_add _ hlt, if_neg (by omega), Nat.sub_self]
          cases b <;> rfl
        · rw [← bitsOf_mod, Nat.mul_add_mod, Nat.mod_eq_of_lt hlt, hbits]

/-- The number that a bit string writes. -/
def bitsValue (bits : List Bool) : Nat := bits.foldl (fun value bit => 2 * value + bit.toNat) 0

private theorem foldl_bitsOf (count value start : Nat) :
    (bitsOf count value).foldl (fun value bit => 2 * value + bit.toNat) start =
      2 ^ count * start + value % 2 ^ count := by
  induction count generalizing start with
  | zero => simp [bitsOf, Nat.mod_one]
  | succ count ih =>
      rw [bitsOf, List.foldl_cons, ih, Nat.toNat_testBit, Nat.pow_succ, Nat.mod_mul, Nat.mul_add,
        ← Nat.mul_assoc]
      omega

theorem bitsValue_bitsOf (count value : Nat) : bitsValue (bitsOf count value) = value % 2 ^ count := by
  rw [bitsValue, foldl_bitsOf, Nat.mul_zero, Nat.zero_add]

@[simp] theorem byteBits_length (b : UInt8) : (byteBits b).length = 8 := bitsOf_length 8 _

@[simp] theorem toBits_nil : toBits [] = [] := rfl

theorem toBits_cons (b : UInt8) (bytes : List UInt8) :
    toBits (b :: bytes) = byteBits b ++ toBits bytes :=
  List.flatMap_cons ..

theorem toBits_append (xs ys : List UInt8) : toBits (xs ++ ys) = toBits xs ++ toBits ys :=
  List.flatMap_append

@[simp] theorem toBits_length (bytes : List UInt8) : (toBits bytes).length = 8 * bytes.length := by
  induction bytes with
  | nil => rfl
  | cons b bytes ih =>
      rw [toBits_cons, List.length_append, byteBits_length, ih, List.length_cons]
      omega

theorem byteBits_ofNat (value : Nat) : byteBits (UInt8.ofNat value) = bitsOf 8 value := by
  rw [byteBits, UInt8.toNat_ofNat', bitsOf_mod]

theorem byteBits_injective {a b : UInt8} (h : byteBits a = byteBits b) : a = b :=
  UInt8.toNat_inj.mp (bitsOf_injective a.toNat_lt b.toNat_lt h)

theorem toBits_injective {xs ys : List UInt8} (h : toBits xs = toBits ys) : xs = ys := by
  induction xs generalizing ys with
  | nil =>
      have hlen := congrArg List.length h
      simp only [toBits_length, List.length_nil] at hlen
      exact (List.length_eq_zero_iff.mp (by omega)).symm
  | cons x xs ih =>
      cases ys with
      | nil =>
          have hlen := congrArg List.length h
          simp only [toBits_length, List.length_cons, List.length_nil] at hlen
          omega
      | cons y ys =>
          rw [toBits_cons, toBits_cons] at h
          obtain ⟨hhead, htail⟩ := List.append_inj h (by simp)
          rw [byteBits_injective hhead, ih htail]

/-- Every string of whole bytes is the bits of a block. -/
theorem exists_toBits (n : Nat) (bits : List Bool) (h : bits.length = 8 * n) :
    ∃ bytes, bytes.length = n ∧ toBits bytes = bits := by
  induction n generalizing bits with
  | zero => exact ⟨[], rfl, (List.length_eq_zero_iff.mp h).symm⟩
  | succ n ih =>
      obtain ⟨bytes, hlen, hbytes⟩ := ih (bits.drop 8) (by rw [List.length_drop]; omega)
      have htake : (bits.take 8).length = 8 := by
        rw [List.length_take]
        omega
      obtain ⟨value, -, hvalue⟩ := exists_bitsOf (bits.take 8)
      rw [htake] at hvalue
      refine ⟨UInt8.ofNat value :: bytes, by rw [List.length_cons, hlen], ?_⟩
      rw [toBits_cons, byteBits_ofNat, hvalue, hbytes, List.take_append_drop]

/-- Bit `k` of a block is bit `7 - k % 8` of byte `k / 8`. -/
theorem toBits_getElem? {bytes : List UInt8} {k : Nat} {b : UInt8} (h : bytes[k / 8]? = some b) :
    (toBits bytes)[k]? = some (b.toNat.testBit (7 - k % 8)) := by
  induction bytes generalizing k with
  | nil => simp at h
  | cons c bytes ih =>
      rw [toBits_cons]
      by_cases hk : k < 8
      · rw [Nat.div_eq_of_lt hk, List.getElem?_cons_zero] at h
        rw [List.getElem?_append_left (by simpa using hk), byteBits, bitsOf_getElem? hk,
          Option.some.inj h, Nat.mod_eq_of_lt hk]
      · obtain ⟨j, rfl⟩ : ∃ j, k = j + 8 := ⟨k - 8, by omega⟩
        rw [Nat.add_div_right _ (by decide), List.getElem?_cons_succ] at h
        rw [List.getElem?_append_right (by simp), byteBits_length, Nat.add_sub_cancel, ih h,
          Nat.add_mod_right]

end BitString
