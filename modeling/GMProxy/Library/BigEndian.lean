import Mathlib.Algebra.Group.Nat.Defs
import Mathlib.Tactic.Common

/-!
# Numbers in network byte order

A number as a block of bytes, most significant byte first, and the number that a block holds.
-/

namespace BigEndian

/-- The low `count` bytes of `value`. -/
def bytesOf : Nat → Nat → List UInt8
  | 0, _ => []
  | count + 1, value => UInt8.ofNat (value / 256 ^ count) :: bytesOf count value

def valueOf (bytes : List UInt8) : Nat := bytes.foldl (fun value b => 256 * value + b.toNat) 0

@[simp] theorem bytesOf_length (count value : Nat) : (bytesOf count value).length = count := by
  induction count with
  | zero => rfl
  | succ count ih => rw [bytesOf, List.length_cons, ih]

private theorem foldl_start (bytes : List UInt8) (start : Nat) :
    bytes.foldl (fun value b => 256 * value + b.toNat) start =
      256 ^ bytes.length * start + valueOf bytes := by
  induction bytes generalizing start with
  | nil => simp [valueOf]
  | cons b bytes ih =>
      rw [valueOf, List.foldl_cons, List.foldl_cons, ih, ih, List.length_cons, Nat.pow_succ,
        Nat.mul_add, Nat.mul_zero, Nat.zero_add, Nat.mul_assoc, Nat.add_assoc]

theorem valueOf_cons (b : UInt8) (bytes : List UInt8) :
    valueOf (b :: bytes) = 256 ^ bytes.length * b.toNat + valueOf bytes := by
  rw [valueOf, List.foldl_cons, foldl_start, Nat.mul_zero, Nat.zero_add]

theorem valueOf_lt (bytes : List UInt8) : valueOf bytes < 256 ^ bytes.length := by
  induction bytes with
  | nil => decide
  | cons b bytes ih =>
      have hbyte := b.toNat_lt
      rw [valueOf_cons, List.length_cons, Nat.pow_succ]
      calc 256 ^ bytes.length * b.toNat + valueOf bytes
          < 256 ^ bytes.length * b.toNat + 256 ^ bytes.length := by omega
        _ = 256 ^ bytes.length * (b.toNat + 1) := by rw [Nat.mul_succ]
        _ ≤ 256 ^ bytes.length * 256 := Nat.mul_le_mul_left _ (by omega)

theorem valueOf_bytesOf (count value : Nat) : valueOf (bytesOf count value) = value % 256 ^ count := by
  induction count with
  | zero => rw [Nat.pow_zero, Nat.mod_one]; rfl
  | succ count ih =>
      have hsplit : value % 256 ^ (count + 1) =
          value % 256 ^ count + 256 ^ count * (value / 256 ^ count % 256) := by
        rw [Nat.pow_succ, Nat.mod_mul]
      rw [bytesOf, valueOf_cons, bytesOf_length, ih, UInt8.toNat_ofNat', hsplit, Nat.add_comm]

theorem valueOf_bytesOf_of_lt {count value : Nat} (h : value < 256 ^ count) :
    valueOf (bytesOf count value) = value := by
  rw [valueOf_bytesOf, Nat.mod_eq_of_lt h]

private theorem valueOf_injective {xs ys : List UInt8} (hlen : xs.length = ys.length)
    (h : valueOf xs = valueOf ys) : xs = ys := by
  induction xs generalizing ys with
  | nil => exact (List.length_eq_zero_iff.mp hlen.symm).symm
  | cons x xs ih =>
      cases ys with
      | nil => cases hlen
      | cons y ys =>
          have hrest : xs.length = ys.length := Nat.succ.inj hlen
          have hx := valueOf_lt xs
          have hy := valueOf_lt ys
          rw [valueOf_cons, valueOf_cons, hrest] at h
          rw [hrest] at hx
          have hpos : 0 < 256 ^ ys.length := Nat.pow_pos (by decide)
          have hhead : x.toNat = y.toNat := by
            have hdiv := congrArg (· / 256 ^ ys.length) h
            simpa only [Nat.mul_add_div hpos, Nat.div_eq_of_lt hx, Nat.div_eq_of_lt hy,
              Nat.add_zero] using hdiv
          rw [hhead] at h
          rw [UInt8.toNat_inj.mp hhead, ih hrest (by omega)]

/-- Every block is the bytes of the number that it holds. -/
theorem bytesOf_valueOf (bytes : List UInt8) : bytesOf bytes.length (valueOf bytes) = bytes := by
  apply valueOf_injective (bytesOf_length _ _)
  exact valueOf_bytesOf_of_lt (valueOf_lt bytes)

end BigEndian
