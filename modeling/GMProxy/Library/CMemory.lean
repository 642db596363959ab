import Mathlib.Algebra.Group.Int.Defs
import Mathlib.Algebra.Group.Nat.Defs
import Mathlib.Tactic.Common

/-!
# C integers and byte memory

Conversions between the fixed-width integer types of a two's complement machine with 32-bit `int`
and 64-bit `size_t`, and the `memcpy` and `realloc` of byte blocks. A read outside a block has no
value: it is `none`.
-/

namespace CMemory

def toInt (z : Int) : Int := z.bmod (2 ^ 32)

def toUnsigned (z : Int) : Nat := (z % 2 ^ 32).toNat

def toSize (z : Int) : Nat := (z % 2 ^ 64).toNat

theorem toInt_of_mem {z : Int} (hlo : -2 ^ 31 ≤ z) (hhi : z < 2 ^ 31) : toInt z = z := by
  simp only [toInt, Int.bmod]
  omega

theorem toInt_add_two_pow {z : Int} (hlo : -2 ^ 32 ≤ z) (hhi : z < -2 ^ 31) :
    toInt z = z + 2 ^ 32 := by
  simp only [toInt, Int.bmod]
  omega

theorem toUnsigned_of_nonneg {z : Int} (hlo : 0 ≤ z) (hhi : z < 2 ^ 32) :
    toUnsigned z = z.toNat := by
  simp only [toUnsigned]
  omega

theorem toUnsigned_of_neg {z : Int} (hlo : -2 ^ 31 ≤ z) (hhi : z < 0) :
    2 ^ 31 ≤ toUnsigned z := by
  simp only [toUnsigned]
  omega

theorem toSize_of_nonneg {z : Int} (hlo : 0 ≤ z) (hhi : z < 2 ^ 64) : toSize z = z.toNat := by
  simp only [toSize]
  omega

theorem toSize_of_neg {z : Int} (hlo : -2 ^ 32 ≤ z) (hhi : z < 0) : 2 ^ 63 ≤ toSize z := by
  simp only [toSize]
  omega

/-- Clearing the low `k` bits rounds down to a multiple of `2 ^ k`. -/
theorem toNat_and_allOnes_shiftLeft {w : Nat} (x : BitVec w) (k : Nat) :
    (x &&& BitVec.allOnes w <<< k).toNat = x.toNat / 2 ^ k * 2 ^ k := by
  rw [← BitVec.shiftLeft_ushiftRight, BitVec.toNat_shiftLeft, BitVec.toNat_ushiftRight,
    Nat.shiftRight_eq_div_pow, Nat.shiftLeft_eq]
  exact Nat.mod_eq_of_lt (Nat.lt_of_le_of_lt (Nat.div_mul_le_self _ _) x.isLt)

/-- The `count` bytes that `memcpy` reads at `source`, an offset into `block` or the null
pointer. -/
def memcpy (block : List UInt8) (source : Option Nat) (count : Nat) : Option (List UInt8) :=
  match source with
  | none => if count = 0 then some [] else none
  | some offset =>
      if offset + count ≤ block.length then some ((block.drop offset).take count) else none

theorem memcpy_of_le {block : List UInt8} {offset count : Nat} (h : offset + count ≤ block.length) :
    memcpy block (some offset) count = some ((block.drop offset).take count) :=
  if_pos h

theorem memcpy_of_lt {block : List UInt8} {offset count : Nat} (h : block.length < offset + count) :
    memcpy block (some offset) count = none :=
  if_neg (by omega)

theorem memcpy_null {block : List UInt8} {count : Nat} (h : 0 < count) :
    memcpy block none count = none :=
  if_neg (by omega)

/-- `realloc` keeps the bytes that fit; the bytes it adds are whatever the allocator hands out. -/
def realloc (fresh : Nat → UInt8) (block : List UInt8) (size : Nat) : List UInt8 :=
  block.take size ++ (List.range' block.length (size - block.length)).map fresh

/-- Overwrite the bytes of `block` from `offset` on with `bytes`. -/
def store (block : List UInt8) (offset : Nat) (bytes : List UInt8) : List UInt8 :=
  block.take offset ++ bytes ++ block.drop (offset + bytes.length)

/-- Growing a block leaves its bytes in place and adds room behind them. -/
theorem exists_realloc_grow (fresh : Nat → UInt8) (block : List UInt8) (count : Nat) :
    ∃ room, room.length = count ∧ realloc fresh block (block.length + count) = block ++ room := by
  refine ⟨(List.range' block.length count).map fresh, by simp, ?_⟩
  rw [realloc, List.take_of_length_le (Nat.le_add_right _ _), Nat.add_sub_cancel_left]

/-- Filling exactly the room behind a block appends to it. -/
theorem store_append {block room bytes : List UInt8} (h : room.length = bytes.length) :
    store (block ++ room) block.length bytes = block ++ bytes := by
  rw [store, List.take_left' rfl, List.drop_eq_nil_of_le (by rw [List.length_append]; omega),
    List.append_nil]

end CMemory
