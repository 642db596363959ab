import Mathlib.Data.Finset.Erase
import Mathlib.Data.Finset.Insert
import Mathlib.Tactic.Common

/-!
# Heaps of blocks

Blocks are numbered in the order in which `malloc` hands them out. Giving back a block that is not live
has no value: it is `none`.
-/

structure Heap where
  live : Finset Nat
  next : Nat
  fresh : ∀ id ∈ live, id < next
deriving DecidableEq

namespace Heap

def empty : Heap := ⟨∅, 0, by simp⟩

/-- The block that `malloc` hands out is `h.next`. -/
def malloc (h : Heap) : Heap where
  live := insert h.next h.live
  next := h.next + 1
  fresh := by
    intro id hid
    cases Finset.mem_insert.mp hid with
    | inl heq => omega
    | inr hlive => exact Nat.lt_succ_of_lt (h.fresh id hlive)

def drop (h : Heap) (id : Nat) : Heap where
  live := h.live.erase id
  next := h.next
  fresh := fun other hother => h.fresh other (Finset.mem_of_mem_erase hother)

/-- `free`; the null pointer is let through. -/
def free (h : Heap) : Option Nat → Option Heap
  | none => some h
  | some id => if id ∈ h.live then some (h.drop id) else none

/-- `realloc` to `size` bytes; a block that is to have none is freed. -/
def realloc (h : Heap) (block : Option Nat) (size : Nat) : Option (Heap × Option Nat) :=
  match block with
  | none => some (h.malloc, some h.next)
  | some id =>
      if id ∈ h.live then
        if size = 0 then some (h.drop id, none) else some ((h.drop id).malloc, some h.next)
      else none

@[simp] theorem mem_malloc {h : Heap} {id : Nat} :
    id ∈ h.malloc.live ↔ id = h.next ∨ id ∈ h.live :=
  Finset.mem_insert

@[simp] theorem malloc_next (h : Heap) : h.malloc.next = h.next + 1 := rfl

@[simp] theorem mem_drop {h : Heap} {id other : Nat} :
    other ∈ (h.drop id).live ↔ other ≠ id ∧ other ∈ h.live :=
  Finset.mem_erase

theorem free_live {h : Heap} {id : Nat} (hlive : id ∈ h.live) : h.free (some id) = some (h.drop id) :=
  if_pos hlive

variable {base : Nat} {h h' h'' : Heap}

/-- Between `h` and `h'` no block below `base` was allocated or given back. -/
structure Keeps (base : Nat) (h h' : Heap) : Prop where
  next_le : h.next ≤ h'.next
  live_iff : ∀ id < base, (id ∈ h'.live ↔ id ∈ h.live)

theorem Keeps.refl (base : Nat) (h : Heap) : Keeps base h h := ⟨Nat.le_refl _, fun _ _ => Iff.rfl⟩

theorem Keeps.trans (hfirst : Keeps base h h') (hsecond : Keeps base h' h'') : Keeps base h h'' where
  next_le := Nat.le_trans hfirst.next_le hsecond.next_le
  live_iff := fun id hid => (hsecond.live_iff id hid).trans (hfirst.live_iff id hid)

theorem keeps_malloc (hbase : base ≤ h.next) : Keeps base h h.malloc where
  next_le := Nat.le_succ _
  live_iff := fun id hid => by
    rw [mem_malloc, or_iff_right]
    omega

theorem keeps_drop {id : Nat} (hid : base ≤ id) : Keeps base h (h.drop id) where
  next_le := Nat.le_refl _
  live_iff := fun other hother => by
    rw [mem_drop, and_iff_right]
    omega

/-- From `base` on nothing is live but `block`, where that is not null. -/
structure Owned (base : Nat) (h : Heap) (block : Option Nat) : Prop where
  base_le : base ≤ h.next
  above : ∀ id, block = some id → base ≤ id
  live_iff : ∀ id, base ≤ id → (id ∈ h.live ↔ block = some id)

/-- Nothing is live that has not been handed out yet. -/
theorem owned_next (h : Heap) : Owned h.next h none where
  base_le := Nat.le_refl _
  above := fun _ hnone => nomatch hnone
  live_iff := fun id hid => by
    constructor
    · intro hlive
      exact absurd (h.fresh id hlive) (Nat.not_lt.mpr hid)
    · intro hnone
      cases hnone

theorem Owned.malloc (howned : Owned base h none) : Owned base h.malloc (some h.next) where
  base_le := Nat.le_succ_of_le howned.base_le
  above := fun id hid => by
    obtain rfl := Option.some.inj hid
    exact howned.base_le
  live_iff := fun id hid => by
    rw [mem_malloc, howned.live_iff id hid, Option.some.injEq]
    simp [eq_comm]

theorem Owned.drop {id : Nat} (howned : Owned base h (some id)) : Owned base (h.drop id) none where
  base_le := howned.base_le
  above := fun _ hnone => nomatch hnone
  live_iff := fun other hother => by
    rw [mem_drop, howned.live_iff other hother, Option.some.injEq]
    simp [eq_comm]

theorem Owned.mem {id : Nat} (howned : Owned base h (some id)) : id ∈ h.live :=
  (howned.live_iff id (howned.above id rfl)).mpr rfl

/-- The owner of a block can resize it; a block that is to have bytes is a block again. -/
theorem exists_realloc {block : Option Nat} (howned : Owned base h block) (size : Nat) :
    ∃ h' block', h.realloc block size = some (h', block') ∧ Keeps base h h' ∧
      Owned base h' block' ∧ (0 < size → block'.isSome) := by
  cases block with
  | none =>
      exact ⟨h.malloc, some h.next, rfl, keeps_malloc howned.base_le, howned.malloc, fun _ => rfl⟩
  | some id =>
      have hdrop : Keeps base h (h.drop id) := keeps_drop (howned.above id rfl)
      by_cases hsize : size = 0
      · refine ⟨h.drop id, none, ?_, hdrop, howned.drop, fun hpos => by omega⟩
        rw [realloc, if_pos howned.mem, if_pos hsize]
      · refine ⟨(h.drop id).malloc, some h.next, ?_, hdrop.trans (keeps_malloc howned.base_le),
          howned.drop.malloc, fun _ => rfl⟩
        rw [realloc, if_pos howned.mem, if_neg hsize]

end Heap
