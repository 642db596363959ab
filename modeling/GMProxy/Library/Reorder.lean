import Mathlib.Data.Finset.Sort

/-!
# A sorted list kept by insertion from its end

Items that mostly arrive in order are put into a sorted list from behind; an item that is there
already is dropped. The list is the sorted list of the set of the items.
-/

namespace Reorder

variable {α : Type*} [LinearOrder α]

/-- Insertion into a list that falls, such as a sorted list read from its end. -/
def insertDown (a : α) : List α → List α
  | [] => [a]
  | b :: bs =>
      if a < b then b :: insertDown a bs
      else if b < a then a :: b :: bs
      else b :: bs

variable {a b : α} {l : List α}

theorem mem_insertDown : b ∈ insertDown a l ↔ b = a ∨ b ∈ l := by
  induction l with
  | nil => rw [insertDown, List.mem_singleton, or_iff_left List.not_mem_nil]
  | cons c l ih =>
      rw [insertDown]
      split
      case isTrue => rw [List.mem_cons, ih, List.mem_cons, or_left_comm]
      case isFalse hle =>
        split
        case isTrue => rw [List.mem_cons]
        case isFalse hge =>
          have hac : a = c := le_antisymm (not_lt.mp hge) (not_lt.mp hle)
          rw [hac, List.mem_cons, or_self_left]

theorem pairwise_insertDown (h : l.Pairwise (· > ·)) : (insertDown a l).Pairwise (· > ·) := by
  induction l with
  | nil => exact List.pairwise_singleton _ _
  | cons c l ih =>
      obtain ⟨hhead, htail⟩ := List.pairwise_cons.mp h
      rw [insertDown]
      split
      case isTrue hlt =>
        refine List.pairwise_cons.mpr ⟨?_, ih htail⟩
        intro b hb
        rcases mem_insertDown.mp hb with rfl | hb
        · exact hlt
        · exact hhead b hb
      case isFalse hle =>
        split
        case isTrue hgt =>
          refine List.pairwise_cons.mpr ⟨?_, h⟩
          intro b hb
          rcases List.mem_cons.mp hb with rfl | hb
          · exact hgt
          · exact lt_trans (hhead b hb) hgt
        case isFalse => exact h

/-- The items of a set from the greatest on. -/
def fallingList (s : Finset α) : List α := (s.sort (· ≤ ·)).reverse

theorem pairwise_fallingList (s : Finset α) : (fallingList s).Pairwise (· > ·) := by
  rw [fallingList, List.pairwise_reverse]
  exact s.sortedLT_sort.pairwise

theorem mem_fallingList {s : Finset α} : a ∈ fallingList s ↔ a ∈ s := by
  rw [fallingList, List.mem_reverse, Finset.mem_sort]

theorem insertDown_fallingList (a : α) (s : Finset α) :
    insertDown a (fallingList s) = fallingList (insert a s) := by
  apply List.Pairwise.eq_of_mem_iff (pairwise_insertDown (pairwise_fallingList s))
    (pairwise_fallingList _)
  intro b
  rw [mem_insertDown, mem_fallingList, mem_fallingList, Finset.mem_insert]

/-- A rising list is the sorted list of the items of any list with the same items. -/
theorem sort_toFinset {l l' : List α} (hrising : l'.Pairwise (· < ·)) (hmem : ∀ a, a ∈ l ↔ a ∈ l') :
    l.toFinset.sort (· ≤ ·) = l' := by
  apply List.Pairwise.eq_of_mem_iff (l.toFinset.sortedLT_sort.pairwise) hrising
  intro a
  rw [Finset.mem_sort, List.mem_toFinset, hmem]

end Reorder
