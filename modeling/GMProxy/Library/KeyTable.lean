import Mathlib.Tactic.Common
import Mathlib.Data.List.Nodup

/-!
# Tables in the order of insertion

A table as the list of its entries. New keys go to the end; an entry is changed in its place.
-/

namespace KeyTable

variable {κ α : Type*} [DecidableEq κ]

def find (k : κ) : List (κ × α) → Option α
  | [] => none
  | (key, a) :: rest => if key = k then some a else find k rest

/-- The entry of a key is changed by `f`. -/
def modify (k : κ) (f : α → α) : List (κ × α) → List (κ × α)
  | [] => []
  | (key, a) :: rest => if key = k then (key, f a) :: rest else (key, a) :: modify k f rest

def keys (t : List (κ × α)) : List κ := t.map Prod.fst

variable {k k' : κ} {a : α} {f : α → α} {t rest : List (κ × α)}

@[simp] theorem find_nil : find k ([] : List (κ × α)) = none := rfl

@[simp] theorem find_cons_self : find k ((k, a) :: rest) = some a := if_pos rfl

theorem find_cons_ne (h : k' ≠ k) : find k ((k', a) :: rest) = find k rest := if_neg h

theorem find_eq_none : find k t = none ↔ k ∉ keys t := by
  induction t with
  | nil => simp [keys]
  | cons entry rest ih =>
      obtain ⟨key, a⟩ := entry
      rw [find]
      split
      case isTrue hkey => simp [keys, hkey]
      case isFalse hkey =>
        rw [ih, keys, keys, List.map_cons, List.mem_cons, not_or]
        exact (and_iff_right (Ne.symm hkey)).symm

theorem find_append_of_none (h : find k t = none) : find k (t ++ rest) = find k rest := by
  induction t with
  | nil => rfl
  | cons entry t ih =>
      obtain ⟨key, a⟩ := entry
      rw [find] at h
      split at h
      · cases h
      case isFalse hkey => rw [List.cons_append, find_cons_ne hkey, ih h]

theorem find_append_of_some (h : find k t = some a) : find k (t ++ rest) = some a := by
  induction t with
  | nil => cases h
  | cons entry t ih =>
      obtain ⟨key, b⟩ := entry
      rw [find] at h
      split at h
      case isTrue hkey => rw [List.cons_append, find, if_pos hkey, h]
      case isFalse hkey => rw [List.cons_append, find_cons_ne hkey, ih h]

/-- An entry behind the others is found by its own key only. -/
theorem find_append_ne (h : k' ≠ k) : find k (t ++ [(k', a)]) = find k t := by
  cases hfound : find k t with
  | none => rw [find_append_of_none hfound, find_cons_ne h, find_nil]
  | some b => exact find_append_of_some hfound

theorem find_modify_self : find k (modify k f t) = (find k t).map f := by
  induction t with
  | nil => rfl
  | cons entry rest ih =>
      obtain ⟨key, a⟩ := entry
      by_cases hkey : key = k
      · rw [modify, find, if_pos hkey, if_pos hkey, find, if_pos hkey]
        rfl
      · rw [modify, find, if_neg hkey, if_neg hkey, find, if_neg hkey, ih]

theorem find_modify_ne (h : k' ≠ k) : find k (modify k' f t) = find k t := by
  induction t with
  | nil => rfl
  | cons entry rest ih =>
      obtain ⟨key, a⟩ := entry
      by_cases hkey : key = k'
      · subst hkey
        rw [modify, if_pos rfl, find_cons_ne h, find_cons_ne h]
      · rw [modify, if_neg hkey, find, ih, find]

@[simp] theorem keys_modify : keys (modify k f t) = keys t := by
  induction t with
  | nil => rfl
  | cons entry rest ih =>
      obtain ⟨key, a⟩ := entry
      rw [modify]
      split
      · rfl
      · rw [keys, List.map_cons, ← keys, ih]
        rfl

theorem find_map {β : Type*} (g : α → β) :
    find k (t.map fun entry => (entry.1, g entry.2)) = (find k t).map g := by
  induction t with
  | nil => rfl
  | cons entry rest ih =>
      obtain ⟨key, a⟩ := entry
      rw [List.map_cons, find, find]
      split
      · rfl
      · exact ih

theorem find_filter {p : κ × α → Bool} (hkeys : (keys t).Nodup) :
    find k (t.filter p) = (find k t).filter fun a => p (k, a) := by
  induction t with
  | nil => rfl
  | cons entry rest ih =>
      obtain ⟨key, a⟩ := entry
      rw [keys, List.map_cons, List.nodup_cons] at hkeys
      by_cases hkey : key = k
      · subst hkey
        rw [find_cons_self, Option.filter_some]
        by_cases hp : p (key, a) = true
        · rw [List.filter_cons_of_pos hp, find_cons_self, if_pos hp]
        · rw [List.filter_cons_of_neg hp, ih hkeys.2, if_neg hp, find_eq_none.mpr hkeys.1]
          rfl
      · rw [find_cons_ne hkey, ← ih hkeys.2, List.filter_cons]
        split
        · exact find_cons_ne hkey
        · rfl

end KeyTable
