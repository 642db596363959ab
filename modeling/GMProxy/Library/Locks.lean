import Mathlib.Logic.Function.Basic
import Mathlib.Tactic.Common

/-!
# Mutexes and critical sections

Agents that are inside a critical section or outside, and the mutexes they own. The locks are balanced
if every owner is inside the section of its mutex.
-/

variable {α μ : Type*} [DecidableEq α] [DecidableEq μ]

/-- The owner of each mutex, and the mutex of the section that each agent is inside. -/
structure Locks (α μ : Type*) where
  owner : μ → Option α
  inside : α → Option μ

namespace Locks

/-- An agent outside enters the section of a free mutex. -/
def lock (l : Locks α μ) (a : α) (m : μ) : Locks α μ :=
  ⟨Function.update l.owner m (some a), Function.update l.inside a (some m)⟩

/-- An agent leaves the section of its mutex and frees the mutex. -/
def unlock (l : Locks α μ) (a : α) (m : μ) : Locks α μ :=
  ⟨Function.update l.owner m none, Function.update l.inside a none⟩

/-- An agent leaves its section and keeps the mutex. -/
def desert (l : Locks α μ) (a : α) : Locks α μ := { l with inside := Function.update l.inside a none }

/-- Whoever owns a mutex is inside its section. -/
def Balanced (l : Locks α μ) : Prop := ∀ m a, l.owner m = some a → l.inside a = some m

/-- Whoever is inside a section owns its mutex. -/
def Guarded (l : Locks α μ) : Prop := ∀ a m, l.inside a = some m → l.owner m = some a

/-- A mutex whose owner is outside its section. -/
def Stuck (l : Locks α μ) (m : μ) : Prop := ∃ a, l.owner m = some a ∧ l.inside a ≠ some m

variable {l : Locks α μ} {a : α} {m n : μ}

omit [DecidableEq α] [DecidableEq μ] in
theorem balanced_iff : l.Balanced ↔ ∀ m, ¬ l.Stuck m := by
  simp [Balanced, Stuck]

theorem Guarded.lock (h : l.Guarded) (houtside : l.inside a = none) (hfree : l.owner m = none) :
    (l.lock a m).Guarded := by
  intro b n hb
  by_cases hba : b = a
  · subst hba
    simp only [Locks.lock, Function.update_self, Option.some.injEq] at hb ⊢
    rw [hb, Function.update_self]
  · simp only [Locks.lock, Function.update_of_ne hba] at hb ⊢
    have howner := h b n hb
    have hne : n ≠ m := by
      rintro rfl
      rw [hfree] at howner
      cases howner
    rw [Function.update_of_ne hne, howner]

theorem Guarded.unlock (h : l.Guarded) (hinside : l.inside a = some m) : (l.unlock a m).Guarded := by
  intro b n hb
  by_cases hba : b = a
  · simp [Locks.unlock, hba] at hb
  · simp only [Locks.unlock, Function.update_of_ne hba] at hb ⊢
    have howner := h b n hb
    have hne : n ≠ m := by
      rintro rfl
      exact hba (Option.some.inj (howner.symm.trans (h a n hinside)))
    rw [Function.update_of_ne hne, howner]

omit [DecidableEq μ] in
theorem Guarded.desert (h : l.Guarded) : (l.desert a).Guarded := by
  intro b n hb
  by_cases hba : b = a
  · simp [Locks.desert, hba] at hb
  · simp only [Locks.desert, Function.update_of_ne hba] at hb ⊢
    exact h b n hb

theorem stuck_lock (houtside : l.inside a = none) (hfree : l.owner n = none) :
    (l.lock a n).Stuck m ↔ l.Stuck m := by
  by_cases hmn : m = n
  · subst hmn
    simp [Stuck, Locks.lock, hfree]
  · simp only [Stuck, Locks.lock, Function.update_of_ne hmn]
    apply exists_congr
    intro b
    apply and_congr_right
    intro _
    by_cases hba : b = a
    · simp [hba, houtside, Ne.symm hmn]
    · rw [Function.update_of_ne hba]

theorem stuck_unlock (h : l.Guarded) (hinside : l.inside a = some n) :
    (l.unlock a n).Stuck m ↔ l.Stuck m := by
  have howner := h a n hinside
  by_cases hmn : m = n
  · subst hmn
    simp [Stuck, Locks.unlock, howner, hinside]
  · simp only [Stuck, Locks.unlock, Function.update_of_ne hmn]
    apply exists_congr
    intro b
    apply and_congr_right
    intro _
    by_cases hba : b = a
    · simp [hba, hinside, Ne.symm hmn]
    · rw [Function.update_of_ne hba]

omit [DecidableEq μ] in
theorem stuck_desert (h : l.Guarded) (hinside : l.inside a = some n) :
    (l.desert a).Stuck m ↔ l.Stuck m ∨ m = n := by
  have howner := h a n hinside
  constructor
  · rintro ⟨b, hb, houtside⟩
    by_cases hba : b = a
    · subst hba
      by_cases hmn : m = n
      · exact Or.inr hmn
      · exact Or.inl ⟨b, hb, by simp [hinside, Ne.symm hmn]⟩
    · simp only [Locks.desert, Function.update_of_ne hba] at houtside
      exact Or.inl ⟨b, hb, houtside⟩
  · rintro (⟨b, hb, houtside⟩ | rfl)
    · refine ⟨b, hb, ?_⟩
      by_cases hba : b = a
      · simp [Locks.desert, hba]
      · simpa [Locks.desert, Function.update_of_ne hba] using houtside
    · exact ⟨a, howner, by simp [Locks.desert]⟩

end Locks
