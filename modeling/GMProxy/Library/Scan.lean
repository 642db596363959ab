import Mathlib.Data.List.TakeWhile
import Mathlib.Tactic.Common

/-!
# Scanning

A scanner that skips the longest run of items of a kind, the texts of entries with a separator between
them, and parsers that run one behind the other and can fail.
-/

namespace Scan

variable {α β : Type*} {p : α → Bool} {xs run rest : List α}

/-- The text does not go on with an item of the kind. -/
def Stops (p : α → Bool) (xs : List α) : Prop := ∀ x ∈ xs.head?, p x = false

@[simp] theorem stops_nil : Stops p [] := by simp [Stops]

@[simp] theorem stops_cons {x : α} : Stops p (x :: xs) ↔ p x = false := by simp [Stops]

theorem stops_dropWhile (xs : List α) : Stops p (xs.dropWhile p) := by
  have h := List.head?_dropWhile_not p xs
  cases hx : (xs.dropWhile p).head? with
  | none => simp [Stops, hx]
  | some x => simpa [Stops, hx] using h

theorem exists_run (p : α → Bool) (xs : List α) :
    ∃ run, xs = run ++ xs.dropWhile p ∧ ∀ x ∈ run, p x = true :=
  ⟨xs.takeWhile p, List.takeWhile_append_dropWhile.symm, fun _ hx => List.mem_takeWhile_imp hx⟩

/-- The scanner skips a run and stops behind it. -/
theorem dropWhile_run (hrun : ∀ x ∈ run, p x = true) (hrest : Stops p rest) :
    (run ++ rest).dropWhile p = rest := by
  rw [List.dropWhile_append_of_pos hrun]
  cases rest with
  | nil => rfl
  | cons x rest => simp [stops_cons.mp hrest]

theorem takeWhile_run (hrun : ∀ x ∈ run, p x = true) (hrest : Stops p rest) :
    (run ++ rest).takeWhile p = run := by
  rw [List.takeWhile_append_of_pos hrun]
  cases rest with
  | nil => simp
  | cons x rest => simp [stops_cons.mp hrest]

/-- The texts of entries with a separator between them. -/
inductive Separated (sep : α) (P : List α → β → Prop) : List α → List β → Prop
  | last {t : List α} {v : β} : P t v → Separated sep P t [v]
  | more {t ts : List α} {v : β} {vs : List β} :
      P t v → Separated sep P ts vs → Separated sep P (t ++ sep :: ts) (v :: vs)

namespace Separated

variable {sep : α} {P Q : List α → β → Prop} {t : List α} {vs : List β}

theorem mono (hmono : ∀ t v, P t v → Q t v) (h : Separated sep P t vs) : Separated sep Q t vs := by
  induction h with
  | last ht => exact last (hmono _ _ ht)
  | more ht _ ih => exact more (hmono _ _ ht) ih

/-- An entry for every value, and a separator between two. -/
theorem length_le (h : Separated sep P t vs) : vs.length ≤ t.length + 1 := by
  induction h with
  | last => simp
  | more _ _ ih => simp only [List.length_cons, List.length_append]; omega

theorem forall_mem {R : β → Prop} (hentry : ∀ t v, P t v → R v) (h : Separated sep P t vs) :
    ∀ v ∈ vs, R v := by
  induction h with
  | last ht => simpa using hentry _ _ ht
  | more ht _ ih => simpa using ⟨hentry _ _ ht, ih⟩

end Separated

section

variable {ε γ δ : Type} {x : Except ε γ} {f : γ → Except ε δ} {b : δ} {e : ε}

theorem bind_ok : (x >>= f) = .ok b ↔ ∃ a, x = .ok a ∧ f a = .ok b := by
  cases x <;> simp [bind, Except.bind]

/-- An error is not one of the first parser nor of the second. -/
theorem bind_ne_error (hx : x ≠ .error e) (hf : ∀ a, x = .ok a → f a ≠ .error e) :
    (x >>= f) ≠ .error e := by
  cases x with
  | error e' => simpa [bind, Except.bind] using hx
  | ok a => exact hf a rfl

end

end Scan
