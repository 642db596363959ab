import Mathlib.Tactic.Common

/-!
# While loops that may diverge

A loop is given by its body: one pass either goes on from a new state or leaves the loop with a
result. `passes` counts the passes with fuel, so a run that never leaves is a run that uses up
every fuel. The rules below reason about whole runs from single passes.
-/

namespace WhileLoop

/-- What one pass of a loop body does. -/
inductive Pass (σ ρ : Type*) where
  | again (s : σ)
  | leave (r : ρ)
deriving DecidableEq, Repr

variable {σ ρ : Type*}

def passes (body : σ → Pass σ ρ) : Nat → σ → Pass σ ρ
  | 0, s => .again s
  | fuel + 1, s =>
      match body s with
      | .again t => passes body fuel t
      | .leave r => .leave r

def Leaves (body : σ → Pass σ ρ) (s : σ) (r : ρ) : Prop :=
  ∃ fuel, passes body fuel s = .leave r

def Reaches (body : σ → Pass σ ρ) (s t : σ) : Prop :=
  ∃ fuel, passes body fuel s = .again t

def Terminates (body : σ → Pass σ ρ) (s : σ) : Prop :=
  ∃ r, Leaves body s r

variable {body : σ → Pass σ ρ} {s t u : σ} {r r' : ρ}

theorem passes_succ_again (h : body s = .again t) (fuel : Nat) :
    passes body (fuel + 1) s = passes body fuel t := by
  simp only [passes, h]

theorem passes_succ_leave (h : body s = .leave r) (fuel : Nat) :
    passes body (fuel + 1) s = .leave r := by
  simp only [passes, h]

theorem passes_add {m : Nat} (h : passes body m s = .again t) (n : Nat) :
    passes body (m + n) s = passes body n t := by
  induction m generalizing s with
  | zero =>
      cases h
      rw [Nat.zero_add]
  | succ m ih =>
      cases hb : body s with
      | again s' =>
          rw [passes_succ_again hb] at h
          rw [Nat.succ_add, passes_succ_again hb, ih h]
      | leave r =>
          rw [passes_succ_leave hb] at h
          cases h

/-- More fuel does not change how a loop is left. -/
theorem passes_leave_mono {m n : Nat} (h : passes body m s = .leave r) (hmn : m ≤ n) :
    passes body n s = .leave r := by
  induction m generalizing s n with
  | zero => cases h
  | succ m ih =>
      obtain ⟨k, rfl⟩ : ∃ k, n = k + 1 := ⟨n - 1, by omega⟩
      cases hb : body s with
      | again s' =>
          rw [passes_succ_again hb] at h ⊢
          exact ih h (by omega)
      | leave r' =>
          rw [passes_succ_leave hb] at h ⊢
          exact h

theorem Leaves.unique (h : Leaves body s r) (h' : Leaves body s r') : r = r' := by
  obtain ⟨m, hm⟩ := h
  obtain ⟨n, hn⟩ := h'
  have hm' := passes_leave_mono hm (Nat.le_max_left m n)
  have hn' := passes_leave_mono hn (Nat.le_max_right m n)
  rw [hm'] at hn'
  cases hn'
  rfl

theorem Leaves.of_leave (h : body s = .leave r) : Leaves body s r :=
  ⟨1, passes_succ_leave h 0⟩

/-- A way of leaving that no pass takes is not taken by a run. -/
theorem not_leaves_of_passes (h : ∀ t, body t ≠ .leave r) : ¬ Leaves body s r := by
  rintro ⟨n, hn⟩
  induction n generalizing s with
  | zero => cases hn
  | succ n ih =>
      cases hb : body s with
      | again t =>
          rw [passes_succ_again hb] at hn
          exact ih hn
      | leave r' =>
          rw [passes_succ_leave hb] at hn
          exact h s (hb.trans hn)

theorem Reaches.refl (s : σ) : Reaches body s s :=
  ⟨0, rfl⟩

theorem Reaches.single (h : body s = .again t) : Reaches body s t :=
  ⟨1, passes_succ_again h 0⟩

theorem Reaches.trans (h : Reaches body s t) (h' : Reaches body t u) : Reaches body s u := by
  obtain ⟨m, hm⟩ := h
  obtain ⟨n, hn⟩ := h'
  exact ⟨m + n, by rw [passes_add hm, hn]⟩

theorem Reaches.leaves_iff (h : Reaches body s t) : Leaves body s r ↔ Leaves body t r := by
  obtain ⟨m, hm⟩ := h
  constructor
  · rintro ⟨n, hn⟩
    have hlong := passes_leave_mono hn (Nat.le_add_left n m)
    rw [passes_add hm] at hlong
    exact ⟨n, hlong⟩
  · rintro ⟨n, hn⟩
    exact ⟨m + n, by rw [passes_add hm, hn]⟩

theorem reaches_iff_head : Reaches body s u ↔ u = s ∨ ∃ t, body s = .again t ∧ Reaches body t u := by
  constructor
  · rintro ⟨n, hn⟩
    cases n with
    | zero =>
        cases hn
        exact Or.inl rfl
    | succ n =>
        cases hb : body s with
        | again t =>
            rw [passes_succ_again hb] at hn
            exact Or.inr ⟨t, rfl, n, hn⟩
        | leave r =>
            rw [passes_succ_leave hb] at hn
            cases hn
  · rintro (rfl | ⟨t, ht, hu⟩)
    · exact .refl _
    · exact (Reaches.single ht).trans hu

/-- A property of every pass of the run from `s`. -/
def EveryPass (body : σ → Pass σ ρ) (P : σ → Pass σ ρ → Prop) (s : σ) : Prop :=
  ∀ t, Reaches body s t → P t (body t)

theorem everyPass_of_again {P : σ → Pass σ ρ → Prop} (h : body s = .again t) :
    EveryPass body P s ↔ P s (.again t) ∧ EveryPass body P t := by
  constructor
  · intro hall
    refine ⟨?_, fun u hu => hall u ((Reaches.single h).trans hu)⟩
    have hs := hall s (.refl s)
    rwa [h] at hs
  · rintro ⟨hs, hall⟩ u hu
    rcases reaches_iff_head.mp hu with rfl | ⟨t', ht', hu'⟩
    · rwa [h]
    · rw [h] at ht'
      cases ht'
      exact hall u hu'

theorem everyPass_of_leave {P : σ → Pass σ ρ → Prop} (h : body s = .leave r) :
    EveryPass body P s ↔ P s (.leave r) := by
  constructor
  · intro hall
    have hs := hall s (.refl s)
    rwa [h] at hs
  · intro hs u hu
    rcases reaches_iff_head.mp hu with rfl | ⟨t, ht, _⟩
    · rwa [h]
    · rw [h] at ht
      cases ht

/-- The invariant rule: what every pass from inside an invariant meets, every pass of a run meets. -/
theorem everyPass_of_invariant {I : σ → Prop} {P : σ → Pass σ ρ → Prop}
    (hP : ∀ s, I s → P s (body s)) (hstep : ∀ s t, I s → body s = .again t → I t) (hs : I s) :
    EveryPass body P s := by
  intro u hu
  apply hP
  obtain ⟨n, hn⟩ := hu
  induction n generalizing s with
  | zero =>
      cases hn
      exact hs
  | succ n ih =>
      cases hb : body s with
      | again t =>
          rw [passes_succ_again hb] at hn
          exact ih (hstep s t hs hb) hn
      | leave r =>
          rw [passes_succ_leave hb] at hn
          cases hn

/-- A pass that leads back to its own state is repeated for ever. -/
theorem not_terminates_of_fixed (h : body s = .again s) : ¬ Terminates body s := by
  rintro ⟨r, n, hn⟩
  induction n with
  | zero => cases hn
  | succ n ih =>
      rw [passes_succ_again h] at hn
      exact ih hn

end WhileLoop
