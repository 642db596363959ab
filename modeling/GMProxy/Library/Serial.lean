import Mathlib.Algebra.Group.Nat.Defs
import Mathlib.Tactic.Common

/-!
# Places in a sequence, sent modulo a number

A receiver that knows of each item only its place modulo `N` guesses the place from the highest place
so far. It guesses right exactly inside a reach of half a cycle, as long as no late item comes from
before the last full cycle.
-/

namespace Serial

variable (N : Nat)

/-- The cycle that a residue is taken for when `m` is the highest place so far: a residue from the
highest one on stays in the cycle of `m`, a smaller one opens the next cycle if that is nearer. -/
def cycle (m residue : Nat) : Nat :=
  if m % N ≤ residue then m / N
  else if residue + N - m % N < m % N - residue then m / N + 1
  else m / N

/-- The place that a residue is taken for. -/
def extend (m residue : Nat) : Nat := cycle N m residue * N + residue

/-- `e` lies in the cycle of `m` and at most half a cycle behind, or in the next cycle and less than
half a cycle ahead. -/
def InReach (m e : Nat) : Prop :=
  (e / N = m / N ∧ 2 * m ≤ 2 * e + N) ∨ (e / N = m / N + 1 ∧ 2 * e < 2 * m + N)

instance (m e : Nat) : Decidable (InReach N m e) :=
  inferInstanceAs (Decidable (_ ∨ _))

/-- Each place is in reach of the highest one before it. -/
def Reaches (m : Nat) : List Nat → Prop
  | [] => True
  | e :: es => InReach N m e ∧ Reaches (max m e) es

instance instDecidableReaches : (m : Nat) → (es : List Nat) → Decidable (Reaches N m es)
  | _, [] => inferInstanceAs (Decidable True)
  | m, e :: es =>
      have := instDecidableReaches (max m e) es
      inferInstanceAs (Decidable (InReach N m e ∧ Reaches N (max m e) es))

variable {N} {m e : Nat} {es : List Nat}

private theorem cycle_eq_iff (hN : 0 < N) : cycle N m (e % N) = e / N ↔ InReach N m e := by
  have hm := Nat.div_add_mod m N
  have he := Nat.div_add_mod e N
  have hmlt := Nat.mod_lt m hN
  have helt := Nat.mod_lt e hN
  have hsame (h : e / N = m / N) : 2 * m ≤ 2 * e + N ↔ 2 * (m % N) ≤ 2 * (e % N) + N := by
    rw [h] at he
    omega
  have hnext (h : e / N = m / N + 1) : 2 * e < 2 * m + N ↔ 2 * (e % N) + N < 2 * (m % N) := by
    rw [h, Nat.mul_succ] at he
    omega
  have hcycle : cycle N m (e % N) =
      if 2 * (m % N) ≤ 2 * (e % N) + N then m / N else m / N + 1 := by
    unfold cycle
    split_ifs <;> omega
  rw [InReach, hcycle]
  constructor
  · intro h
    split at h
    case isTrue hnear => exact Or.inl ⟨h.symm, (hsame h.symm).mpr hnear⟩
    case isFalse hfar => exact Or.inr ⟨h.symm, (hnext h.symm).mpr (by omega)⟩
  · rintro (⟨h, hnear⟩ | ⟨h, hnear⟩)
    · rw [if_pos ((hsame h).mp hnear), h]
    · rw [if_neg (by have := (hnext h).mp hnear; omega), h]

/-- A place is found from its residue exactly if it is in reach. -/
theorem extend_eq_iff (hN : 0 < N) : extend N m (e % N) = e ↔ InReach N m e := by
  have he := Nat.div_add_mod e N
  rw [← cycle_eq_iff hN, extend]
  constructor
  · intro h
    have hmul : cycle N m (e % N) * N = e / N * N := by
      rw [Nat.mul_comm (e / N)]
      omega
    exact Nat.eq_of_mul_eq_mul_right hN hmul
  · intro h
    rw [h, Nat.mul_comm]
    exact he

theorem inReach_behind (hsame : e / N = m / N) (hnear : 2 * m ≤ 2 * e + N) : InReach N m e :=
  Or.inl ⟨hsame, hnear⟩

/-- Places of one cycle that lie within half a cycle of one another. -/
theorem reaches_of_near (hsame : ∀ e ∈ es, e / N = m / N)
    (hnear : ∀ a ∈ m :: es, ∀ e ∈ es, 2 * a ≤ 2 * e + N) : Reaches N m es := by
  induction es generalizing m with
  | nil => trivial
  | cons e es ih =>
      have hcycle := hsame e (List.mem_cons_self ..)
      have hhead := hnear m (List.mem_cons_self ..) e (List.mem_cons_self ..)
      refine ⟨inReach_behind hcycle hhead, ?_⟩
      have hmax : max m e / N = m / N ∧ max m e ∈ m :: e :: es := by
        rcases Nat.le_total m e with hle | hle
        · rw [Nat.max_eq_right hle]
          exact ⟨hcycle, by simp⟩
        · rw [Nat.max_eq_left hle]
          exact ⟨rfl, by simp⟩
      apply ih
      · intro b hb
        rw [hmax.1]
        exact hsame b (List.mem_cons_of_mem _ hb)
      · intro a ha b hb
        apply hnear a _ b (List.mem_cons_of_mem _ hb)
        rcases List.mem_cons.mp ha with rfl | ha
        · exact hmax.2
        · exact List.mem_cons_of_mem _ (List.mem_cons_of_mem _ ha)

theorem reaches_append {es' : List Nat} :
    Reaches N m (es ++ es') ↔ Reaches N m es ∧ Reaches N (es.foldl max m) es' := by
  induction es generalizing m with
  | nil => simp [Reaches]
  | cons e es ih => rw [List.cons_append, Reaches, ih, Reaches, List.foldl_cons, and_assoc]

end Serial
