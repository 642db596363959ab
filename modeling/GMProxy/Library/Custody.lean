import Mathlib.Logic.Function.Basic

/-!
# Exclusive custody

Places that each hold at most one token. Custody is exclusive when no token is in two places; it
stays so when places let go of tokens, take up a token nobody holds, or pass one on.
-/

namespace Custody

variable {κ τ : Type*}

def Exclusive (f : κ → Option τ) : Prop := ∀ a b t, f a = some t → f b = some t → a = b

variable {f g : κ → Option τ} {a b : κ} {t : τ}

theorem Exclusive.mono (h : Exclusive f) (hle : ∀ a t, g a = some t → f a = some t) :
    Exclusive g :=
  fun a b t ha hb => h a b t (hle a t ha) (hle b t hb)

variable [DecidableEq κ]

theorem update_none_eq_some (h : Function.update f a none b = some t) : b ≠ a ∧ f b = some t := by
  by_cases hba : b = a
  · subst hba
    rw [Function.update_self] at h
    cases h
  · rw [Function.update_of_ne hba] at h
    exact ⟨hba, h⟩

theorem Exclusive.release (h : Exclusive f) (a : κ) : Exclusive (Function.update f a none) :=
  h.mono fun _ _ hb => (update_none_eq_some hb).2

theorem Exclusive.acquire (h : Exclusive f) (a : κ) (hfree : ∀ b, f b ≠ some t) :
    Exclusive (Function.update f a (some t)) := by
  have hother (b : κ) (u : τ) (hb : Function.update f a (some t) b = some u) :
      (b = a ∧ u = t) ∨ f b = some u := by
    by_cases hba : b = a
    · subst hba
      rw [Function.update_self] at hb
      exact Or.inl ⟨rfl, (Option.some.inj hb).symm⟩
    · rw [Function.update_of_ne hba] at hb
      exact Or.inr hb
  intro b c u hb hc
  rcases hother b u hb with ⟨rfl, rfl⟩ | hheldb
  · rcases hother c u hc with ⟨rfl, -⟩ | hheldc
    · rfl
    · exact absurd hheldc (hfree c)
  · rcases hother c u hc with ⟨rfl, rfl⟩ | hheldc
    · exact absurd hheldb (hfree b)
    · exact h b c u hheldb hheldc

/-- Passing a token on. What the receiver held before is lost. -/
theorem Exclusive.move (h : Exclusive f) (ha : f a = some t) (b : κ) :
    Exclusive (Function.update (Function.update f a none) b (some t)) := by
  apply (h.release a).acquire
  intro c hc
  obtain ⟨hne, hheld⟩ := update_none_eq_some hc
  exact hne (h c a t hheld ha)

end Custody
