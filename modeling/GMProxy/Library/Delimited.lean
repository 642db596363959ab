import Mathlib.Data.List.Basic

/-!
# Streams cut by a terminator

A stream of items in which some items end a group. `groups` are the groups that have ended, `pending`
the items of the group that is still open; both take the items already collected.
-/

namespace Delimited

variable {α β : Type*} (ends : α → Bool)

def groups : List α → List α → List (List α)
  | _, [] => []
  | acc, x :: xs => if ends x then (acc ++ [x]) :: groups [] xs else groups (acc ++ [x]) xs

def pending : List α → List α → List α
  | acc, [] => acc
  | acc, x :: xs => if ends x then pending [] xs else pending (acc ++ [x]) xs

variable {ends} {acc body pre xs ys : List α} {x : α}

theorem groups_cons_end (h : ends x = true) :
    groups ends acc (x :: xs) = (acc ++ [x]) :: groups ends [] xs :=
  if_pos h

theorem groups_cons_more (h : ends x = false) :
    groups ends acc (x :: xs) = groups ends (acc ++ [x]) xs :=
  if_neg (by rw [h]; decide)

theorem pending_cons_end (h : ends x = true) :
    pending ends acc (x :: xs) = pending ends [] xs :=
  if_pos h

theorem pending_cons_more (h : ends x = false) :
    pending ends acc (x :: xs) = pending ends (acc ++ [x]) xs :=
  if_neg (by rw [h]; decide)

theorem groups_append :
    groups ends acc (xs ++ ys) = groups ends acc xs ++ groups ends (pending ends acc xs) ys := by
  induction xs generalizing acc with
  | nil => rfl
  | cons x xs ih =>
      rw [List.cons_append]
      cases hx : ends x with
      | true => rw [groups_cons_end hx, groups_cons_end hx, pending_cons_end hx, ih, List.cons_append]
      | false => rw [groups_cons_more hx, groups_cons_more hx, pending_cons_more hx, ih]

theorem pending_append :
    pending ends acc (xs ++ ys) = pending ends (pending ends acc xs) ys := by
  induction xs generalizing acc with
  | nil => rfl
  | cons x xs ih =>
      rw [List.cons_append]
      cases hx : ends x with
      | true => rw [pending_cons_end hx, pending_cons_end hx, ih]
      | false => rw [pending_cons_more hx, pending_cons_more hx, ih]

/-- Items that end nothing are collected. -/
theorem groups_open (h : ∀ x ∈ body, ends x = false) : groups ends acc body = [] := by
  induction body generalizing acc with
  | nil => rfl
  | cons x body ih =>
      rw [groups_cons_more (h x (by simp))]
      exact ih fun y hy => h y (by simp [hy])

theorem pending_open (h : ∀ x ∈ body, ends x = false) : pending ends acc body = acc ++ body := by
  induction body generalizing acc with
  | nil => exact (List.append_nil acc).symm
  | cons x body ih =>
      rw [pending_cons_more (h x (by simp)), ih fun y hy => h y (by simp [hy]),
        List.append_assoc, List.singleton_append]

theorem groups_map (ends : α → Bool) (f : β → α) (acc xs : List β) :
    groups ends (acc.map f) (xs.map f) = (groups (ends ∘ f) acc xs).map (List.map f) := by
  induction xs generalizing acc with
  | nil => rfl
  | cons x xs ih =>
      have hnext := ih (acc ++ [x])
      rw [List.map_append] at hnext
      rw [List.map_cons]
      cases hx : ends (f x) with
      | true =>
          rw [groups_cons_end hx, groups_cons_end (show (ends ∘ f) x = true from hx), List.map_cons,
            List.map_append, ← ih]
          rfl
      | false =>
          rw [groups_cons_more hx, groups_cons_more (show (ends ∘ f) x = false from hx), ← hnext]
          rfl

/-- Behind a terminator a new group starts. -/
theorem pending_of_end (h : ends x = true) : pending ends acc (xs ++ [x]) = [] := by
  rw [pending_append, pending_cons_end h]
  rfl

/-- A complete group in the stream, started afresh, is one of the groups. -/
theorem groups_whole (hbody : ∀ y ∈ body, ends y = false) (hx : ends x = true) :
    groups ends acc (body ++ [x]) = [acc ++ body ++ [x]] := by
  rw [groups_append, groups_open hbody, pending_open hbody, groups_cons_end hx]
  rfl

/-- Every group is a stretch of the stream that ends at its only terminator. -/
theorem exists_of_mem_groups {g : List α} (h : g ∈ groups ends [] xs) :
    ∃ pre body x post, xs = pre ++ (body ++ [x]) ++ post ∧ g = body ++ [x] ∧
      (∀ y ∈ body, ends y = false) ∧ ends x = true := by
  suffices hgen : ∀ acc : List α, (∀ y ∈ acc, ends y = false) → g ∈ groups ends acc xs →
      ∃ pre body x post, acc ++ xs = pre ++ (body ++ [x]) ++ post ∧ g = body ++ [x] ∧
        (∀ y ∈ body, ends y = false) ∧ ends x = true from hgen [] (by simp) h
  clear h
  induction xs with
  | nil =>
      intro acc _ hg
      cases hg
  | cons x xs ih =>
      intro acc hacc hg
      cases hx : ends x with
      | true =>
          rw [groups_cons_end hx, List.mem_cons] at hg
          rcases hg with rfl | hg
          · exact ⟨[], acc, x, xs, by simp, rfl, hacc, hx⟩
          · obtain ⟨pre, body, y, post, hsplit, hrest⟩ := ih [] (by simp) hg
            rw [List.nil_append] at hsplit
            exact ⟨acc ++ x :: pre, body, y, post, by rw [hsplit]; simp, hrest⟩
      | false =>
          rw [groups_cons_more hx] at hg
          have hacc' : ∀ y ∈ acc ++ [x], ends y = false := by
            intro y hy
            rcases List.mem_append.mp hy with hy | hy
            · exact hacc y hy
            · rw [List.mem_singleton.mp hy]
              exact hx
          obtain ⟨pre, body, y, post, hsplit, hrest⟩ := ih (acc ++ [x]) hacc' hg
          exact ⟨pre, body, y, post, by rw [← hsplit]; simp, hrest⟩

/-- If a terminator is still to come, the next items up to it join the open group. -/
theorem groups_of_mem_end (acc : List α) (h : ∃ y ∈ xs, ends y = true) :
    ∃ body x post, xs = body ++ x :: post ∧ (acc ++ body ++ [x]) ∈ groups ends acc xs := by
  induction xs generalizing acc with
  | nil => simp at h
  | cons x xs ih =>
      cases hx : ends x with
      | true => exact ⟨[], x, xs, rfl, by rw [groups_cons_end hx]; simp⟩
      | false =>
          have hlater : ∃ y ∈ xs, ends y = true := by
            obtain ⟨y, hy, hend⟩ := h
            rcases List.mem_cons.mp hy with rfl | hy
            · rw [hx] at hend
              cases hend
            · exact ⟨y, hy, hend⟩
          obtain ⟨body, y, post, hsplit, hmem⟩ := ih (acc ++ [x]) hlater
          refine ⟨x :: body, y, post, by rw [hsplit, List.cons_append], ?_⟩
          rw [groups_cons_more hx]
          simpa using hmem

/-- All items of a group have the same kind. -/
def Uniform (kind : α → β) (g : List α) : Prop := ∀ a ∈ g, ∀ b ∈ g, kind a = kind b

/-- An item behind which its group goes on is followed by an item of its kind. -/
def GoesOnAlike (ends : α → Bool) (kind : α → β) (xs : List α) : Prop :=
  ∀ pre a b post, xs = pre ++ a :: b :: post → ends a = false →
    (∃ y ∈ b :: post, ends y = true) → kind a = kind b

variable {kind : α → β}

private theorem uniform_of_steps {g : List α}
    (h : ∀ pre a b post, g = pre ++ a :: b :: post → kind a = kind b) : Uniform kind g := by
  have hall : ∀ a ∈ g, ∀ first ∈ g.head?, kind a = kind first := by
    induction g with
    | nil => simp
    | cons c g ih =>
        intro a ha first hfirst
        rw [List.head?_cons, Option.mem_some_iff] at hfirst
        subst hfirst
        rcases List.mem_cons.mp ha with rfl | ha
        · rfl
        · cases g with
          | nil => cases ha
          | cons d g =>
              have hd := ih (fun pre a b post hsplit => h (c :: pre) a b post (by rw [hsplit]; rfl))
                a ha d rfl
              rw [hd]
              exact (h [] c d g rfl).symm
  intro a ha b hb
  cases g with
  | nil => cases ha
  | cons c g => rw [hall a ha c rfl, hall b hb c rfl]

/-- The groups are uniform exactly when no group goes on with an item of another kind. -/
theorem uniform_groups_iff :
    (∀ g ∈ groups ends [] xs, Uniform kind g) ↔ GoesOnAlike ends kind xs := by
  constructor
  · intro h pre a b post hsplit ha hlater
    subst hsplit
    obtain ⟨body, x, rest, hbehind, hmem⟩ :=
      groups_of_mem_end (pending ends [] pre ++ [a]) hlater
    have hgroup : pending ends [] pre ++ [a] ++ body ++ [x] ∈
        groups ends [] (pre ++ a :: b :: post) := by
      rw [groups_append, groups_cons_more ha]
      exact List.mem_append_right _ hmem
    have hb : b ∈ body ++ [x] := by
      cases body with
      | nil => simp [(List.cons.inj hbehind).1]
      | cons c body => simp [(List.cons.inj hbehind).1]
    apply h _ hgroup a (by simp) b
    rw [List.append_assoc]
    exact List.mem_append_right _ hb
  · intro h g hg
    obtain ⟨pre, body, x, post, hsplit, rfl, hbody, hx⟩ := exists_of_mem_groups hg
    apply uniform_of_steps
    intro before a b after hinside
    refine h (pre ++ before) a b (after ++ post) ?_ ?_ ?_
    · rw [hsplit, hinside]
      simp
    · -- the last item of the group is the terminator, so `a` lies before it
      have hinit := congrArg List.dropLast hinside
      rw [List.dropLast_concat, List.dropLast_append_of_ne_nil (by simp),
        List.dropLast_cons_of_ne_nil (by simp)] at hinit
      exact hbody a (by rw [hinit]; simp)
    · have hlast : x ∈ b :: after := by
        have hends := congrArg List.getLast? hinside
        rw [List.getLast?_concat, List.getLast?_append_of_ne_nil _ (by simp),
          List.getLast?_cons_cons] at hends
        exact List.mem_of_getLast? hends.symm
      refine ⟨x, ?_, hx⟩
      rw [← List.cons_append]
      exact List.mem_append_left _ hlast

end Delimited
