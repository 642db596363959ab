import Mathlib.Data.Set.Card

/-!
# Requests for one item and requests for any

A list of requests is served from a set of items. A request names an item or takes any; an item that
is handed out is gone. What is left depends on the order of the requests and on the choices made
exactly when there are open requests, an item nobody names, and more items than open requests.
-/

namespace Service

variable {α : Type*}

/-- A request accepts the item it names; an open request, `none`, accepts every item. -/
def Accepts (r : Option α) (x : α) : Prop := r = none ∨ r = some x

/-- Serving the requests from the items `U`. `A` are the items that some request accepted while they
were there, `V` the items that are left. -/
inductive Serves : List (Option α) → Set α → Set α → Set α → Prop
  | nil (U : Set α) : Serves [] U ∅ U
  | refused {r : Option α} {rs : List (Option α)} {U A V : Set α} (hnone : ∀ x ∈ U, ¬ Accepts r x)
      (h : Serves rs U A V) : Serves (r :: rs) U A V
  | served {r : Option α} {rs : List (Option α)} {U A V : Set α} {x : α} (hx : x ∈ U)
      (hr : Accepts r x) (h : Serves rs (U \ {x}) A V) :
      Serves (r :: rs) U ({y | y ∈ U ∧ Accepts r y} ∪ A) V

variable {rs rs' : List (Option α)} {U A V A' W : Set α} {x : α}

theorem Serves.left_subset (h : Serves rs U A V) : V ⊆ U := by
  induction h with
  | nil U => exact Set.Subset.rfl
  | refused hnone h ih => exact ih
  | served hx hr h ih => exact ih.trans Set.sdiff_subset

/-- The order of the requests does not matter for what they ask for: an item that has gone before a
request was accepted by the request that took it. -/
theorem Serves.asked_eq (h : Serves rs U A V) : A = {y | y ∈ U ∧ ∃ r ∈ rs, Accepts r y} := by
  induction h with
  | nil U => simp
  | @refused r rs U A V hnone h ih =>
      rw [ih]
      ext y
      simp only [Set.mem_ofPred_eq, List.mem_cons, exists_eq_or_imp]
      constructor
      · intro hy
        exact ⟨hy.1, Or.inr hy.2⟩
      · intro hy
        exact ⟨hy.1, hy.2.resolve_left (hnone y hy.1)⟩
  | @served r rs U A V x hx hr h ih =>
      rw [ih]
      ext y
      simp only [Set.mem_union, Set.mem_ofPred_eq, Set.mem_sdiff, Set.mem_singleton_iff, List.mem_cons,
        exists_eq_or_imp]
      constructor
      · rintro (hy | hy)
        · exact ⟨hy.1, Or.inl hy.2⟩
        · exact ⟨hy.1.1, Or.inr hy.2⟩
      · rintro ⟨hy, haccepts | hlater⟩
        · exact Or.inl ⟨hy, haccepts⟩
        · by_cases hyx : y = x
          · rw [hyx]
            exact Or.inl ⟨hx, hr⟩
          · exact Or.inr ⟨⟨hy, hyx⟩, hlater⟩

theorem Serves.append (h : Serves rs U A V) (h' : Serves rs' V A' W) :
    ∃ B, Serves (rs ++ rs') U B W := by
  induction h with
  | nil U => exact ⟨A', h'⟩
  | refused hnone h ih =>
      obtain ⟨B, hB⟩ := ih h'
      exact ⟨B, hB.refused hnone⟩
  | served hx hr h ih =>
      obtain ⟨B, hB⟩ := ih h'
      exact ⟨_, hB.served hx hr⟩

theorem exists_serves (rs : List (Option α)) (U : Set α) : ∃ A V, Serves rs U A V := by
  induction rs generalizing U with
  | nil => exact ⟨∅, U, .nil U⟩
  | cons r rs ih =>
      by_cases hex : ∃ x ∈ U, Accepts r x
      · obtain ⟨x, hx, hr⟩ := hex
        obtain ⟨A, V, h⟩ := ih (U \ {x})
        exact ⟨_, V, h.served hx hr⟩
      · obtain ⟨A, V, h⟩ := ih U
        exact ⟨A, V, h.refused fun x hx hr => hex ⟨x, hx, hr⟩⟩

theorem Serves.named_gone (h : Serves rs U A V) (hx : some x ∈ rs) : x ∉ V := by
  induction h with
  | nil U => cases hx
  | refused hnone h ih =>
      rcases List.mem_cons.mp hx with rfl | hx
      · exact fun hV => hnone x (h.left_subset hV) (Or.inr rfl)
      · exact ih hx
  | served hy hr h ih =>
      rcases List.mem_cons.mp hx with rfl | hx
      · obtain rfl := Option.some.inj (hr.resolve_left (Option.some_ne_none x))
        exact fun hV => (h.left_subset hV).2 rfl
      · exact ih hx

/-- Without open requests, what is not named is left. -/
theorem Serves.unnamed_left (h : Serves rs U A V) (hopen : none ∉ rs) (hx : x ∈ U)
    (hname : some x ∉ rs) : x ∈ V := by
  induction h with
  | nil U => exact hx
  | refused hnone h ih =>
      exact ih (List.not_mem_of_not_mem_cons hopen) hx (List.not_mem_of_not_mem_cons hname)
  | @served r rs U A V y hy hr h ih =>
      apply ih (List.not_mem_of_not_mem_cons hopen) _ (List.not_mem_of_not_mem_cons hname)
      refine ⟨hx, ?_⟩
      rintro rfl
      rcases hr with rfl | rfl
      · exact hopen List.mem_cons_self
      · exact hname List.mem_cons_self

theorem Serves.left_eq (h : Serves rs U A V) (hopen : none ∉ rs) :
    V = {y | y ∈ U ∧ some y ∉ rs} := by
  ext y
  constructor
  · intro hy
    exact ⟨h.left_subset hy, fun hname => h.named_gone hname hy⟩
  · intro hy
    exact h.unnamed_left hopen hy.1 hy.2

/-- Open requests can be served with other items than `x`, if there are more items than requests. -/
theorem exists_keeping_open {n : Nat} (hx : x ∈ U) (hn : (n : ℕ∞) < U.encard) :
    ∃ A V, Serves (List.replicate n none) U A V ∧ x ∈ V := by
  induction n generalizing U with
  | zero => exact ⟨∅, U, .nil U, hx⟩
  | succ n ih =>
      have hmany : 1 < U.encard := lt_of_le_of_lt (by exact_mod_cast n.succ_pos) hn
      obtain ⟨y, hy, hyx⟩ := Set.exists_ne_of_one_lt_encard hmany x
      have hless : (n : ℕ∞) < (U \ {y}).encard := by
        rw [← Set.encard_sdiff_singleton_add_one hy] at hn
        exact lt_of_add_lt_add_right (by exact_mod_cast hn)
      obtain ⟨A, V, h, hV⟩ := ih (U := U \ {y}) ⟨hx, hyx.symm⟩ hless
      exact ⟨_, V, h.served hy (Or.inl rfl), hV⟩

variable [DecidableEq α]

/-- Each open request takes an item, as long as there are any. -/
theorem Serves.count_le (h : Serves rs U A V) (hV : V.Nonempty) :
    (rs.count none : ℕ∞) + V.encard ≤ U.encard := by
  induction h with
  | nil U => simp
  | @refused r rs U A V hnone h ih =>
      have hne : r ≠ none := by
        rintro rfl
        obtain ⟨y, hy⟩ := hV
        exact hnone y (h.left_subset hy) (Or.inl rfl)
      rw [List.count_cons_of_ne hne]
      exact ih hV
  | @served r rs U A V x hx hr h ih =>
      have hcount : (r :: rs).count none ≤ rs.count none + 1 := by
        rw [List.count_cons]
        split <;> omega
      have hcast : ((r :: rs).count none : ℕ∞) ≤ (rs.count none : ℕ∞) + 1 := by
        exact_mod_cast hcount
      calc ((r :: rs).count none : ℕ∞) + V.encard
          ≤ (rs.count none : ℕ∞) + 1 + V.encard := add_le_add_left hcast _
        _ = (rs.count none : ℕ∞) + V.encard + 1 := add_right_comm ..
        _ ≤ (U \ {x}).encard + 1 := add_le_add_left (ih hV) 1
        _ = U.encard := Set.encard_sdiff_singleton_add_one hx

/-- The open requests first: an item that nobody names can be left. -/
theorem exists_keeping (hx : x ∈ U) (hname : some x ∉ rs) (hcount : (rs.count none : ℕ∞) < U.encard) :
    ∃ rs', rs'.Perm rs ∧ ∃ A V, Serves rs' U A V ∧ x ∈ V := by
  have hperm : (List.replicate (rs.count none) none ++ rs.filter (fun r => !(r == none))).Perm rs := by
    rw [← List.filter_beq]
    exact List.filter_append_perm (· == none) rs
  obtain ⟨A, V, h, hV⟩ := exists_keeping_open hx hcount
  obtain ⟨A', W, h'⟩ := exists_serves (rs.filter fun r => !(r == none)) V
  obtain ⟨B, hB⟩ := h.append h'
  refine ⟨_, hperm, B, W, hB, ?_⟩
  apply h'.unnamed_left _ hV
  · exact fun hmem => hname (List.mem_of_mem_filter hmem)
  · simp

/-- An open request first: it can take any item. -/
theorem exists_taking (hx : x ∈ U) (hopen : none ∈ rs) :
    ∃ rs', rs'.Perm rs ∧ ∃ A V, Serves rs' U A V ∧ x ∉ V := by
  obtain ⟨A, V, h⟩ := exists_serves (rs.erase none) (U \ {x})
  exact ⟨none :: rs.erase none, (List.perm_cons_erase hopen).symm, _, V, h.served hx (Or.inl rfl),
    fun hV => (h.left_subset hV).2 rfl⟩

/-- What is left does not depend on the order of the requests and on the choices. -/
def Settled (rs : List (Option α)) (U : Set α) : Prop :=
  ∀ rs', rs'.Perm rs → ∀ A V A' V', Serves rs U A V → Serves rs' U A' V' → V = V'

theorem settled_iff :
    Settled rs U ↔ none ∉ rs ∨ (∀ x ∈ U, some x ∈ rs) ∨ U.encard ≤ rs.count none := by
  constructor
  · intro hsettled
    by_contra hcond
    simp only [not_or, not_not, not_forall, not_le] at hcond
    obtain ⟨hopen, ⟨x, hx, hname⟩, hcount⟩ := hcond
    obtain ⟨A, V, h⟩ := exists_serves rs U
    obtain ⟨rs₁, hperm₁, A₁, V₁, h₁, hkept⟩ := exists_keeping hx hname hcount
    obtain ⟨rs₂, hperm₂, A₂, V₂, h₂, htaken⟩ := exists_taking hx hopen
    apply htaken
    rw [← hsettled rs₂ hperm₂ A V A₂ V₂ h h₂, hsettled rs₁ hperm₁ A V A₁ V₁ h h₁]
    exact hkept
  · intro hcond rs' hperm A V A' V' h h'
    rcases hcond with hopen | hnamed | hcount
    · rw [h.left_eq hopen, h'.left_eq fun hmem => hopen (hperm.mem_iff.mp hmem)]
      simp only [hperm.mem_iff]
    · have hempty {rs : List (Option α)} {A V : Set α} (h : Serves rs U A V)
          (hnamed : ∀ x ∈ U, some x ∈ rs) : V = ∅ :=
        Set.eq_empty_of_forall_notMem fun x hx => h.named_gone (hnamed x (h.left_subset hx)) hx
      rw [hempty h hnamed, hempty h' fun x hx => hperm.mem_iff.mpr (hnamed x hx)]
    · have hempty {rs : List (Option α)} {A V : Set α} (h : Serves rs U A V)
          (hcount : U.encard ≤ rs.count none) : V = ∅ := by
        by_contra hne
        have hV := Set.nonempty_iff_ne_empty.mpr hne
        have hone : (rs.count none : ℕ∞) + 1 ≤ rs.count none :=
          calc (rs.count none : ℕ∞) + 1
              ≤ rs.count none + V.encard :=
                add_le_add_right (Set.one_le_encard_iff_nonempty.mpr hV) _
            _ ≤ U.encard := h.count_le hV
            _ ≤ rs.count none := hcount
        exact absurd (by exact_mod_cast hone : rs.count none + 1 ≤ rs.count none) (by omega)
      rw [hempty h hcount, hempty h' (by rw [hperm.count_eq]; exact hcount)]

section Keys

variable {κ β : Type*} [DecidableEq κ]

/-- The requests behind a list of keys: a key is good for one request. -/
def requests (f : κ → Option β) : List κ → List β
  | [] => []
  | key :: keys =>
      match f key with
      | none => requests f keys
      | some r => r :: requests (Function.update f key none) keys

variable {f : κ → Option β} {key : κ} {keys keys' : List κ} {r : β} {reqs : List β}

theorem requests_cons_none (h : f key = none) : requests f (key :: keys) = requests f keys := by
  rw [requests, h]

theorem requests_cons_some (h : f key = some r) :
    requests f (key :: keys) = r :: requests (Function.update f key none) keys := by
  rw [requests, h]

theorem mem_requests : r ∈ requests f keys ↔ ∃ key ∈ keys, f key = some r := by
  induction keys generalizing f with
  | nil => simp [requests]
  | cons k keys ih =>
      simp only [List.mem_cons, exists_eq_or_imp]
      cases hk : f k with
      | none =>
          rw [requests_cons_none hk, ih]
          simp
      | some r' =>
          rw [requests_cons_some hk, List.mem_cons, ih, Option.some.injEq]
          constructor
          · rintro (rfl | ⟨key, hkey, hr⟩)
            · exact Or.inl rfl
            · by_cases hkk : key = k
              · rw [hkk, Function.update_self] at hr
                cases hr
              · rw [Function.update_of_ne hkk] at hr
                exact Or.inr ⟨key, hkey, hr⟩
          · rintro (rfl | ⟨key, hkey, hr⟩)
            · exact Or.inl rfl
            · by_cases hkk : key = k
              · rw [hkk, hk, Option.some.injEq] at hr
                exact Or.inl hr.symm
              · exact Or.inr ⟨key, hkey, by rw [Function.update_of_ne hkk, hr]⟩

theorem requests_perm (h : keys.Perm keys') : (requests f keys).Perm (requests f keys') := by
  induction h generalizing f with
  | nil => exact List.Perm.refl _
  | cons k h ih =>
      cases hk : f k with
      | none =>
          rw [requests_cons_none hk, requests_cons_none hk]
          exact ih
      | some r =>
          rw [requests_cons_some hk, requests_cons_some hk]
          exact ih.cons r
  | swap a b keys =>
      by_cases hab : a = b
      · rw [hab]
      · have ha : Function.update f b none a = f a := Function.update_of_ne hab ..
        have hb : Function.update f a none b = f b := Function.update_of_ne (Ne.symm hab) ..
        cases hfa : f a with
        | none =>
            rw [requests_cons_none hfa]
            cases hfb : f b with
            | none => rw [requests_cons_none hfb, requests_cons_none hfb, requests_cons_none hfa]
            | some r =>
                rw [requests_cons_some hfb, requests_cons_some hfb,
                  requests_cons_none (ha.trans hfa)]
        | some q =>
            rw [requests_cons_some hfa]
            cases hfb : f b with
            | none =>
                rw [requests_cons_none hfb, requests_cons_none (hb.trans hfb),
                  requests_cons_some hfa]
            | some r =>
                rw [requests_cons_some hfb, requests_cons_some (ha.trans hfa),
                  requests_cons_some (hb.trans hfb), Function.update_comm hab]
                exact List.Perm.swap q r _
  | trans _ _ ih ih' => exact ih.trans ih'

/-- Every order of the requests is the one of some order of the keys. -/
theorem exists_requests_eq (h : reqs.Perm (requests f keys)) :
    ∃ keys', keys'.Perm keys ∧ requests f keys' = reqs := by
  induction reqs generalizing f keys with
  | nil => exact ⟨keys, List.Perm.refl _, h.nil_eq.symm⟩
  | cons r reqs ih =>
      obtain ⟨key, hkey, hr⟩ := mem_requests.mp (h.mem_iff.mp List.mem_cons_self)
      have hfront := List.perm_cons_erase hkey
      have hrest := h.trans (requests_perm hfront)
      rw [requests_cons_some hr] at hrest
      obtain ⟨keys', hperm, heq⟩ := ih hrest.cons_inv
      refine ⟨key :: keys', (hperm.cons key).trans hfront.symm, ?_⟩
      rw [requests_cons_some hr, heq]

/-- How often a request is made: once for each key it is behind. -/
theorem count_requests [BEq β] [LawfulBEq β] [DecidableEq β] (f : κ → Option β) (keys : List κ)
    (r : β) :
    (requests f keys).count r = (keys.toFinset.filter fun key => f key = some r).card := by
  induction keys generalizing f with
  | nil => rfl
  | cons k keys ih =>
      rw [List.toFinset_cons, Finset.filter_insert]
      cases hk : f k with
      | none =>
          rw [requests_cons_none hk, ih, if_neg (Option.some_ne_none r).symm]
      | some q =>
          have hrest : (keys.toFinset.filter fun key => Function.update f k none key = some r) =
              (keys.toFinset.filter fun key => f key = some r).erase k := by
            ext key
            by_cases hkk : key = k
            · simp [hkk]
            · simp [hkk]
          rw [requests_cons_some hk, List.count_cons, ih, hrest]
          by_cases hq : q = r
          · rw [if_pos (by simp [hq]), if_pos (by rw [hq]), ← Finset.erase_insert_eq_erase]
            exact Finset.card_erase_add_one (Finset.mem_insert_self ..)
          · rw [if_neg (by simp [hq]), if_neg (by simp [hq]), Finset.erase_eq_of_notMem]
            · rfl
            · simp [hk, hq]

end Keys

end Service
