import Mathlib.Data.List.DropRight
import Mathlib.Data.List.TakeWhile

/-!
# Texts of lines

A text is cut into lines at `eol`, a line is trimmed of the characters of `space`, or cut at the
first separator. The lemmas say what each gives back of a text that was put together from its parts.
-/

namespace Lines

variable {α : Type*}

section Cut

variable [DecidableEq α]

/-- The lines of a text; what stands behind the last `eol` is a line if there is any of it. -/
def lines (eol : α) : List α → List (List α)
  | [] => []
  | c :: cs =>
      if c = eol then [] :: lines eol cs
      else
        match lines eol cs with
        | [] => [[c]]
        | line :: rest => (c :: line) :: rest

/-- The parts of a text before and behind the first separator. -/
def cut (sep : α) : List α → Option (List α × List α)
  | [] => none
  | c :: cs => if c = sep then some ([], cs) else (cut sep cs).map fun p => (c :: p.1, p.2)

/-- The text behind the first occurrence of a tag. -/
def behind (tag : List α) : List α → Option (List α)
  | [] => none
  | c :: cs =>
      if tag.isPrefixOf (c :: cs) then some ((c :: cs).drop tag.length) else behind tag cs

/-- Where a tag occurs first. -/
def find (tag : List α) : List α → Option Nat
  | [] => if tag = [] then some 0 else none
  | c :: cs => if tag.isPrefixOf (c :: cs) then some 0 else (find tag cs).map (· + 1)

variable {eol sep : α} {line text left right : List α}

theorem lines_line (h : eol ∉ line) (text : List α) :
    lines eol (line ++ eol :: text) = line :: lines eol text := by
  induction line with
  | nil => rw [List.nil_append, lines, if_pos rfl]
  | cons c line ih =>
      rw [List.mem_cons, not_or] at h
      rw [List.cons_append, lines, if_neg (Ne.symm h.1), ih h.2]

theorem lines_last (h : eol ∉ line) (hne : line ≠ []) : lines eol line = [line] := by
  induction line with
  | nil => exact absurd rfl hne
  | cons c line ih =>
      rw [List.mem_cons, not_or] at h
      rw [lines, if_neg (Ne.symm h.1)]
      cases line with
      | nil => rfl
      | cons d line => rw [ih h.2 (List.cons_ne_nil _ _)]

theorem not_mem_of_mem_lines (h : line ∈ lines eol text) : eol ∉ line := by
  induction text generalizing line with
  | nil => cases h
  | cons c cs ih =>
      rw [lines] at h
      split at h
      case isTrue =>
        rcases List.mem_cons.mp h with rfl | h
        · exact List.not_mem_nil
        · exact ih h
      case isFalse hc =>
        split at h
        case h_1 =>
          rw [List.mem_singleton] at h
          rw [h, List.mem_singleton]
          exact Ne.symm hc
        case h_2 first rest hlines =>
          rw [hlines] at ih
          rcases List.mem_cons.mp h with rfl | h
          · rw [List.mem_cons, not_or]
            exact ⟨Ne.symm hc, ih (List.mem_cons_self ..)⟩
          · exact ih (List.mem_cons_of_mem _ h)

theorem find_some {tag : List α} {i : Nat} (h : find tag text = some i) :
    tag <+: text.drop i ∧ ∀ j < i, ¬ tag <+: text.drop j := by
  induction text generalizing i with
  | nil =>
      rw [find] at h
      split at h
      case isTrue hempty =>
        obtain rfl := Option.some.inj h
        exact ⟨hempty ▸ List.nil_prefix, fun j hj => absurd hj (Nat.not_lt_zero j)⟩
      case isFalse => cases h
  | cons c cs ih =>
      rw [find] at h
      split at h
      case isTrue hfound =>
        obtain rfl := Option.some.inj h
        exact ⟨List.isPrefixOf_iff_prefix.mp hfound, fun j hj => absurd hj (Nat.not_lt_zero j)⟩
      case isFalse hnot =>
        obtain ⟨k, hk, rfl⟩ := Option.map_eq_some_iff.mp h
        obtain ⟨hfound, hbefore⟩ := ih hk
        refine ⟨hfound, fun j hj => ?_⟩
        cases j with
        | zero => exact fun hprefix => hnot (List.isPrefixOf_iff_prefix.mpr hprefix)
        | succ j => exact hbefore j (Nat.lt_of_succ_lt_succ hj)

theorem find_none_iff {tag : List α} : find tag text = none ↔ ¬ tag <:+: text := by
  induction text with
  | nil =>
      rw [find, List.infix_nil]
      by_cases hempty : tag = []
      · simp [hempty]
      · simp [hempty]
  | cons c cs ih =>
      rw [find, List.infix_cons_iff, ← List.isPrefixOf_iff_prefix]
      by_cases hfound : tag.isPrefixOf (c :: cs) = true
      · simp [hfound]
      · simp [hfound, ih]

theorem cut_append (h : sep ∉ left) (right : List α) :
    cut sep (left ++ sep :: right) = some (left, right) := by
  induction left with
  | nil => rw [List.nil_append, cut, if_pos rfl]
  | cons c left ih =>
      rw [List.mem_cons, not_or] at h
      rw [List.cons_append, cut, if_neg (Ne.symm h.1), ih h.2, Option.map_some]

theorem cut_none (h : sep ∉ text) : cut sep text = none := by
  induction text with
  | nil => rfl
  | cons c text ih =>
      rw [List.mem_cons, not_or] at h
      rw [cut, if_neg (Ne.symm h.1), ih h.2, Option.map_none]

theorem cut_some (h : cut sep text = some (left, right)) :
    text = left ++ sep :: right ∧ sep ∉ left := by
  induction text generalizing left with
  | nil => cases h
  | cons c text ih =>
      rw [cut] at h
      split at h
      case isTrue hc =>
        obtain ⟨rfl, rfl⟩ := Prod.mk.inj (Option.some.inj h)
        exact ⟨by rw [hc, List.nil_append], List.not_mem_nil⟩
      case isFalse hc =>
        obtain ⟨⟨left', right'⟩, hcut, heq⟩ := Option.map_eq_some_iff.mp h
        obtain ⟨rfl, rfl⟩ := Prod.mk.inj heq
        obtain ⟨htext, hsep⟩ := ih hcut
        refine ⟨by rw [htext, List.cons_append], ?_⟩
        rw [List.mem_cons, not_or]
        exact ⟨Ne.symm hc, hsep⟩

theorem takeWhile_ne_append (sep : α) (left right : List α) :
    (left ++ sep :: right).takeWhile (· ≠ sep) = left.takeWhile (· ≠ sep) := by
  induction left with
  | nil => simp
  | cons c left ih =>
      rw [List.cons_append, List.takeWhile_cons, List.takeWhile_cons, ih]

theorem takeWhile_ne_eq_self_iff : text.takeWhile (· ≠ sep) = text ↔ sep ∉ text := by
  rw [List.takeWhile_eq_self_iff]
  constructor
  · intro h hmem
    simpa using h sep hmem
  · intro h c hc
    simpa using fun heq : c = sep => h (heq ▸ hc)

theorem not_mem_of_cut_none (h : cut sep text = none) : sep ∉ text := by
  intro hmem
  obtain ⟨left, right, hsplit, hleft⟩ := List.eq_append_cons_of_mem hmem
  rw [hsplit, cut_append hleft] at h
  cases h

end Cut

section Trim

variable (space : α → Bool)

def trim (text : List α) : List α := (text.dropWhile space).rdropWhile space

/-- Neither the first nor the last character is one of `space`. -/
structure Trimmed (text : List α) : Prop where
  head : ∀ c, text.head? = some c → space c = false
  last : ∀ c, text.getLast? = some c → space c = false

variable {space} {text left mid right : List α}

theorem trimmed_nil : Trimmed space ([] : List α) where
  head := fun _ h => nomatch h
  last := fun _ h => nomatch h

private theorem exists_rdropWhile (space : α → Bool) (text : List α) :
    ∃ rest, text = text.rdropWhile space ++ rest :=
  ⟨text.rtakeWhile space, List.rdropWhile_append_rtakeWhile.symm⟩

theorem mem_of_mem_trim {c : α} (h : c ∈ trim space text) : c ∈ text := by
  obtain ⟨rest, hrest⟩ := exists_rdropWhile space (text.dropWhile space)
  apply List.dropWhile_subset space
  rw [hrest]
  exact List.mem_append_left _ h

private theorem rdropWhile_last {c : α} (h : (text.rdropWhile space).getLast? = some c) :
    space c = false := by
  have hne : text.rdropWhile space ≠ [] := by
    intro hnil
    rw [hnil] at h
    cases h
  have hlast := List.rdropWhile_last_not space text hne
  rw [List.getLast?_eq_some_getLast hne, Option.some.injEq] at h
  rw [h] at hlast
  simpa using hlast

private theorem head?_of_rdropWhile {c : α} (h : (text.rdropWhile space).head? = some c) :
    text.head? = some c := by
  obtain ⟨rest, hrest⟩ := exists_rdropWhile space text
  rw [hrest, List.head?_append, h, Option.some_or]

theorem trim_trimmed (text : List α) : Trimmed space (trim space text) where
  head := by
    intro c hc
    have hdrop := List.head?_dropWhile_not space text
    rw [head?_of_rdropWhile hc] at hdrop
    exact hdrop
  last := fun _ hc => rdropWhile_last hc

theorem Trimmed.trim_append (h : Trimmed space text) (hright : ∀ c ∈ right, space c = true) :
    trim space (text ++ right) = text := by
  cases text with
  | nil =>
      rw [List.nil_append, trim, List.dropWhile_eq_nil_iff.mpr hright, List.rdropWhile_nil]
  | cons c text =>
      have hc : ¬ space c = true := by simp [h.head c rfl]
      have htail : ∀ ws : List α, (∀ d ∈ ws, space d = true) →
          ((c :: text) ++ ws).rdropWhile space = (c :: text).rdropWhile space := by
        intro ws hws
        induction ws using List.reverseRecOn with
        | nil => rw [List.append_nil]
        | append_singleton ws d ih =>
            rw [← List.append_assoc, List.rdropWhile_concat_pos _ _ _ (hws d (by simp))]
            exact ih fun e he => hws e (by simp [he])
      have hself : (c :: text).rdropWhile space = c :: text := by
        rw [List.rdropWhile_eq_self_iff]
        intro hne hlast
        rw [h.last _ (List.getLast?_eq_some_getLast hne)] at hlast
        cases hlast
      rw [trim, List.cons_append, List.dropWhile_cons_of_neg hc]
      exact (htail right hright).trans hself

theorem Trimmed.trim_eq (h : Trimmed space text) : trim space text = text := by
  have hnone : ∀ c ∈ ([] : List α), space c = true := fun _ hc => nomatch hc
  have htrim := h.trim_append hnone
  rwa [List.append_nil] at htrim

/-- A character that is kept, between a text that starts and one that ends with none of `space`. -/
theorem trimmed_around {c : α} (hleft : ∀ d, left.head? = some d → space d = false)
    (hc : space c = false) (hright : ∀ d, right.getLast? = some d → space d = false) :
    Trimmed space (left ++ c :: right) where
  head := by
    intro d hd
    cases left with
    | nil =>
        obtain rfl := Option.some.inj hd
        exact hc
    | cons e left => exact hleft d hd
  last := by
    intro d hd
    rw [List.getLast?_append, List.getLast?_cons, Option.some_or, Option.some.injEq] at hd
    cases hlast : right.getLast? with
    | none =>
        rw [hlast] at hd
        rw [← hd]
        exact hc
    | some e =>
        rw [hlast] at hd
        exact hright d (hlast.trans (congrArg some hd))

theorem trim_cons {c : α} (hc : space c = false) (text : List α) :
    ∃ rest, trim space (c :: text) = c :: rest := by
  have hneg : ¬ space c = true := by simp [hc]
  rw [trim, List.dropWhile_cons_of_neg hneg]
  cases hrest : (c :: text).rdropWhile space with
  | nil => exact absurd ((List.rdropWhile_eq_nil_iff.mp hrest) c (List.mem_cons_self ..)) hneg
  | cons d rest =>
      have hhead : (c :: text).head? = some d := head?_of_rdropWhile (by rw [hrest, List.head?_cons])
      obtain rfl := Option.some.inj hhead
      exact ⟨rest, rfl⟩

theorem trim_leading (hleft : ∀ c ∈ left, space c = true) (text : List α) :
    trim space (left ++ text) = trim space text := by
  rw [trim, List.dropWhile_append_of_pos hleft, trim]

end Trim

end Lines
