import Mathlib.Logic.Function.Basic
import Mathlib.Tactic.Common

/-!
# A tree of files

Directories with named entries, symbolic links and other nodes, with the resolution of paths. A path
is a list of characters; where it leads to is a directory and the name of an entry in it.
-/

namespace FileTree

/-- The parts of a path between its separators. -/
def components (path : List Char) : List (List Char) := path.splitOn '/'

def lastComponent (path : List Char) : List Char := (components path).getLastD []

/-- A component that names an entry. -/
def IsName (c : List Char) : Prop := c ≠ [] ∧ c ≠ ['.'] ∧ c ≠ ['.', '.']

instance (c : List Char) : Decidable (IsName c) :=
  inferInstanceAs (Decidable (_ ∧ _ ∧ _))

variable {path dir c : List Char}

theorem components_append (xs ys : List Char) :
    components (xs ++ '/' :: ys) = components xs ++ components ys :=
  List.splitOn_append_cons_self xs ys

theorem components_single (h : '/' ∉ c) : components c = [c] := List.splitOn_eq_singleton h

theorem lastComponent_append (xs ys : List Char) :
    lastComponent (xs ++ '/' :: ys) = lastComponent ys := by
  have hys : components ys ≠ [] := List.splitOn_ne_nil '/' ys
  rw [lastComponent, lastComponent, components_append, List.getLastD_eq_getLast?,
    List.getLastD_eq_getLast?, List.getLast?_append, List.getLast?_eq_some_getLast hys, Option.some_or]

theorem lastComponent_single (h : '/' ∉ c) : lastComponent c = c := by
  rw [lastComponent, components_single h]
  rfl

/-- What a name in a directory stands for. -/
inductive Entry (δ κ : Type*) where
  | dir (d : δ)
  | symlink (target : List Char)
  | leaf (x : κ)

end FileTree

structure FileTree (δ κ : Type*) where
  root : δ
  parent : δ → δ
  entry : δ → List Char → Option (FileTree.Entry δ κ)
  maxLinks : Nat

namespace FileTree

variable {path dir c : List Char} {δ κ : Type*}

def Entry.map {κ' : Type*} (f : κ → κ') : Entry δ κ → Entry δ κ'
  | .dir d => .dir d
  | .symlink target => .symlink target
  | .leaf x => .leaf (f x)

/-- The same tree with other leaves. -/
def map {κ' : Type*} (f : κ → κ') (t : FileTree δ κ) : FileTree δ κ' :=
  ⟨t.root, t.parent, fun d c => (t.entry d c).map (Entry.map f), t.maxLinks⟩

/-- The directory that the components lead to from `d`, with a bound on the symbolic links that are
followed. -/
def walk (t : FileTree δ κ) (links : Nat) (d : δ) (cs : List (List Char)) : Option δ :=
  match cs with
  | [] => some d
  | c :: cs =>
      if c = [] ∨ c = ['.'] then t.walk links d cs
      else if c = ['.', '.'] then t.walk links (t.parent d) cs
      else match t.entry d c with
      | some (.dir d') => t.walk links d' cs
      | some (.symlink target) =>
          match links with
          | 0 => none
          | links + 1 =>
              t.walk links (if target.head? = some '/' then t.root else d) (components target ++ cs)
      | _ => none
termination_by (links, cs.length)

variable (t : FileTree δ κ) (path : List Char)

def directory : Option δ := t.walk t.maxLinks t.root (components path)

/-- The directory and the name that an absolute path leads to; its last component is not followed. -/
def place : Option (δ × List Char) :=
  (t.walk t.maxLinks t.root (components path).dropLast).map fun d => (d, lastComponent path)

/-- The path leads to a name in the directory, if anywhere. -/
def ChildOf (dir : List Char) : Prop :=
  ∀ d c, t.place path = some (d, c) → t.directory dir = some d ∧ IsName c

/-- The entry that `unlink` removes: not a directory. -/
def unlinked : Option (δ × List Char × Entry δ κ) :=
  match t.place path with
  | some (d, c) =>
      match t.entry d c with
      | none => none
      | some (.dir _) => none
      | some e => if IsName c then some (d, c, e) else none
  | none => none

variable [DecidableEq δ]

def setEntry (d : δ) (c : List Char) (e : Option (Entry δ κ)) : FileTree δ κ :=
  { t with entry := Function.update t.entry d (Function.update (t.entry d) c e) }

/-- A new leaf, where the path leads to a name without an entry. -/
def create (x : κ) : FileTree δ κ :=
  match t.place path with
  | some (d, c) =>
      if IsName c ∧ (t.entry d c).isNone then t.setEntry d c (some (.leaf x)) else t
  | none => t

def unlink : FileTree δ κ :=
  match t.unlinked path with
  | some (d, c, _) => t.setEntry d c none
  | none => t

variable {t} {path} {d : δ} {c : List Char} {e : Entry δ κ} {x : κ}

omit [DecidableEq δ] in
theorem lastComponent_of_place (h : t.place path = some (d, c)) : c = lastComponent path := by
  obtain ⟨_, _, hplace⟩ := Option.map_eq_some_iff.mp h
  exact (congrArg Prod.snd hplace).symm

omit [DecidableEq δ] in
/-- A single component behind a directory is an entry of that directory. -/
theorem place_append (t : FileTree δ κ) (dir : List Char) (hc : '/' ∉ c) :
    t.place (dir ++ '/' :: c) = (t.directory dir).map fun d => (d, c) := by
  rw [place, lastComponent_append, lastComponent_single hc, components_append, components_single hc,
    List.dropLast_concat, directory]

omit [DecidableEq δ] in
theorem childOf_append (t : FileTree δ κ) (dir : List Char) (hc : '/' ∉ c) (hname : IsName c) :
    t.ChildOf (dir ++ '/' :: c) dir := by
  intro d c' h
  rw [place_append t dir hc] at h
  obtain ⟨d', hd', hplace⟩ := Option.map_eq_some_iff.mp h
  obtain ⟨rfl, rfl⟩ := Prod.mk.inj hplace
  exact ⟨hd', hname⟩

omit [DecidableEq δ] in
theorem unlinked_iff : t.unlinked path = some (d, c, e) ↔
    t.place path = some (d, c) ∧ t.entry d c = some e ∧ (∀ d', e ≠ .dir d') ∧ IsName c := by
  unfold unlinked
  cases hplace : t.place path with
  | none => simp
  | some x =>
      obtain ⟨d', c'⟩ := x
      cases hentry : t.entry d' c' with
      | none =>
          simp only [hentry, Option.some.injEq, Prod.mk.injEq, reduceCtorEq, false_iff]
          rintro ⟨⟨rfl, rfl⟩, he, _⟩
          rw [hentry] at he
          cases he
      | some e' =>
          simp only [hentry, Option.some.injEq, Prod.mk.injEq]
          constructor
          · intro h
            cases e' with
            | dir d'' => cases h
            | _ =>
                obtain ⟨hc, h⟩ := Option.ite_none_right_eq_some.mp h
                cases h
                exact ⟨⟨rfl, rfl⟩, hentry, nofun, hc⟩
          · rintro ⟨⟨rfl, rfl⟩, he, hdir, hc⟩
            obtain rfl := Option.some.inj (hentry.symm.trans he)
            cases e' with
            | dir d'' => exact absurd rfl (hdir d'')
            | _ => exact if_pos hc

theorem entry_setEntry (t : FileTree δ κ) (d d' : δ) (c c' : List Char) (e : Option (Entry δ κ)) :
    (t.setEntry d c e).entry d' c' = if d' = d ∧ c' = c then e else t.entry d' c' := by
  by_cases hd : d' = d
  · subst hd
    by_cases hc : c' = c
    · simp [setEntry, hc]
    · simp [setEntry, hc]
  · simp [setEntry, hd]

/-- `create` adds at most a leaf where its path leads to. -/
theorem entry_create (h : (t.create path x).entry d c = some e) :
    t.entry d c = some e ∨ (t.place path = some (d, c) ∧ e = .leaf x) := by
  unfold create at h
  cases hplace : t.place path with
  | none =>
      simp only [hplace] at h
      exact Or.inl h
  | some at' =>
      simp only [hplace] at h
      split at h
      · rw [entry_setEntry] at h
        split at h
        next hat =>
          obtain ⟨rfl, rfl⟩ := hat
          exact Or.inr ⟨rfl, (Option.some.inj h).symm⟩
        · exact Or.inl h
      · exact Or.inl h

/-- `create` leaves an entry that is there. -/
theorem create_of_entry (x : κ) (hplace : t.place path = some (d, c)) (he : t.entry d c = some e) :
    t.create path x = t := by
  unfold create
  simp only [hplace, he, Option.isNone_some, Bool.false_eq_true, and_false, if_false]

theorem create_of_none (x : κ) (hplace : t.place path = some (d, c)) (hname : IsName c)
    (he : t.entry d c = none) : t.create path x = t.setEntry d c (some (.leaf x)) := by
  simp only [create, hplace, hname, he, Option.isNone_none, and_self, if_true]

theorem unlink_of_none (h : t.unlinked path = none) : t.unlink path = t := by
  simp only [unlink, h]

theorem unlink_of_some (h : t.unlinked path = some (d, c, e)) :
    t.unlink path = t.setEntry d c none := by
  simp only [unlink, h]

/-- No path goes on behind it: there is no entry, or a leaf. -/
def DeadEnd : Option (Entry δ κ) → Prop
  | some (.dir _) | some (.symlink _) => False
  | _ => True

theorem deadEnd_setEntry {e : Option (Entry δ κ)} (hnew : DeadEnd e) {d' : δ} {c' : List Char}
    (h : DeadEnd (t.entry d' c')) : DeadEnd ((t.setEntry d c e).entry d' c') := by
  rw [entry_setEntry]
  split
  · exact hnew
  · exact h

/-- What is no dead end is another entry. -/
theorem entry_setEntry_of_go {e : Option (Entry δ κ)} (hold : DeadEnd (t.entry d c)) {d' : δ}
    {c' : List Char} (hgo : ¬ DeadEnd (t.entry d' c')) :
    (t.setEntry d c e).entry d' c' = t.entry d' c' := by
  rw [entry_setEntry, if_neg]
  rintro ⟨rfl, rfl⟩
  exact hgo hold

omit [DecidableEq δ] in
theorem walk_deadEnd {links : Nat} {cs : List (List Char)} (hstay : ¬ (c = [] ∨ c = ['.']))
    (hup : c ≠ ['.', '.']) (hend : DeadEnd (t.entry d c)) : t.walk links d (c :: cs) = none := by
  rw [walk, if_neg hstay, if_neg hup]
  cases hentry : t.entry d c with
  | none => rfl
  | some node =>
      rw [hentry] at hend
      cases node with
      | leaf x => rfl
      | dir d' => exact hend.elim
      | symlink target => exact hend.elim

/-- Paths lead where they led when leaves come and go. -/
theorem walk_setEntry {e : Option (Entry δ κ)} (hold : DeadEnd (t.entry d c)) (hnew : DeadEnd e)
    (links : Nat) (d' : δ) (cs : List (List Char)) :
    (t.setEntry d c e).walk links d' cs = t.walk links d' cs := by
  have hsame {d' : δ} {c' : List Char} {node : Entry δ κ} (hnode : t.entry d' c' = some node)
      (hgo : ¬ DeadEnd (some node)) : (t.setEntry d c e).entry d' c' = some node := by
    rw [entry_setEntry_of_go hold (by rwa [hnode]), hnode]
  fun_induction walk t links d' cs with
  | case1 => rw [walk]
  | case2 links d' c' cs hstay ih => rw [walk, if_pos hstay, ih]
  | case3 links d' cs hstay ih => rw [walk, if_neg hstay, if_pos rfl, ← ih, setEntry]
  | case4 links d' c' cs hstay hup d'' hdir ih =>
      rw [walk, if_neg hstay, if_neg hup, hsame hdir id]
      exact ih
  | case5 d' c' cs hstay hup target hlink =>
      rw [walk, if_neg hstay, if_neg hup, hsame hlink id]
  | case6 d' c' cs hstay hup target hlink links ih =>
      rw [walk, if_neg hstay, if_neg hup, hsame hlink id]
      exact ih
  | case7 links d' c' cs hstay hup hdir hlink =>
      apply walk_deadEnd hstay hup
      apply deadEnd_setEntry hnew
      cases hentry : t.entry d' c' with
      | none => trivial
      | some node =>
          cases node with
          | leaf x => trivial
          | dir d'' => exact (hdir d'' hentry).elim
          | symlink target => exact (hlink target hentry).elim

theorem place_setEntry {e : Option (Entry δ κ)} (hold : DeadEnd (t.entry d c)) (hnew : DeadEnd e)
    (path : List Char) : (t.setEntry d c e).place path = t.place path :=
  congrArg (Option.map fun d => (d, lastComponent path)) (walk_setEntry hold hnew _ _ _)

theorem entry_unlink (h : (t.unlink path).entry d c = some e) : t.entry d c = some e := by
  unfold unlink at h
  split at h
  · rw [entry_setEntry] at h
    split at h
    · cases h
    · exact h
  · exact h

end FileTree
