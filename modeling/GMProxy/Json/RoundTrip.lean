import GMProxy.Json.Dump

/-!
# The round trip of JSON values

`dump` and then `parse` give the value back, but for the numbers, as long as its arrays and objects are
not nested too deeply.
-/

namespace GMProxy.Json11

open Scan

variable {δ : Type} {doubles : Doubles δ}

mutual

/-- How deeply values are nested in arrays and objects. -/
def Json.depth : Json δ → Nat
  | .array values => depthItems values
  | .object values => depthMembers values
  | _ => 0

def depthItems : List (Json δ) → Nat
  | [] => 0
  | value :: rest => max (value.depth + 1) (depthItems rest)

def depthMembers : List (Bytes × Json δ) → Nat
  | [] => 0
  | (_, value) :: rest => max (value.depth + 1) (depthMembers rest)

end

mutual

/-- The value that is written and read again. -/
def Json.reread (doubles : Doubles δ) : Json δ → Json δ
  | .nul => .nul
  | .double value =>
      if doubles.isfinite value then numberOf doubles (doubles.format value) else .nul
  | .longlong value => rereadInteger doubles value.toInt
  | .int value => rereadInteger doubles value.toInt
  | .boolean value => .boolean value
  | .string value => .string value
  | .array values => .array (rereadItems doubles values)
  | .object values => .object (rereadMembers doubles values)

def rereadItems (doubles : Doubles δ) : List (Json δ) → List (Json δ)
  | [] => []
  | value :: rest => value.reread doubles :: rereadItems doubles rest

def rereadMembers (doubles : Doubles δ) : List (Bytes × Json δ) → List (Bytes × Json δ)
  | [] => []
  | (key, value) :: rest => (key, value.reread doubles) :: rereadMembers doubles rest

end

/-- The keys of a map are in order, and no two are equal. -/
def KeysOrdered {α : Type} (values : List (Bytes × α)) : Prop :=
  values.Pairwise fun m m' => before m.1 m'.1 = true

mutual

/-- Every object is a map. -/
def Json.Ordered : Json δ → Prop
  | .array values => OrderedItems values
  | .object values => KeysOrdered values ∧ OrderedMembers values
  | _ => True

def OrderedItems : List (Json δ) → Prop
  | [] => True
  | value :: rest => value.Ordered ∧ OrderedItems rest

def OrderedMembers : List (Bytes × Json δ) → Prop
  | [] => True
  | (_, value) :: rest => value.Ordered ∧ OrderedMembers rest

end

/-- The format of a finite double is the text of a number. -/
def Doubles.Prints (doubles : Doubles δ) : Prop :=
  ∀ x, doubles.isfinite x = true → ∃ v, NumberText doubles (doubles.format x) v

theorem before_iff_lt {a b : Bytes} : before a b = true ↔ a < b := by
  fun_induction before a b with
  | case1 a => simp
  | case2 => simp
  | case3 x as y bs h => simp [List.cons_lt_cons_iff, h]
  | case4 x as y bs h h' =>
      have hne : x ≠ y := by
        rintro rfl
        exact h h'
      simp [List.cons_lt_cons_iff, h, hne]
  | case5 x as y bs h h' ih =>
      obtain rfl : x = y := UInt8.le_antisymm (UInt8.not_lt.mp h') (UInt8.not_lt.mp h)
      simp [ih]

theorem before_trans {a b c : Bytes} (hab : before a b = true) (hbc : before b c = true) :
    before a c = true :=
  before_iff_lt.mpr (List.lt_trans (before_iff_lt.mp hab) (before_iff_lt.mp hbc))

theorem before_asymm {a b : Bytes} (h : before a b = true) : before b a = false := by
  rw [Bool.eq_false_iff]
  intro h'
  exact List.lt_asymm (before_iff_lt.mp h) (before_iff_lt.mp h')

theorem before_total {a b : Bytes} (h : ¬ before a b = true) (h' : ¬ before b a = true) : a = b := by
  rw [before_iff_lt, List.not_lt] at h h'
  exact List.le_antisymm h' h

section

variable {α : Type} {key k : Bytes} {value : α} {data : List (Bytes × α)}

/-- A key behind all others is added at the end. -/
theorem assign_last (h : ∀ m ∈ data, before m.1 key = true) :
    assign key value data = data ++ [(key, value)] := by
  induction data with
  | nil => rfl
  | cons m data ih =>
      have hm := h m (by simp)
      rw [assign, before_asymm hm, if_pos hm, ih fun m' hm' => h m' (by simp [hm'])]
      simp

theorem mem_assign {m : Bytes × α} (h : m ∈ assign key value data) : m = (key, value) ∨ m ∈ data := by
  fun_induction assign key value data with
  | case1 => simpa using h
  | case2 k v rest hfront => simpa using h
  | case3 k v rest hfront hback ih =>
      rcases List.mem_cons.mp h with rfl | h
      · simp
      · exact (ih h).imp_right (List.mem_cons_of_mem _)
  | case4 k v rest hfront hback =>
      obtain rfl := before_total hfront hback
      rcases List.mem_cons.mp h with rfl | h
      · simp
      · simp [h]

/-- An assignment keeps the keys in order. -/
theorem assign_ordered (h : KeysOrdered data) : KeysOrdered (assign key value data) := by
  fun_induction assign key value data with
  | case1 => simp [KeysOrdered]
  | case2 k v rest hfront =>
      refine List.Pairwise.cons ?_ h
      intro m hm
      rcases List.mem_cons.mp hm with rfl | hm
      · exact hfront
      · exact before_trans hfront (List.rel_of_pairwise_cons h hm)
  | case3 k v rest hfront hback ih =>
      obtain ⟨hk, hrest⟩ := List.pairwise_cons.mp h
      refine List.Pairwise.cons ?_ (ih hrest)
      intro m hm
      rcases mem_assign hm with rfl | hm
      · exact hback
      · exact hk m hm
  | case4 k v rest hfront hback =>
      obtain rfl := before_total hfront hback
      obtain ⟨hk, hrest⟩ := List.pairwise_cons.mp h
      exact List.Pairwise.cons hk hrest

end

theorem members_ordered (ms : List (Bytes × Json δ)) : KeysOrdered (members ms) := by
  suffices h : ∀ data, KeysOrdered data →
      KeysOrdered (ms.foldl (fun data m => assign m.1 m.2 data) data) from h [] List.Pairwise.nil
  induction ms with
  | nil => exact fun data h => h
  | cons m ms ih => exact fun data h => ih _ (assign_ordered h)

theorem mem_members {ms : List (Bytes × Json δ)} {m : Bytes × Json δ} (h : m ∈ members ms) :
    m ∈ ms := by
  suffices h' : ∀ data, m ∈ ms.foldl (fun data m => assign m.1 m.2 data) data → m ∈ data ∨ m ∈ ms by
    simpa using h' [] h
  clear h
  induction ms with
  | nil => exact fun data h => Or.inl h
  | cons m' ms ih =>
      intro data h
      rcases ih _ h with h | h
      · rcases mem_assign h with rfl | h
        · exact Or.inr (by simp)
        · exact Or.inl h
      · exact Or.inr (List.mem_cons_of_mem _ h)

/-- The members of a map are written in order, so reading adds each at the end. -/
theorem members_eq {ms : List (Bytes × Json δ)} (h : KeysOrdered ms) : members ms = ms := by
  suffices h' : ∀ data, KeysOrdered (data ++ ms) →
      ms.foldl (fun data m => assign m.1 m.2 data) data = data ++ ms from h' [] h
  clear h
  induction ms with
  | nil => simp
  | cons m ms ih =>
      intro data hdata
      have hlast : assign m.1 m.2 data = data ++ [m] := by
        refine assign_last ?_
        intro m' hm'
        exact (List.pairwise_append.mp hdata).2.2 m' hm' m (by simp)
      rw [List.foldl_cons, hlast, ih _ (by simpa using hdata)]
      simp

theorem rereadMembers_keys (doubles : Doubles δ) (ms : List (Bytes × Json δ)) (h : KeysOrdered ms) :
    KeysOrdered (rereadMembers doubles ms) := by
  have hkeys : (rereadMembers doubles ms).map Prod.fst = ms.map Prod.fst := by
    induction ms with
    | nil => rfl
    | cons m ms ih => simp [rereadMembers, ih (List.Pairwise.of_cons h)]
  rw [KeysOrdered, ← List.pairwise_map (f := Prod.fst) (R := fun a b => before a b = true)] at h ⊢
  rw [hkeys]
  exact h

theorem spaced_more {α : Type} {P : Bytes → α → Prop} {t ts : Bytes} {v v' : α} {vs : List α}
    (ht : P t v) (hts : BlockText P ts (v' :: vs)) :
    BlockText P (t ++ (ascii ", " ++ ts)) (v :: v' :: vs) := by
  cases hts with
  | entries hsep =>
      have hfirst : Spaced P (t ++ []) v := .mk (w := []) (by simp [White]) ht (by simp [White])
      have hrest := separated_white (w := [0x20]) (by simp [White, isSpace]) hsep
      rw [List.append_nil] at hfirst
      exact .entries (.more hfirst hrest)

theorem spaced_last {α : Type} {P : Bytes → α → Prop} {t : Bytes} {v : α} (ht : P t v) :
    BlockText P t [v] := by
  have hspaced : Spaced P (t ++ []) v := .mk (w := []) (by simp [White]) ht (by simp [White])
  rw [List.append_nil] at hspaced
  exact .entries (.last hspaced)

theorem dumpMember_text {P : Bytes → Json δ → Prop} {key t : Bytes} {v : Json δ} (ht : P t v) :
    MemberText P (dumpString key ++ ascii ": " ++ t) (key, v) := by
  have h : MemberText P (dumpString key ++ ([] ++ 0x3a :: ([0x20] ++ t))) (key, v) :=
    .mk (dumpString_text key) (by simp [White]) (by simp [White, isSpace]) ht
  simpa [ascii] using h

mutual

theorem dump_text (hprints : doubles.Prints) (v : Json δ) (hordered : v.Ordered) {levels : Nat}
    (hdepth : v.depth ≤ levels) :
    ValueText doubles (levels + 1) (v.dump doubles) (v.reread doubles) := by
  cases v with
  | nul => exact .nul
  | boolean value => exact .boolean value
  | string value => exact .string (dumpString_text value)
  | int value => exact .number (decimal_text doubles value.toInt)
  | longlong value => exact .number (decimal_text doubles value.toInt)
  | double value =>
      by_cases hfinite : doubles.isfinite value = true
      · obtain ⟨v, hv⟩ := hprints value hfinite
        rw [Json.dump, Json.reread, if_pos hfinite, if_pos hfinite, ← numberText_numberOf hv]
        exact .number hv
      · rw [Json.dump, Json.reread, if_neg hfinite, if_neg hfinite]
        exact .nul
  | array values => exact .array (dumpItems_text hprints values hordered hdepth)
  | object values =>
      have hmembers := dumpMembers_text hprints values hordered.2 hdepth
      have h : LevelText doubles (ValueText doubles levels) _ _ := .object hmembers
      rw [members_eq (rereadMembers_keys doubles values hordered.1)] at h
      exact h

theorem dumpItems_text (hprints : doubles.Prints) (values : List (Json δ)) (hordered : OrderedItems values)
    {levels : Nat} (hdepth : depthItems values ≤ levels) :
    BlockText (ValueText doubles levels) (dumpItems doubles values) (rereadItems doubles values) := by
  match values, levels with
  | [], _ => exact .empty (by simp [White, dumpItems])
  | value :: rest, 0 => simp [depthItems] at hdepth
  | [value], levels + 1 =>
      exact spaced_last (dump_text hprints value hordered.1 (by simpa [depthItems] using hdepth))
  | value :: value' :: rest, levels + 1 =>
      obtain ⟨hvalue, hrest⟩ := Nat.max_le.mp hdepth
      have hitems := dumpItems_text hprints (value' :: rest) hordered.2 hrest
      rw [dumpItems, List.append_assoc]
      · exact spaced_more (dump_text hprints value hordered.1 (Nat.le_of_succ_le_succ hvalue)) hitems
      · simp

theorem dumpMembers_text (hprints : doubles.Prints) (values : List (Bytes × Json δ))
    (hordered : OrderedMembers values) {levels : Nat} (hdepth : depthMembers values ≤ levels) :
    BlockText (MemberText (ValueText doubles levels)) (dumpMembers doubles values)
      (rereadMembers doubles values) := by
  match values, levels with
  | [], _ => exact .empty (by simp [White, dumpMembers])
  | (key, value) :: rest, 0 => simp [depthMembers] at hdepth
  | [(key, value)], levels + 1 =>
      exact spaced_last (dumpMember_text
        (dump_text hprints value hordered.1 (by simpa [depthMembers] using hdepth)))
  | (key, value) :: (key', value') :: rest, levels + 1 =>
      obtain ⟨hvalue, hrest⟩ := Nat.max_le.mp hdepth
      have hmembers := dumpMembers_text hprints ((key', value') :: rest) hordered.2 hrest
      rw [dumpMembers, List.append_assoc _ (ascii ", ")]
      · exact spaced_more (dumpMember_text
          (dump_text hprints value hordered.1 (Nat.le_of_succ_le_succ hvalue))) hmembers
      · simp

end

section

variable {P Q : Bytes → Json δ → Prop} {t : Bytes} {v : Json δ}

theorem Spaced.mono {α : Type} {P Q : Bytes → α → Prop} {v : α} (hmono : ∀ t v, P t v → Q t v)
    (h : Spaced P t v) : Spaced Q t v := by
  cases h with
  | mk hw ht hw' => exact .mk hw (hmono _ _ ht) hw'

theorem BlockText.mono {α : Type} {P Q : Bytes → α → Prop} {vs : List α}
    (hmono : ∀ t v, P t v → Q t v) (h : BlockText P t vs) : BlockText Q t vs := by
  cases h with
  | empty hw => exact .empty hw
  | entries hsep => exact .entries (hsep.mono fun _ _ => Spaced.mono hmono)

theorem BlockText.forall_mem {α : Type} {P : Bytes → α → Prop} {vs : List α} {R : α → Prop}
    (hentry : ∀ t v, P t v → R v) (h : BlockText P t vs) : ∀ v ∈ vs, R v := by
  cases h with
  | empty hw => simp
  | entries hsep =>
      refine hsep.forall_mem fun t v hspaced => ?_
      cases hspaced with
      | mk _ ht _ => exact hentry _ _ ht

theorem MemberText.mono {m : Bytes × Json δ} (hmono : ∀ t v, P t v → Q t v) (h : MemberText P t m) :
    MemberText Q t m := by
  cases h with
  | mk hk hw hw' ht => exact .mk hk hw hw' (hmono _ _ ht)

theorem LevelText.mono (hmono : ∀ t v, P t v → Q t v) (h : LevelText doubles P t v) :
    LevelText doubles Q t v := by
  cases h with
  | nul => exact .nul
  | boolean value => exact .boolean value
  | number h => exact .number h
  | string h => exact .string h
  | array h => exact .array (h.mono hmono)
  | object h => exact .object (h.mono fun _ _ => MemberText.mono hmono)

theorem ValueText.succ {levels : Nat} (h : ValueText doubles levels t v) :
    ValueText doubles (levels + 1) t v := by
  induction levels generalizing t v with
  | zero => exact h.elim
  | succ levels ih => exact LevelText.mono (fun _ _ => ih) h

theorem ValueText.mono {levels levels' : Nat} (hle : levels ≤ levels')
    (h : ValueText doubles levels t v) : ValueText doubles levels' t v := by
  induction hle with
  | refl => exact h
  | step _ ih => exact ih.succ

/-- What a value is made of on every level, and what it is made of below. -/
theorem levelText_cases {R : Json δ → Prop} (hentry : ∀ t v, P t v → R v)
    (h : LevelText doubles P t v) :
    (v.depth = 0 ∧ v.Ordered) ∨ (∃ values, v = .array values ∧ ∀ value ∈ values, R value) ∨
      ∃ values, v = .object values ∧ KeysOrdered values ∧ ∀ m ∈ values, R m.2 := by
  cases h with
  | nul => exact Or.inl ⟨rfl, trivial⟩
  | boolean value => exact Or.inl ⟨rfl, trivial⟩
  | string h => exact Or.inl ⟨rfl, trivial⟩
  | number h =>
      cases h with
      | int => exact Or.inl ⟨rfl, trivial⟩
      | double => exact Or.inl ⟨rfl, trivial⟩
  | array h => exact Or.inr (Or.inl ⟨_, rfl, h.forall_mem hentry⟩)
  | @object ts ms h =>
      have hall : ∀ m ∈ ms, R m.2 := by
        refine h.forall_mem fun t m hm => ?_
        cases hm with
        | mk _ _ _ ht => exact hentry _ _ ht
      exact Or.inr (Or.inr ⟨_, rfl, members_ordered ms, fun m hm => hall m (mem_members hm)⟩)

theorem depthItems_le {values : List (Json δ)} {n : Nat} (h : ∀ value ∈ values, value.depth < n) :
    depthItems values ≤ n := by
  induction values with
  | nil => exact Nat.zero_le n
  | cons value rest ih =>
      exact Nat.max_le.mpr ⟨h value (by simp), ih fun value' h' => h value' (by simp [h'])⟩

theorem depthMembers_le {values : List (Bytes × Json δ)} {n : Nat}
    (h : ∀ m ∈ values, m.2.depth < n) : depthMembers values ≤ n := by
  induction values with
  | nil => exact Nat.zero_le n
  | cons m rest ih =>
      exact Nat.max_le.mpr ⟨h m (by simp), ih fun m' h' => h m' (by simp [h'])⟩

theorem orderedItems_iff {values : List (Json δ)} :
    OrderedItems values ↔ ∀ value ∈ values, value.Ordered := by
  induction values with
  | nil => simp [OrderedItems]
  | cons value rest ih => simp [OrderedItems, ih]

theorem orderedMembers_iff {values : List (Bytes × Json δ)} :
    OrderedMembers values ↔ ∀ m ∈ values, m.2.Ordered := by
  induction values with
  | nil => simp [OrderedMembers]
  | cons m rest ih => simp [OrderedMembers, ih]

/-- The value of a text is nested as the text is, and its objects are maps. -/
theorem valueText_shape {levels : Nat} (h : ValueText doubles levels t v) :
    v.depth < levels ∧ v.Ordered := by
  induction levels generalizing t v with
  | zero => exact h.elim
  | succ levels ih =>
      have hcases := levelText_cases (R := fun v => v.depth < levels ∧ v.Ordered) (fun _ _ => ih) h
      rcases hcases with ⟨hdepth, hordered⟩ | ⟨values, rfl, hall⟩ | ⟨values, rfl, hkeys, hall⟩
      · exact ⟨by omega, hordered⟩
      · exact ⟨Nat.lt_succ_of_le (depthItems_le fun value hv => (hall value hv).1),
          orderedItems_iff.mpr fun value hv => (hall value hv).2⟩
      · exact ⟨Nat.lt_succ_of_le (depthMembers_le fun m hm => (hall m hm).1), hkeys,
          orderedMembers_iff.mpr fun m hm => (hall m hm).2⟩

end

theorem depth_numberOf (t : Bytes) : (numberOf doubles t).depth = 0 := by
  unfold numberOf
  split <;> rfl

theorem depth_rereadInteger (n : Int) : (rereadInteger doubles n).depth = 0 := by
  unfold rereadInteger
  split <;> rfl

mutual

theorem depth_reread (v : Json δ) : (v.reread doubles).depth = v.depth := by
  cases v with
  | nul => rfl
  | boolean value => rfl
  | string value => rfl
  | int value => exact depth_rereadInteger value.toInt
  | longlong value => exact depth_rereadInteger value.toInt
  | double value =>
      rw [Json.reread]
      split
      · exact depth_numberOf _
      · rfl
  | array values => exact depth_rereadItems values
  | object values => exact depth_rereadMembers values

theorem depth_rereadItems (values : List (Json δ)) :
    depthItems (rereadItems doubles values) = depthItems values := by
  match values with
  | [] => rfl
  | value :: rest => rw [rereadItems, depthItems, depthItems, depth_reread value, depth_rereadItems rest]

theorem depth_rereadMembers (values : List (Bytes × Json δ)) :
    depthMembers (rereadMembers doubles values) = depthMembers values := by
  match values with
  | [] => rfl
  | (key, value) :: rest =>
      rw [rereadMembers, depthMembers, depthMembers, depth_reread value, depth_rereadMembers rest]

end

/-- A parsed value is within the limits of the parser. -/
theorem parse_shape {str : Bytes} {v : Json δ} (h : parse doubles str = .ok v) :
    v.depth ≤ maxDepth ∧ v.Ordered := by
  cases (parse_iff doubles str v).mp h with
  | mk _ ht _ =>
      obtain ⟨hdepth, hordered⟩ := valueText_shape ht
      exact ⟨Nat.le_of_lt_succ hdepth, hordered⟩

/-- A value that is dumped is parsed again just where it is not nested too deeply, and the value that
comes back differs in its numbers only. -/
theorem parse_dump_iff (hprints : doubles.Prints) {v : Json δ} (hordered : v.Ordered) (v' : Json δ) :
    parse doubles (v.dump doubles) = .ok v' ↔ v.depth ≤ maxDepth ∧ v' = v.reread doubles := by
  constructor
  · intro h
    have hvalue := dump_text hprints v hordered (Nat.le_max_left v.depth maxDepth)
    have hread := (parseJson_reads doubles _).complete hvalue (stops_nil : Closed [])
    generalize v.dump doubles = text at *
    cases (parse_iff doubles text v').mp h with
    | @mk w t w' _ hw ht hw' =>
        have hlevels := ht.mono (Nat.succ_le_succ (Nat.le_max_right v.depth maxDepth))
        have hclosed : Closed w' := by
          rw [← List.append_nil w']
          exact closed_white hw' stops_nil
        have hread' := (parseJson_reads doubles _).complete hlevels hclosed
        rw [List.append_nil, parseJson_skips _ _ _ hw, hread'] at hread
        obtain ⟨rfl, -⟩ := Prod.mk.inj (Except.ok.inj hread)
        refine ⟨?_, rfl⟩
        exact depth_reread v ▸ (parse_shape h).1
  · rintro ⟨hdepth, rfl⟩
    rw [parse_iff]
    have h : Spaced (ValueText doubles (maxDepth + 1)) ([] ++ (v.dump doubles ++ []))
        (v.reread doubles) :=
      .mk (by simp [White]) (dump_text hprints v hordered hdepth) (by simp [White])
    rw [List.nil_append, List.append_nil] at h
    exact h

/-- Doubles that are whole numbers. -/
def wholeDoubles : Doubles Int where
  isfinite _ := true
  format := decimal
  strtod t := Decimal.parse (t.map fun ch => Char.ofNat ch.toNat)
  toInt := Int32.ofInt

theorem wholeDoubles_prints : wholeDoubles.Prints :=
  fun x _ => ⟨_, decimal_text wholeDoubles x⟩

/-- A pid of ten digits comes back as a double. -/
theorem parse_dump_longPid :
    parse wholeDoubles (Json.dump wholeDoubles
      (.object [(ascii "chanPID", .int 1234567890), (ascii "name", .string (ascii "a\n\"b"))])) =
      .ok (.object [(ascii "chanPID", .double 1234567890), (ascii "name", .string (ascii "a\n\"b"))]) := by
  refine (parse_dump_iff wholeDoubles_prints ?_ _).mpr ⟨by decide, ?_⟩
  · refine ⟨?_, trivial, trivial, trivial⟩
    simp only [KeysOrdered, List.pairwise_cons, List.mem_singleton, List.not_mem_nil,
      IsEmpty.forall_iff, implies_true, List.Pairwise.nil, and_true, forall_eq]
    decide
  · have hlong : rereadInteger wholeDoubles (Int32.toInt 1234567890) = .double 1234567890 := by
      have hstrtod : wholeDoubles.strtod (decimal (Int32.toInt 1234567890)) = 1234567890 := by decide
      rw [rereadInteger, if_neg (by decide), hstrtod]
    simp only [Json.reread, rereadMembers, hlong]

/-- What has been parsed can be dumped and parsed again. -/
theorem parse_dump_parse (hprints : doubles.Prints) {str : Bytes} {v : Json δ}
    (h : parse doubles str = .ok v) : parse doubles (v.dump doubles) = .ok (v.reread doubles) := by
  obtain ⟨hdepth, hordered⟩ := parse_shape h
  exact (parse_dump_iff hprints hordered _).mpr ⟨hdepth, rfl⟩

/-- The object with the two members `"a":1` and `"a":2`. -/
def repeatedKey : Bytes := 0x7b :: ((ascii "\"a\":1" ++ 0x2c :: ascii "\"a\":2") ++ [0x7d])

theorem parse_repeatedKey :
    parse wholeDoubles repeatedKey = .ok (.object [(ascii "a", .int 2)]) := by
  have hnumber : ∀ n : Int, Short n → ValueText wholeDoubles maxDepth (decimal n) (.int (Int32.ofInt n)) := by
    intro n hn
    have h := decimal_text wholeDoubles n
    rw [rereadInteger, if_pos hn] at h
    exact LevelText.number h
  have hmember : ∀ n : Int, Short n →
      MemberText (ValueText wholeDoubles maxDepth) (dumpString (ascii "a") ++ 0x3a :: decimal n)
        (ascii "a", .int (Int32.ofInt n)) := by
    intro n hn
    have h : MemberText (ValueText wholeDoubles maxDepth)
        (dumpString (ascii "a") ++ ([] ++ 0x3a :: ([] ++ decimal n))) (ascii "a", .int (Int32.ofInt n)) :=
      .mk (dumpString_text (ascii "a")) (by simp [White]) (by simp [White]) (hnumber n hn)
    simpa using h
  have hspaced : ∀ {t : Bytes} {m : Bytes × Json Int}, MemberText (ValueText wholeDoubles maxDepth) t m →
      Spaced (MemberText (ValueText wholeDoubles maxDepth)) t m := by
    intro t m h
    have hs : Spaced (MemberText (ValueText wholeDoubles maxDepth)) ([] ++ (t ++ [])) m :=
      .mk (by simp [White]) h (by simp [White])
    simpa using hs
  have hobject : LevelText wholeDoubles (ValueText wholeDoubles maxDepth) repeatedKey _ :=
    .object (.entries
      (.more (hspaced (hmember 1 (by decide))) (.last (hspaced (hmember 2 (by decide))))))
  have hdocument : Spaced (ValueText wholeDoubles (maxDepth + 1)) ([] ++ (repeatedKey ++ [])) _ :=
    .mk (by simp [White]) hobject (by simp [White])
  rw [List.nil_append, List.append_nil] at hdocument
  exact (parse_iff wholeDoubles repeatedKey _).mpr hdocument

theorem parse_dump_repeatedKey :
    parse wholeDoubles (Json.dump wholeDoubles (.object [(ascii "a", .int 2)])) =
      .ok (.object [(ascii "a", .int 2)]) :=
  parse_dump_parse wholeDoubles_prints parse_repeatedKey

end GMProxy.Json11
