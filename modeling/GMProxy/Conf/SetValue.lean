import Mathlib.Data.List.TakeWhile
import GMProxy.Conf.Reload

/-!
# Setting values

What a row of `setValue` calls makes of one section. Each key overwrites its first item, or comes
behind the other items; the rest of the file stays.
-/

namespace GMProxy.Inifile

variable {free : Text → Prop} {items rest : List IniItem} {item : IniItem} {key value : Text}

/-- A row of `setValue` calls for the items of a section. -/
def setItems (kvs : List (Text × Text)) (items : List IniItem) : List IniItem :=
  kvs.foldl (fun items kv => setItem kv.1 kv.2 items) items

/-- A row of `setValue` calls for a section. -/
def setValues (ini : IniFile) (section_ : Text) (kvs : List (Text × Text)) : IniFile :=
  kvs.foldl (fun ini kv => setValue ini section_ kv.1 kv.2) ini

theorem newItem_ok (hkey : KeyOk key) (value : Text) : (IniItem.mk key value [] []).Ok :=
  ⟨hkey, .nil, ⟨List.not_mem_nil, Lines.trimmed_nil⟩⟩

theorem overwritten_ok (h : item.Ok) (value : Text) :
    { item with value := value, comment := [] }.Ok := ⟨h.key, .nil, h.right⟩

theorem setItem_ok (hkey : KeyOk key) (hfree : free key ∨ Clean value) (h : ItemsOk free items) :
    ItemsOk free (setItem key value items) := by
  induction items generalizing free with
  | nil => exact ⟨newItem_ok hkey value, hfree, trivial⟩
  | cons item items ih =>
      rw [setItem]
      by_cases heq : item.key = key
      · rw [if_pos heq]
        exact ⟨overwritten_ok h.1 value, heq ▸ hfree, h.2.2⟩
      · rw [if_neg heq]
        exact ⟨h.1, h.2.1, ih (hfree.imp_left fun hk => ⟨hk, Ne.symm heq⟩) h.2.2⟩

/-- A clean value makes its key clean. -/
theorem setItem_clean (hkey : KeyOk key) (hvalue : Clean value) (h : ItemsOk free items) :
    ItemsOk (fun k => free k ∧ k ≠ key) (setItem key value items) := by
  induction items generalizing free with
  | nil => exact ⟨newItem_ok hkey value, Or.inr hvalue, trivial⟩
  | cons item items ih =>
      rw [setItem]
      by_cases heq : item.key = key
      · rw [if_pos heq]
        refine ⟨overwritten_ok h.1 value, Or.inr hvalue, h.2.2.mono fun k hk => ?_⟩
        exact ⟨⟨hk.1, heq ▸ hk.2⟩, hk.2⟩
      · rw [if_neg heq]
        refine ⟨h.1, h.2.1.imp_left fun hk => ⟨hk, heq⟩, (ih h.2.2).mono fun k hk => ?_⟩
        exact ⟨⟨hk.1.1, hk.2⟩, hk.1.2⟩

theorem setItems_ok {kvs : List (Text × Text)} (hkvs : ∀ kv ∈ kvs, KeyOk kv.1 ∧ free kv.1)
    (h : ItemsOk free items) : ItemsOk free (setItems kvs items) := by
  induction kvs generalizing items with
  | nil => exact h
  | cons kv kvs ih =>
      obtain ⟨hkey, hfree⟩ := hkvs kv (List.mem_cons_self ..)
      exact ih (fun kv hkv => hkvs kv (List.mem_cons_of_mem _ hkv)) (setItem_ok hkey (Or.inl hfree) h)

theorem setItems_clean {kvs : List (Text × Text)} (hkvs : ∀ kv ∈ kvs, KeyOk kv.1 ∧ Clean kv.2)
    (hall : ∀ k, free k → ∃ kv ∈ kvs, kv.1 = k) (h : ItemsOk free items) :
    ItemsOk (fun _ => False) (setItems kvs items) := by
  induction kvs generalizing items free with
  | nil =>
      refine h.mono fun k hk => ?_
      obtain ⟨kv, hkv, -⟩ := hall k hk
      exact absurd hkv List.not_mem_nil
  | cons kv kvs ih =>
      obtain ⟨hkey, hvalue⟩ := hkvs kv (List.mem_cons_self ..)
      refine ih (fun kv hkv => hkvs kv (List.mem_cons_of_mem _ hkv)) (fun k hk => ?_)
        (setItem_clean hkey hvalue h)
      obtain ⟨kv', hkv', heq⟩ := hall k hk.1
      rcases List.mem_cons.mp hkv' with rfl | hkv'
      · exact absurd heq.symm hk.2
      · exact ⟨kv', hkv', heq⟩

theorem findValue_cons : findValue (item :: rest) key =
    if item.key = key then some item.value else findValue rest key := by
  by_cases heq : item.key = key
  · rw [if_pos heq, findValue, List.find?_cons_of_pos (by simpa using heq), Option.map_some]
  · rw [if_neg heq, findValue, List.find?_cons_of_neg (by simpa using heq), findValue]

theorem findValue_setItem (items : List IniItem) (key value other : Text) :
    findValue (setItem key value items) other =
      if other = key then some value else findValue items other := by
  induction items with
  | nil =>
      rw [setItem, findValue_cons]
      by_cases heq : other = key
      · rw [if_pos heq.symm, if_pos heq]
      · rw [if_neg (Ne.symm heq), if_neg heq]
  | cons item items ih =>
      rw [setItem]
      by_cases hkey : item.key = key
      · rw [if_pos hkey, findValue_cons, findValue_cons]
        by_cases heq : other = key
        · rw [if_pos (hkey.trans heq.symm), if_pos heq]
        · rw [if_neg fun h => heq (h.symm.trans hkey), if_neg heq,
            if_neg fun h => heq (h.symm.trans hkey)]
      · rw [if_neg hkey, findValue_cons, findValue_cons, ih]
        by_cases hother : item.key = other
        · rw [if_pos hother, if_pos hother, if_neg fun h => hkey (hother.trans h)]
        · rw [if_neg hother, if_neg hother]

theorem findValue_setItems_other {kvs : List (Text × Text)} (h : ∀ kv ∈ kvs, kv.1 ≠ key)
    (items : List IniItem) : findValue (setItems kvs items) key = findValue items key := by
  induction kvs generalizing items with
  | nil => rfl
  | cons kv kvs ih =>
      have hrest := ih (fun kv hkv => h kv (List.mem_cons_of_mem _ hkv)) (setItem kv.1 kv.2 items)
      rw [findValue_setItem, if_neg (h kv (List.mem_cons_self ..)).symm] at hrest
      exact hrest

theorem findValue_setItems {kvs : List (Text × Text)} (hdistinct : (kvs.map Prod.fst).Nodup)
    (h : (key, value) ∈ kvs) (items : List IniItem) :
    findValue (setItems kvs items) key = some value := by
  induction kvs generalizing items with
  | nil => exact absurd h List.not_mem_nil
  | cons kv kvs ih =>
      obtain ⟨hfresh, hdistinct⟩ := List.nodup_cons.mp hdistinct
      rcases List.mem_cons.mp h with rfl | h
      · have hother : ∀ kv ∈ kvs, kv.1 ≠ key :=
          fun kv hkv heq => hfresh (List.mem_map.mpr ⟨kv, hkv, heq⟩)
        have hrest := findValue_setItems_other hother (setItem key value items)
        rw [findValue_setItem, if_pos rfl] at hrest
        exact hrest
      · exact ih hdistinct h (setItem kv.1 kv.2 items)

/-- The first item stays the first, and loses its comment if its key is set. -/
theorem setItems_cons (kvs : List (Text × Text)) (item : IniItem) (rest : List IniItem) :
    ∃ first : IniItem, setItems kvs (item :: rest) =
        first :: setItems (kvs.filter fun kv => kv.1 ≠ item.key) rest ∧ first.key = item.key ∧
      first.comment = if item.key ∈ kvs.map Prod.fst then [] else item.comment := by
  induction kvs generalizing item rest with
  | nil => exact ⟨item, rfl, rfl, rfl⟩
  | cons kv kvs ih =>
      by_cases heq : item.key = kv.1
      · obtain ⟨first, hset, hkey, hcomment⟩ := ih { item with value := kv.2, comment := [] } rest
        refine ⟨first, ?_, hkey, ?_⟩
        · rw [List.filter_cons_of_neg (by simp [heq])]
          rw [← hset, setItems, List.foldl_cons, setItem, if_pos heq, setItems]
        · rw [List.map_cons, if_pos (heq ▸ List.mem_cons_self ..), hcomment]
          split <;> rfl
      · obtain ⟨first, hset, hkey, hcomment⟩ := ih item (setItem kv.1 kv.2 rest)
        refine ⟨first, ?_, hkey, ?_⟩
        · rw [List.filter_cons_of_pos (by simpa using Ne.symm heq)]
          rw [setItems, List.foldl_cons, setItem, if_neg heq, ← setItems, hset, setItems, setItems,
            List.foldl_cons]
        · simp only [hcomment, List.map_cons, List.mem_cons, or_iff_right heq]

/-- The key of the first item behind a row of calls. -/
def firstKey (kvs : List (Text × Text)) : List IniItem → Option Text
  | [] => kvs.head?.map Prod.fst
  | item :: _ => some item.key

/-- The first item has no comment behind a row of calls. -/
def firstBare (kvs : List (Text × Text)) : List IniItem → Prop
  | [] => True
  | item :: _ => item.comment = [] ∨ item.key ∈ kvs.map Prod.fst

instance decidableFirstBare (kvs : List (Text × Text)) : (items : List IniItem) →
    Decidable (firstBare kvs items)
  | [] => inferInstanceAs (Decidable True)
  | item :: _ => inferInstanceAs (Decidable (item.comment = [] ∨ item.key ∈ kvs.map Prod.fst))

private theorem findValue_filter {kvs : List (Text × Text)} (hdistinct : (kvs.map Prod.fst).Nodup)
    (first : Text) (rest : List IniItem) {kv : Text × Text} (hkv : kv ∈ kvs) :
    findValue (setItems (kvs.filter fun kv => kv.1 ≠ first) rest) kv.1 =
      if first = kv.1 then findValue rest kv.1 else some kv.2 := by
  by_cases heq : first = kv.1
  · rw [if_pos heq]
    apply findValue_setItems_other
    intro kv' hkv' hsame
    have hne := (List.mem_filter.mp hkv').2
    simp [hsame, heq] at hne
  · rw [if_neg heq]
    have hsub := (List.filter_sublist (p := fun kv => kv.1 ≠ first) (l := kvs)).map Prod.fst
    apply findValue_setItems (hdistinct.sublist hsub)
    rw [List.mem_filter]
    exact ⟨hkv, by simpa using Ne.symm heq⟩

/-- What is behind the first item after a row of calls. -/
theorem setItems_first {kvs : List (Text × Text)} (hdistinct : (kvs.map Prod.fst).Nodup)
    (hne : kvs ≠ []) (items : List IniItem) :
    ∃ (first : IniItem) (rest : List IniItem), setItems kvs items = first :: rest ∧
      firstKey kvs items = some first.key ∧ (first.comment = [] ↔ firstBare kvs items) ∧
      (∀ kv ∈ kvs, findValue rest kv.1 =
        if first.key = kv.1 then findValue items.tail kv.1 else some kv.2) ∧
      ∀ key, key ∉ kvs.map Prod.fst → findValue rest key = findValue items.tail key := by
  have hother : ∀ (row : List (Text × Text)) (p : Text × Text → Bool) (rest : List IniItem) (key : Text),
      key ∉ row.map Prod.fst → findValue (setItems (row.filter p) rest) key = findValue rest key := by
    intro row p rest key hkey
    apply findValue_setItems_other
    intro kv hkv heq
    exact hkey (List.mem_map.mpr ⟨kv, (List.mem_filter.mp hkv).1, heq⟩)
  cases items with
  | nil =>
      cases kvs with
      | nil => exact absurd rfl hne
      | cons kv kvs =>
          obtain ⟨hfresh, hdistinct⟩ := List.nodup_cons.mp hdistinct
          obtain ⟨first, hset, hkey, hcomment⟩ := setItems_cons kvs ⟨kv.1, kv.2, [], []⟩ []
          refine ⟨first, _, hset, by rw [hkey]; rfl, ?_, ?_, ?_⟩
          · rw [hcomment]
            refine iff_of_true ?_ trivial
            split <;> rfl
          · intro kv' hkv'
            rw [hkey]
            rcases List.mem_cons.mp hkv' with rfl | hkv'
            · rw [if_pos rfl]
              exact hother _ _ _ _ hfresh
            · exact findValue_filter hdistinct kv.1 [] hkv'
          · intro key hkey'
            rw [List.map_cons, List.mem_cons, not_or] at hkey'
            exact hother _ _ _ _ hkey'.2
  | cons item items =>
      obtain ⟨first, hset, hkey, hcomment⟩ := setItems_cons kvs item items
      refine ⟨first, _, hset, by rw [hkey]; rfl, ?_, ?_, fun key => hother _ _ _ _⟩
      · rw [hcomment, firstBare]
        by_cases hmem : item.key ∈ kvs.map Prod.fst
        · rw [if_pos hmem]
          exact iff_of_true rfl (Or.inr hmem)
        · rw [if_neg hmem, or_iff_left hmem]
      · intro kv hkv
        rw [hkey]
        exact findValue_filter hdistinct item.key items hkv

/-- A key that was set, behind a comment that may have no line end. -/
theorem findValue_kept_set {kvs : List (Text × Text)} (hdistinct : (kvs.map Prod.fst).Nodup)
    {kv : Text × Text} (hkv : kv ∈ kvs) (hanging : Text) (items : List IniItem) :
    findValue (keptItems hanging (setItems kvs items)) kv.1 =
      if hanging ≠ [] ∧ firstKey kvs items = some kv.1 then findValue items.tail kv.1
      else some kv.2 := by
  obtain ⟨first, rest, hset, hfirst, hbare, hrest, -⟩ :=
    setItems_first hdistinct (List.ne_nil_of_mem hkv) items
  have hwhole := findValue_setItems hdistinct hkv items
  rw [hset] at hwhole
  simp only [hset, keptItems, hfirst, Option.some.injEq]
  by_cases hlost : hanging ≠ [] ∧ first.comment = []
  · rw [if_pos hlost, hrest kv hkv]
    simp only [hlost.1, ne_eq, not_false_eq_true, true_and]
  · rw [if_neg hlost, hwhole]
    symm
    apply if_neg
    rintro ⟨hhanging, hkey⟩
    apply hlost
    refine ⟨hhanging, hbare.mpr ?_⟩
    cases items with
    | nil => trivial
    | cons item items =>
        right
        rw [firstKey, Option.some.injEq] at hfirst
        rw [hfirst, hkey]
        exact List.mem_map_of_mem hkv

/-- A key that was not set. -/
theorem findValue_kept_other {kvs : List (Text × Text)} (hdistinct : (kvs.map Prod.fst).Nodup)
    (hne : kvs ≠ []) {key : Text} (hkey : key ∉ kvs.map Prod.fst) (hanging : Text)
    (items : List IniItem) :
    findValue (keptItems hanging (setItems kvs items)) key =
      if hanging ≠ [] ∧ firstBare kvs items then findValue items.tail key
      else findValue items key := by
  obtain ⟨first, rest, hset, -, hbare, -, hrest⟩ := setItems_first hdistinct hne items
  have hwhole : findValue (setItems kvs items) key = findValue items key := by
    apply findValue_setItems_other
    exact fun kv hkv heq => hkey (List.mem_map.mpr ⟨kv, hkv, heq⟩)
  rw [hset] at hwhole
  rw [hset, keptItems]
  by_cases hlost : hanging ≠ [] ∧ first.comment = []
  · rw [if_pos hlost, if_pos ⟨hlost.1, hbare.mp hlost.2⟩, hrest key hkey]
  · rw [if_neg hlost, if_neg fun h => hlost ⟨h.1, hbare.mpr h.2⟩, hwhole]

/-- The section that `setValue` changes, new if there is none. -/
def sectionOf (ini : IniFile) (section_ : Text) : IniSection :=
  (getSection ini section_).getD ⟨section_, [], [], []⟩

/-- The sections in front of it. -/
def sectionsBefore (ini : IniFile) (section_ : Text) : List IniSection :=
  ini.takeWhile fun sect => sect.name ≠ section_

variable {ini : IniFile} {section_ : Text} {pre post : List IniSection} {sect : IniSection}

theorem sectionOf_name (ini : IniFile) (section_ : Text) : (sectionOf ini section_).name = section_ := by
  rw [sectionOf]
  cases hsect : getSection ini section_ with
  | none => rfl
  | some sect => simpa using List.find?_some hsect

theorem sectionsBefore_name (h : sect ∈ sectionsBefore ini section_) : sect.name ≠ section_ := by
  simpa using List.mem_takeWhile_imp h

theorem split_at_section (h : ∀ s ∈ pre, s.name ≠ section_) (hname : sect.name = section_)
    (post : List IniSection) :
    getSection (pre ++ sect :: post) section_ = some sect ∧
      sectionsBefore (pre ++ sect :: post) section_ = pre := by
  have hpre : ∀ s ∈ pre, decide (s.name ≠ section_) = true := fun s hs => decide_eq_true (h s hs)
  constructor
  · rw [getSection, List.find?_append, List.find?_eq_none.mpr (by simpa using h), Option.none_or,
      List.find?_cons_of_pos (by simpa using hname)]
  · rw [sectionsBefore, List.takeWhile_append_of_pos hpre, List.takeWhile_cons_of_neg (by simp [hname]),
      List.append_nil]

theorem setInSection_split (h : ∀ s ∈ pre, s.name ≠ section_) (hname : sect.name = section_)
    (key value : Text) (post : List IniSection) :
    setInSection section_ key value (pre ++ sect :: post) =
      pre ++ { sect with items := setItem key value sect.items } :: post := by
  induction pre with
  | nil => rw [List.nil_append, setInSection, if_pos hname, List.nil_append]
  | cons s pre ih =>
      rw [List.cons_append, setInSection, if_neg (h s (List.mem_cons_self ..)),
        ih fun s hs => h s (List.mem_cons_of_mem _ hs), List.cons_append]

theorem withSection_some (h : getSection ini section_ = some sect) : withSection ini section_ = ini := by
  rw [withSection, h]

theorem withSection_none (hne : section_ ≠ []) (h : getSection ini section_ = none) :
    withSection ini section_ = ini ++ [⟨section_, [], [], []⟩] := by
  rw [withSection, h]
  exact if_neg hne

theorem withSection_split (hne : section_ ≠ []) (ini : IniFile) :
    ∃ post, withSection ini section_ =
      sectionsBefore ini section_ ++ sectionOf ini section_ :: post := by
  cases hsect : getSection ini section_ with
  | some sect =>
      obtain ⟨hname, pre, post, hini, hpre⟩ := List.find?_eq_some_iff_append.mp hsect
      have hname : sect.name = section_ := by simpa using hname
      have hpre : ∀ s ∈ pre, s.name ≠ section_ := fun s hs => by simpa using hpre s hs
      have hbefore : sectionsBefore ini section_ = pre := by
        rw [hini]
        exact (split_at_section hpre hname post).2
      exact ⟨post, by rw [withSection_some hsect, sectionOf, hsect, Option.getD_some, hbefore, hini]⟩
  | none =>
      have hnone : ∀ s ∈ ini, s.name ≠ section_ := by simpa [getSection] using hsect
      have hbefore : sectionsBefore ini section_ = ini := by
        rw [sectionsBefore, List.takeWhile_eq_self_iff]
        exact fun s hs => decide_eq_true (hnone s hs)
      exact ⟨[], by rw [withSection_none hne hsect, sectionOf, hsect, Option.getD_none, hbefore]⟩

theorem setValues_split (h : ∀ s ∈ pre, s.name ≠ section_) (hname : sect.name = section_)
    (kvs : List (Text × Text)) (post : List IniSection) :
    setValues (pre ++ sect :: post) section_ kvs =
      pre ++ { sect with items := setItems kvs sect.items } :: post := by
  induction kvs generalizing sect with
  | nil => rfl
  | cons kv kvs ih =>
      have hvalue : setValue (pre ++ sect :: post) section_ kv.1 kv.2 =
          pre ++ { sect with items := setItem kv.1 kv.2 sect.items } :: post := by
        rw [setValue, withSection_some (split_at_section h hname post).1]
        exact setInSection_split h hname kv.1 kv.2 post
      have hset : { sect with items := setItem kv.1 kv.2 sect.items }.name = section_ := hname
      have hrest := ih hset
      rw [← hvalue] at hrest
      exact hrest

/-- A row of `setValue` calls changes the items of one section. -/
theorem setValues_eq (hne : section_ ≠ []) (ini : IniFile) :
    ∃ post, withSection ini section_ =
        sectionsBefore ini section_ ++ sectionOf ini section_ :: post ∧
      ∀ kv kvs, setValues ini section_ (kv :: kvs) = sectionsBefore ini section_ ++
        { sectionOf ini section_ with
          items := setItems (kv :: kvs) (sectionOf ini section_).items } :: post := by
  obtain ⟨post, hsplit⟩ := withSection_split hne ini
  have hpre : ∀ s ∈ sectionsBefore ini section_, s.name ≠ section_ := fun s hs => sectionsBefore_name hs
  have hname := sectionOf_name ini section_
  refine ⟨post, hsplit, fun kv kvs => ?_⟩
  have hfirst : setValue ini section_ kv.1 kv.2 = setValue (withSection ini section_) section_ kv.1 kv.2 := by
    have hfound := (split_at_section hpre hname post).1
    rw [← hsplit] at hfound
    rw [setValue, setValue, withSection_some hfound]
  rw [← setValues_split hpre hname (kv :: kvs) post, ← hsplit, setValues, List.foldl_cons, hfirst,
    setValues, List.foldl_cons]

/-- The section holds the values that were set. -/
theorem getValue_setValues (hne : section_ ≠ []) {kvs : List (Text × Text)}
    (hdistinct : (kvs.map Prod.fst).Nodup) {kv : Text × Text} (hkv : kv ∈ kvs) (ini : IniFile) :
    getValue (setValues ini section_ kvs) section_ kv.1 = some kv.2 := by
  obtain ⟨post, -, hset⟩ := setValues_eq hne ini
  have hpre : ∀ s ∈ sectionsBefore ini section_, s.name ≠ section_ := fun s hs => sectionsBefore_name hs
  have hname : { sectionOf ini section_ with
      items := setItems kvs (sectionOf ini section_).items }.name = section_ := sectionOf_name ini section_
  have hfound := (split_at_section hpre hname post).1
  cases kvs with
  | nil => exact absurd hkv List.not_mem_nil
  | cons kv' kvs =>
      rw [← hset] at hfound
      rw [getValue, hfound, Option.bind_some]
      exact findValue_setItems hdistinct hkv _

variable {free free' : Text → Text → Prop}

theorem withSection_ok (hname : NameOk section_) (hne : section_ ≠ []) (h : IniOk free ini) :
    IniOk free (withSection ini section_) := by
  cases hsect : getSection ini section_ with
  | some sect =>
      rw [withSection_some hsect]
      exact h
  | none =>
      have hnew := getSection_none_iff.mp hsect
      rw [withSection_none hne hsect]
      refine ⟨?_, ?_, ?_⟩
      · intro s hs
        rcases List.mem_append.mp hs with hs | hs
        · exact h.sections s hs
        · obtain rfl := List.mem_singleton.mp hs
          exact ⟨hname, .nil, ⟨List.not_mem_nil, Lines.trimmed_nil⟩, fun hempty => absurd hempty hne,
            trivial⟩
      · rw [List.map_append]
        exact List.Nodup.append h.distinct (List.nodup_singleton _) (by simpa using hnew)
      · cases ini with
        | nil => exact List.not_mem_nil
        | cons first ini =>
            have hold := h.named
            simpa [Ne.symm hne] using hold

/-- New items for one section. -/
theorem IniOk.replace (h : IniOk free (pre ++ sect :: post)) {items : List IniItem}
    (hitems : ItemsOk (free' sect.name) items)
    (hother : ∀ name, name ≠ sect.name → ∀ k, free name k → free' name k) :
    IniOk free' (pre ++ { sect with items := items } :: post) := by
  have hnames : (pre ++ { sect with items := items } :: post).map IniSection.name =
      (pre ++ sect :: post).map IniSection.name := by simp
  have hdistinct := h.distinct
  rw [List.map_append, List.map_cons, List.nodup_append] at hdistinct
  obtain ⟨-, hcons, hapart⟩ := hdistinct
  have hold : ∀ s ∈ pre ++ sect :: post, s.name ≠ sect.name → s.Ok (free' s.name) := by
    intro s hs hne
    have hok := h.sections s hs
    exact ⟨hok.name, hok.comment, hok.right, hok.unnamed, hok.items.mono (hother s.name hne)⟩
  refine ⟨fun s hs => ?_, hnames ▸ h.distinct, hnames ▸ h.named⟩
  rcases List.mem_append.mp hs with hs | hs
  · exact hold s (List.mem_append_left _ hs) fun heq =>
      hapart _ (List.mem_map_of_mem hs) _ (List.mem_cons_self ..) heq
  · rcases List.mem_cons.mp hs with rfl | hs
    · have hok := h.sections sect (by simp)
      exact ⟨hok.name, hok.comment, hok.right, hok.unnamed, hitems⟩
    · exact hold s (by simp [hs]) fun heq =>
        (List.nodup_cons.mp hcons).1 (List.mem_map.mpr ⟨s, hs, heq⟩)

/-- What `Load` finds in the section after a row of `setValue` calls and `SaveAs`. -/
theorem load_setValues (hne : section_ ≠ []) {kvs : List (Text × Text)} (hkvs : kvs ≠ [])
    (hdistinct : (kvs.map Prod.fst).Nodup) (h : IniFile.Clean (setValues ini section_ kvs)) :
    ∃ ini', load (some (saveAs (setValues ini section_ kvs))) = (ini', none) ∧
      ∀ key, getValue ini' section_ key =
        if headerLost (hangingComment [] (sectionsBefore ini section_)) (sectionOf ini section_) then
          none
        else findValue (keptItems (sectionOf ini section_).rightComment
          (setItems kvs (sectionOf ini section_).items)) key := by
  obtain ⟨post, -, hset⟩ := setValues_eq hne ini
  have hsplit : setValues ini section_ kvs = sectionsBefore ini section_ ++
      { sectionOf ini section_ with items := setItems kvs (sectionOf ini section_).items } :: post := by
    cases kvs with
    | nil => exact absurd rfl hkvs
    | cons kv kvs => exact hset kv kvs
  have hname := sectionOf_name ini section_
  obtain ⟨first, rest, hitems, -⟩ := setItems_first hdistinct hkvs (sectionOf ini section_).items
  have hsome : setItems kvs (sectionOf ini section_).items ≠ [] := by
    rw [hitems]
    exact List.cons_ne_nil _ _
  rw [hsplit] at h ⊢
  obtain ⟨herr, hvalue⟩ := load_saveAs h (fun hempty => hne (hname.symm.trans hempty)) hsome
  refine ⟨_, Prod.ext rfl herr, fun key => ?_⟩
  have hkey := hvalue key
  dsimp only at hkey ⊢
  rw [hname] at hkey ⊢
  exact hkey

end GMProxy.Inifile
