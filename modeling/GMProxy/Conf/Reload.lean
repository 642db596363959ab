import GMProxy.Conf.IniText

/-!
# Reading back what was written

`Load` of what `SaveAs` writes finds no error. It finds every header and every item, but those that
stand directly behind the comment to the right of a header.
-/

namespace GMProxy.Inifile

open Lines

/-- The keys with their values. -/
def keyValues (items : List IniItem) : List (Text × Text) := items.map fun i => (i.key, i.value)

/-- What is left of the items behind a comment that has no line end. -/
def keptItems (hanging : Text) : List IniItem → List IniItem
  | [] => []
  | item :: rest => if hanging ≠ [] ∧ item.comment = [] then rest else item :: rest

/-- The comment without a line end that stands before the items of a section. -/
def afterHeader (hanging : Text) (sect : IniSection) : Text :=
  if sect.name = [] then hanging else sect.rightComment

/-- The comment without a line end that some sections leave behind them. -/
def hangingComment (hanging : Text) : List IniSection → Text
  | [] => hanging
  | sect :: rest =>
      hangingComment (if sect.items = [] then afterHeader hanging sect else []) rest

/-- The header is lost in a comment without line end. -/
def headerLost (hanging : Text) (sect : IniSection) : Prop := hanging ≠ [] ∧ sect.comment = []

instance (hanging : Text) (sect : IniSection) : Decidable (headerLost hanging sect) :=
  inferInstanceAs (Decidable (_ ∧ _))

variable {l l' : Loader} {line rest comment hanging : Text}

/-- The loop of `Load` over a text. -/
def Loader.read (l : Loader) (text : Text) : Loader × Option IniError :=
  l.lines (Lines.lines delim text)

theorem read_line (hdelim : delim ∉ line) (hline : l.line line = .ok l') (rest : Text) :
    l.read (line ++ delim :: rest) = l'.read rest := by
  simp only [Loader.read, lines_line hdelim, Loader.lines, hline]

theorem read_last (hdelim : delim ∉ line) (hne : line ≠ []) (hline : l.line line = .ok l') :
    l.read line = (l', none) := by
  simp only [Loader.read, lines_last hdelim hne, Loader.lines, hline]

theorem line_comment (h : trim isspace line = [] ∨ isCommentLine (trim isspace line) = true) :
    ∃ comment, l.line line = .ok { l with comment := comment } := by
  rw [Loader.line]
  dsimp only
  by_cases hempty : (trim isspace line).length = 0
  · rw [if_pos hempty]
    exact ⟨_, rfl⟩
  · have hcomment := h.resolve_left fun hnil => hempty (by rw [hnil, List.length_nil])
    rw [if_neg hempty, if_pos hcomment]
    exact ⟨_, rfl⟩

theorem rightCommentText_ne (h : hanging ≠ []) :
    rightCommentText hanging = ' ' :: commentDelimiter :: hanging := if_neg h

/-- A line that starts with a comment to the right of something is a comment. -/
theorem line_hanging (h : hanging ≠ []) (line : Text) :
    ∃ comment, l.line (rightCommentText hanging ++ line) = .ok { l with comment := comment } := by
  apply line_comment
  right
  have hsharp : isspace commentDelimiter = false := by decide
  obtain ⟨rest, hrest⟩ := trim_cons hsharp (hanging ++ line)
  have hspace : ∀ c ∈ [' '], isspace c = true := List.forall_mem_singleton.mpr (by decide)
  have htrim := trim_leading hspace (commentDelimiter :: (hanging ++ line))
  rw [rightCommentText_ne h, List.cons_append, List.cons_append, ← List.singleton_append, htrim,
    hrest]
  rfl

private theorem trimmed_line (h : Trimmed isspace line) {c : Char} (hc : line.head? = some c)
    (hcomment : c ≠ commentDelimiter) :
    trim isspace line = line ∧ ¬ line.length = 0 ∧ ¬ isCommentLine line = true := by
  refine ⟨h.trim_eq, ?_, ?_⟩
  · intro hlen
    rw [List.length_eq_zero_iff.mp hlen] at hc
    cases hc
  · rw [isCommentLine, hc]
    simpa using hcomment

theorem split_clean (h : Clean line) : split line commentDelimiter = (false, line, []) := by
  rw [split, cut_none h.noComment, h.trimmed.trim_eq]

/-- A header of a new section. -/
theorem line_header {name : Text} (hname : NameOk name) (hne : name ≠ [])
    (hnew : name ∉ l.sections.map IniSection.name) :
    l.line ('[' :: name ++ [']']) = .ok ⟨l.sections, ⟨name, l.comment, [], []⟩, []⟩ := by
  have hclean : Clean ('[' :: name ++ [']']) := by
    refine ⟨?_, ?_, ?_⟩
    · have hcomment := hname.noComment
      simp only [commentDelimiter] at hcomment ⊢
      simp [hcomment]
    · have hdelim := hname.noDelim
      simp only [delim] at hdelim ⊢
      simp [hdelim]
    · apply trimmed_around
      · intro d hd
        obtain rfl := Option.some.inj hd
        decide
      · decide
      · exact fun _ h => nomatch h
  obtain ⟨htrim, hlen, hcomment⟩ := trimmed_line hclean.trimmed rfl (by decide)
  have hlong : ¬ ('[' :: name).length ≤ 1 := by
    have hpos := List.length_pos_iff.mpr hne
    rw [List.length_cons]
    omega
  have hcut : cut ']' ('[' :: name ++ [']']) = some ('[' :: name, []) := by
    apply cut_append
    rw [List.mem_cons, not_or]
    exact ⟨by decide, hname.noBracket⟩
  have hnone : ¬ (getSection l.sections name).isSome = true := by
    rw [getSection_none_iff.mpr hnew]
    decide
  rw [Loader.line, htrim, if_neg hlen, if_neg hcomment, split_clean hclean]
  dsimp only
  rw [List.cons_append, List.head?_cons, if_pos rfl, updateSection, ← List.cons_append, hcut]
  dsimp only
  rw [if_neg hlong, List.drop_succ_cons, List.drop_zero, hname.trimmed.trim_eq, if_neg hnone]

/-- The line of an item. -/
def IniItem.body (item : IniItem) : Text :=
  item.key ++ '=' :: item.value ++ rightCommentText item.rightComment

private theorem keyValue_clean {item : IniItem} (hok : item.Ok) (hvalue : Clean item.value) :
    Clean (item.key ++ '=' :: item.value) := by
  refine ⟨?_, ?_, ?_⟩
  · rw [List.mem_append, List.mem_cons, not_or, not_or]
    exact ⟨hok.key.noComment, by decide, hvalue.noComment⟩
  · rw [List.mem_append, List.mem_cons, not_or, not_or]
    exact ⟨hok.key.noDelim, by decide, hvalue.noDelim⟩
  · exact trimmed_around hok.key.trimmed.head (by decide) hvalue.trimmed.last

private theorem keyValue_head {item : IniItem} (hok : item.Ok) :
    ∃ c, (item.key ++ '=' :: item.value).head? = some c ∧ c ≠ commentDelimiter ∧ c ≠ '[' := by
  cases hkey : item.key with
  | nil => exact ⟨'=', rfl, by decide, by decide⟩
  | cons c key =>
      refine ⟨c, rfl, ?_, ?_⟩
      · have hcomment := hok.key.noComment
        rw [hkey, List.mem_cons, not_or] at hcomment
        exact Ne.symm hcomment.1
      · have hbracket := hok.key.noBracket
        rw [hkey, List.head?_cons] at hbracket
        exact fun hc => hbracket (congrArg some hc)

theorem IniItem.body_noDelim {item : IniItem} (hok : item.Ok) (hvalue : Clean item.value) :
    delim ∉ item.body := by
  have hkeyValue := (keyValue_clean hok hvalue).noDelim
  rw [IniItem.body, List.mem_append, not_or]
  refine ⟨hkeyValue, ?_⟩
  by_cases hright : item.rightComment = []
  · rw [hright]
    decide
  · rw [rightCommentText_ne hright, List.mem_cons, List.mem_cons, not_or, not_or]
    exact ⟨by decide, by decide, hok.right.noDelim⟩

private theorem split_line {item : IniItem} (hok : item.Ok) (hvalue : Clean item.value) :
    ∃ found, trim isspace item.body = item.body ∧
      split item.body commentDelimiter = (found, item.key ++ '=' :: item.value, item.rightComment) := by
  have hclean := keyValue_clean hok hvalue
  by_cases hright : item.rightComment = []
  · have hline : item.body = item.key ++ '=' :: item.value := by
      rw [IniItem.body, hright]
      exact List.append_nil _
    rw [hline, hright]
    exact ⟨false, hclean.trimmed.trim_eq, split_clean hclean⟩
  · obtain ⟨c, hhead, -, -⟩ := keyValue_head hok
    have hline : item.body =
        (item.key ++ '=' :: item.value ++ [' ']) ++ commentDelimiter :: item.rightComment := by
      rw [IniItem.body, rightCommentText_ne hright, List.append_assoc _ [' '], List.singleton_append]
    have hcut : cut commentDelimiter item.body =
        some (item.key ++ '=' :: item.value ++ [' '], item.rightComment) := by
      rw [hline]
      apply cut_append
      rw [List.mem_append, not_or]
      exact ⟨hclean.noComment, by decide⟩
    refine ⟨true, ?_, ?_⟩
    · rw [hline]
      refine Trimmed.trim_eq (trimmed_around ?_ (by decide) hok.right.trimmed.last)
      intro d hd
      rw [List.head?_append, hhead, Option.some_or] at hd
      exact hclean.trimmed.head d (hhead.trans hd)
    · rw [split, hcut]
      dsimp only
      rw [hclean.trimmed.trim_append (List.forall_mem_singleton.mpr (by decide)),
        hok.right.trimmed.trim_eq]

theorem line_item {item : IniItem} (hok : item.Ok) (hvalue : Clean item.value) :
    l.line item.body = .ok ⟨l.closed, { l.currSection with
      items := l.currSection.items ++ [⟨item.key, item.value, l.comment, item.rightComment⟩] }, []⟩ := by
  obtain ⟨found, htrim, hsplit⟩ := split_line hok hvalue
  obtain ⟨c, hhead, hcomment, hbracket⟩ := keyValue_head hok
  have hfirst : item.body.head? = some c := by
    rw [IniItem.body, List.head?_append, hhead, Option.some_or]
  have hlen : ¬ item.body.length = 0 := by
    intro hlen
    rw [List.length_eq_zero_iff.mp hlen] at hfirst
    cases hfirst
  have hnot : ¬ isCommentLine item.body = true := by
    rw [isCommentLine, hfirst]
    simpa using hcomment
  have hcut : split (item.key ++ '=' :: item.value) '=' = (true, item.key, item.value) := by
    rw [split, cut_append hok.key.noEq]
    dsimp only
    rw [hok.key.trimmed.trim_eq, hvalue.trimmed.trim_eq]
  rw [Loader.line, htrim, if_neg hlen, if_neg hnot, hsplit]
  dsimp only
  rw [hhead, if_neg (by simpa using hbracket), addKeyValuePair, hcut]

theorem read_comment (h : CommentBlock comment) (l : Loader) (rest : Text) :
    ∃ comment', l.read (comment ++ rest) = ({ l with comment := comment' } : Loader).read rest := by
  induction h generalizing l with
  | nil => exact ⟨l.comment, rfl⟩
  | line hdelim hcomment _ ih =>
      obtain ⟨comment', hline⟩ := line_comment (l := l) hcomment
      obtain ⟨last, hlast⟩ := ih { l with comment := comment' }
      rw [List.append_assoc, List.cons_append, read_line hdelim hline]
      exact ⟨last, hlast⟩

/-- A line behind a comment without line end is lost. -/
theorem read_lost (hne : hanging ≠ []) (hhanging : delim ∉ hanging) (hdelim : delim ∉ line)
    (l : Loader) (rest : Text) :
    ∃ comment, l.read (rightCommentText hanging ++ (line ++ delim :: rest)) =
      ({ l with comment := comment } : Loader).read rest := by
  obtain ⟨comment, hline⟩ := line_hanging (l := l) hne line
  have hnone : delim ∉ rightCommentText hanging ++ line := by
    rw [rightCommentText_ne hne, List.mem_append, List.mem_cons, List.mem_cons, not_or, not_or, not_or]
    exact ⟨⟨by decide, by decide, hhanging⟩, hdelim⟩
  rw [← List.append_assoc, read_line hnone hline]
  exact ⟨comment, rfl⟩

/-- A comment ends the line that was left open, and nothing is lost. -/
theorem read_comment_behind (h : CommentBlock comment) (hhanging : delim ∉ hanging)
    (hsafe : hanging = [] ∨ comment ≠ []) (l : Loader) (rest : Text) :
    ∃ comment', l.read (rightCommentText hanging ++ (comment ++ rest)) =
      ({ l with comment := comment' } : Loader).read rest := by
  by_cases hne : hanging = []
  · rw [hne]
    exact read_comment h l rest
  · cases h with
    | nil => exact absurd rfl (hsafe.resolve_left hne)
    | line hdelim _ hrest =>
        rw [List.append_assoc, List.cons_append]
        obtain ⟨first, hfirst⟩ := read_lost hne hhanging hdelim l _
        obtain ⟨last, hlast⟩ := read_comment hrest { l with comment := first } rest
        exact ⟨last, hfirst.trans hlast⟩

theorem CommentBlock.last (h : CommentBlock comment) (hne : comment ≠ []) :
    comment.getLast? = some delim := by
  induction h with
  | nil => exact absurd rfl hne
  | @line line rest _ _ _ ih =>
      rw [List.getLast?_append, List.getLast?_cons, Option.some_or]
      by_cases hrest : rest = []
      · rw [hrest]
        rfl
      · rw [ih hrest]
        rfl

theorem IniItem.text_eq {item : IniItem} (hok : item.Ok) (hvalue : Clean item.value) :
    item.text = item.comment ++ (item.body ++ [delim]) := by
  have hline : endLine item.body = item.body ++ [delim] := by
    rw [endLine, if_neg]
    intro hlast
    exact IniItem.body_noDelim hok hvalue (List.mem_of_getLast? hlast)
  have hcomment : (if item.comment = [] then [] else endLine item.comment) = item.comment := by
    by_cases hempty : item.comment = []
    · rw [if_pos hempty, hempty]
    · rw [if_neg hempty, endLine, if_pos (hok.comment.last hempty)]
  rw [IniItem.text, hcomment]
  exact congrArg _ hline

/-- Well-formed items with clean values. -/
def AllClean (items : List IniItem) : Prop := ∀ item ∈ items, item.Ok ∧ Clean item.value

/-- The loop has read items, and was not moved on otherwise. -/
structure Loader.Reads (l l' : Loader) (items : List IniItem) : Prop where
  closed : l'.closed = l.closed
  name : l'.currSection.name = l.currSection.name
  items : keyValues l'.currSection.items = keyValues l.currSection.items ++ keyValues items

theorem read_item {item : IniItem} (hok : item.Ok) (hvalue : Clean item.value)
    (hhanging : delim ∉ hanging) (hsafe : hanging = [] ∨ item.comment ≠ []) (l : Loader)
    (rest : Text) :
    ∃ l', l.read (rightCommentText hanging ++ (item.text ++ rest)) = l'.read rest ∧
      l.Reads l' [item] := by
  rw [IniItem.text_eq hok hvalue, List.append_assoc, List.append_assoc, List.singleton_append]
  obtain ⟨comment, hcomment⟩ := read_comment_behind hok.comment hhanging hsafe l
    (item.body ++ delim :: rest)
  rw [hcomment, read_line (IniItem.body_noDelim hok hvalue) (line_item hok hvalue)]
  refine ⟨_, rfl, rfl, rfl, ?_⟩
  rw [keyValues, keyValues, List.map_append]
  rfl

theorem read_items {items : List IniItem} (h : AllClean items) (l : Loader) (rest : Text) :
    ∃ l', l.read (items.flatMap IniItem.text ++ rest) = l'.read rest ∧ l.Reads l' items := by
  induction items generalizing l with
  | nil => exact ⟨l, rfl, rfl, rfl, (List.append_nil _).symm⟩
  | cons item items ih =>
      obtain ⟨hok, hvalue⟩ := h item (List.mem_cons_self ..)
      have hnone : delim ∉ ([] : Text) := List.not_mem_nil
      obtain ⟨l₁, hread₁, hfirst⟩ := read_item hok hvalue hnone (Or.inl rfl) l
        (items.flatMap IniItem.text ++ rest)
      obtain ⟨l₂, hread₂, hrest⟩ := ih (fun i hi => h i (List.mem_cons_of_mem _ hi)) l₁
      refine ⟨l₂, ?_, hrest.closed.trans hfirst.closed, hrest.name.trans hfirst.name, ?_⟩
      · rw [List.flatMap_cons, List.append_assoc]
        exact hread₁.trans hread₂
      · rw [hrest.items, hfirst.items, List.append_assoc]
        rfl

/-- The items of a section, behind a comment that may have no line end. -/
theorem read_items_behind {items : List IniItem} (h : AllClean items) (hhanging : delim ∉ hanging)
    (l : Loader) (rest : Text) :
    ∃ l', l.read (rightCommentText hanging ++ (items.flatMap IniItem.text ++ rest)) =
        l'.read (rightCommentText (if items = [] then hanging else []) ++ rest) ∧
      l.Reads l' (keptItems hanging items) := by
  cases items with
  | nil => exact ⟨l, rfl, rfl, rfl, (List.append_nil _).symm⟩
  | cons item items =>
      obtain ⟨hok, hvalue⟩ := h item (List.mem_cons_self ..)
      have htail : AllClean items := fun i hi => h i (List.mem_cons_of_mem _ hi)
      rw [List.flatMap_cons, List.append_assoc, if_neg (List.cons_ne_nil _ _), keptItems]
      by_cases hlost : hanging ≠ [] ∧ item.comment = []
      · rw [if_pos hlost, IniItem.text_eq hok hvalue, hlost.2, List.nil_append, List.append_assoc,
          List.singleton_append]
        obtain ⟨comment, hcomment⟩ := read_lost hlost.1 hhanging (IniItem.body_noDelim hok hvalue) l
          (items.flatMap IniItem.text ++ rest)
        obtain ⟨l', hread, hreads⟩ := read_items htail { l with comment := comment } rest
        exact ⟨l', hcomment.trans hread, hreads.closed, hreads.name, hreads.items⟩
      · rw [if_neg hlost]
        have hsafe : hanging = [] ∨ item.comment ≠ [] :=
          or_iff_not_imp_left.mpr fun hne hempty => hlost ⟨hne, hempty⟩
        obtain ⟨l₁, hread₁, hfirst⟩ := read_item hok hvalue hhanging hsafe l
          (items.flatMap IniItem.text ++ rest)
        obtain ⟨l₂, hread₂, hrest⟩ := read_items htail l₁ rest
        refine ⟨l₂, hread₁.trans hread₂, hrest.closed.trans hfirst.closed,
          hrest.name.trans hfirst.name, ?_⟩
        rw [hrest.items, hfirst.items, List.append_assoc]
        rfl

/-- A section that `SaveAs` can write so that `Load` reads it. -/
def IniSection.Clean (sect : IniSection) : Prop := sect.Ok fun _ => False

def headerText (sect : IniSection) : Text :=
  sect.comment ++ (if sect.name = [] then [] else '[' :: sect.name ++ [']', delim])

variable {sect : IniSection}

theorem IniSection.text_eq (sect : IniSection) : sect.text =
    headerText sect ++ (rightCommentText sect.rightComment ++ sect.items.flatMap IniItem.text) := by
  rw [IniSection.text, headerText, List.append_assoc]

theorem named_text (hne : sect.name ≠ []) (rest : Text) : headerText sect ++ rest =
    sect.comment ++ (('[' :: sect.name ++ [']']) ++ delim :: rest) := by
  rw [headerText, if_neg hne]
  simp

theorem header_noDelim (h : sect.Clean) : delim ∉ '[' :: sect.name ++ [']'] := by
  have hdelim := h.name.noDelim
  simp only [delim] at hdelim ⊢
  simp [hdelim]

/-- A header that is not lost opens its section. -/
theorem read_header (h : sect.Clean) (hne : sect.name ≠ []) (hhanging : delim ∉ hanging)
    (hkept : ¬ headerLost hanging sect) (hnew : sect.name ∉ l.sections.map IniSection.name)
    (rest : Text) :
    ∃ comment, l.read (rightCommentText hanging ++ (headerText sect ++ rest)) =
      Loader.read ⟨l.sections, ⟨sect.name, comment, [], []⟩, []⟩ rest := by
  have hsafe : hanging = [] ∨ sect.comment ≠ [] :=
    or_iff_not_imp_left.mpr fun hhung hempty => hkept ⟨hhung, hempty⟩
  rw [named_text hne]
  obtain ⟨comment, hcomment⟩ := read_comment_behind h.comment hhanging hsafe l
    (('[' :: sect.name ++ [']']) ++ delim :: rest)
  have hline := line_header (l := { l with comment := comment }) h.name hne hnew
  rw [hcomment, read_line (header_noDelim h) hline]
  exact ⟨comment, rfl⟩

/-- A header that is lost changes nothing. -/
theorem read_header_lost (h : sect.Clean) (hne : sect.name ≠ []) (hhanging : delim ∉ hanging)
    (hlost : headerLost hanging sect) (l : Loader) (rest : Text) :
    ∃ comment, l.read (rightCommentText hanging ++ (headerText sect ++ rest)) =
      ({ l with comment := comment } : Loader).read rest := by
  rw [named_text hne, hlost.2, List.nil_append]
  exact read_lost hlost.1 hhanging (header_noDelim h) l rest

theorem Loader.Reads.names {items : List IniItem} (h : l.Reads l' items) :
    l'.sections.map IniSection.name = l.sections.map IniSection.name := by
  simp [Loader.sections, h.closed, h.name]

/-- The loop has read sections: the closed ones stay, and no name is new but theirs. -/
structure Loader.Extends (l l' : Loader) (sections : List IniSection) : Prop where
  closed : l.closed <+: l'.closed
  names : ∀ name ∈ l'.sections.map IniSection.name,
    name ∈ l.sections.map IniSection.name ∨ name ∈ sections.map IniSection.name

theorem afterHeader_noDelim (h : sect.Clean) (hhanging : delim ∉ hanging) :
    delim ∉ afterHeader hanging sect := by
  rw [afterHeader]
  split
  case isTrue => exact hhanging
  case isFalse => exact h.right.noDelim

private theorem behind_noDelim (h : sect.Clean) (hhanging : delim ∉ hanging) :
    delim ∉ (if sect.items = [] then afterHeader hanging sect else []) := by
  split
  case isTrue => exact afterHeader_noDelim h hhanging
  case isFalse => exact List.not_mem_nil

/-- What stands before the items of a section, read with it. -/
theorem read_front (h : sect.Clean) (hhanging : delim ∉ hanging)
    (hnew : sect.name ≠ [] → sect.name ∉ l.sections.map IniSection.name) (rest : Text) :
    ∃ l', l.read (rightCommentText hanging ++ (headerText sect ++
        (rightCommentText sect.rightComment ++ rest))) =
        l'.read (rightCommentText (afterHeader hanging sect) ++ rest) ∧ l.Extends l' [sect] := by
  have hself : l.Extends l [sect] := ⟨List.prefix_rfl, fun _ hname => Or.inl hname⟩
  by_cases hne : sect.name = []
  · obtain ⟨hcomment, hright⟩ := h.unnamed hne
    rw [headerText, hcomment, hright, if_pos hne, afterHeader, if_pos hne]
    exact ⟨l, rfl, hself⟩
  · rw [afterHeader, if_neg hne]
    by_cases hlost : headerLost hanging sect
    · obtain ⟨comment, hread⟩ := read_header_lost h hne hhanging hlost l
        (rightCommentText sect.rightComment ++ rest)
      exact ⟨_, hread, hself.closed, hself.names⟩
    · obtain ⟨comment, hread⟩ := read_header h hne hhanging hlost (hnew hne)
        (rightCommentText sect.rightComment ++ rest)
      refine ⟨_, hread, List.prefix_append _ _, fun name hname => ?_⟩
      simpa [Loader.sections, or_assoc] using hname

theorem read_section (h : sect.Clean) (hhanging : delim ∉ hanging)
    (hnew : sect.name ≠ [] → sect.name ∉ l.sections.map IniSection.name) (rest : Text) :
    ∃ l', l.read (rightCommentText hanging ++ (sect.text ++ rest)) =
        l'.read (rightCommentText
          (if sect.items = [] then afterHeader hanging sect else []) ++ rest) ∧
      l.Extends l' [sect] := by
  obtain ⟨l₁, hread₁, hfront⟩ := read_front h hhanging hnew (sect.items.flatMap IniItem.text ++ rest)
  obtain ⟨l₂, hread₂, hitems⟩ := read_items_behind h.items.clean (afterHeader_noDelim h hhanging)
    l₁ rest
  refine ⟨l₂, ?_, hitems.closed ▸ hfront.closed, hitems.names ▸ hfront.names⟩
  rw [IniSection.text_eq, List.append_assoc, List.append_assoc]
  exact hread₁.trans hread₂

theorem read_sections {sections : List IniSection} (h : ∀ sect ∈ sections, sect.Clean)
    (hdistinct : (sections.map IniSection.name).Nodup) (hhanging : delim ∉ hanging)
    (hnew : ∀ sect ∈ sections, sect.name ≠ [] → sect.name ∉ l.sections.map IniSection.name)
    (rest : Text) :
    ∃ l', l.read (rightCommentText hanging ++ (saveAs sections ++ rest)) =
        l'.read (rightCommentText (hangingComment hanging sections) ++ rest) ∧
      l.Extends l' sections := by
  induction sections generalizing l hanging with
  | nil => exact ⟨l, rfl, List.prefix_rfl, fun _ hname => Or.inl hname⟩
  | cons sect sections ih =>
      have hsect := h sect (List.mem_cons_self ..)
      obtain ⟨hfresh, hdistinct⟩ := List.nodup_cons.mp hdistinct
      obtain ⟨l₁, hread₁, hfirst⟩ := read_section hsect hhanging (hnew sect (List.mem_cons_self ..))
        (saveAs sections ++ rest)
      have hnew₁ : ∀ other ∈ sections, other.name ≠ [] →
          other.name ∉ l₁.sections.map IniSection.name := by
        intro other hother hne hmem
        rcases hfirst.names _ hmem with hmem | hmem
        · exact hnew other (List.mem_cons_of_mem _ hother) hne hmem
        · rw [List.map_singleton, List.mem_singleton] at hmem
          exact hfresh (hmem ▸ List.mem_map_of_mem hother)
      obtain ⟨l₂, hread₂, hrest⟩ := ih (fun s hs => h s (List.mem_cons_of_mem _ hs)) hdistinct
        (behind_noDelim hsect hhanging) hnew₁
      refine ⟨l₂, ?_, hfirst.closed.trans hrest.closed, fun name hname => ?_⟩
      · rw [saveAs, List.flatMap_cons, List.append_assoc]
        exact hread₁.trans hread₂
      · rw [List.map_cons, List.mem_cons]
        rcases hrest.names name hname with hname | hname
        · rcases hfirst.names name hname with hname | hname
          · exact Or.inl hname
          · exact Or.inr (Or.inl (by simpa using hname))
        · exact Or.inr (Or.inr hname)

/-- Behind sections with names the sections read before them are still there. -/
theorem read_further {sections : List IniSection} (h : ∀ sect ∈ sections, sect.Clean)
    (hnamed : ∀ sect ∈ sections, sect.name ≠ []) (hdistinct : (sections.map IniSection.name).Nodup)
    (hnew : ∀ sect ∈ sections, sect.name ∉ l.sections.map IniSection.name) (rest : Text) :
    ∃ l' : Loader, l.read (saveAs sections ++ rest) =
        l'.read (rightCommentText (hangingComment [] sections) ++ rest) ∧
      l.sections <+: l'.sections ∧ l.Extends l' sections := by
  cases sections with
  | nil => exact ⟨l, rfl, List.prefix_rfl, List.prefix_rfl, fun _ hname => Or.inl hname⟩
  | cons sect sections =>
      have hsect := h sect (List.mem_cons_self ..)
      have hne := hnamed sect (List.mem_cons_self ..)
      obtain ⟨hfresh, hdistinct⟩ := List.nodup_cons.mp hdistinct
      have hkept : ¬ headerLost [] sect := fun hlost => hlost.1 rfl
      obtain ⟨comment, hread₁⟩ := read_header hsect hne List.not_mem_nil hkept
        (hnew sect (List.mem_cons_self ..))
        (rightCommentText sect.rightComment ++ (sect.items.flatMap IniItem.text ++
          (saveAs sections ++ rest)))
      obtain ⟨l₂, hread₂, hitems⟩ := read_items_behind hsect.items.clean hsect.right.noDelim
        ⟨l.sections, ⟨sect.name, comment, [], []⟩, []⟩ (saveAs sections ++ rest)
      have hnames₂ : ∀ name, name ∈ l₂.sections.map IniSection.name ↔
          name ∈ l.sections.map IniSection.name ∨ name = sect.name := by
        intro name
        rw [hitems.names, Loader.sections, List.map_append, List.mem_append, List.map_singleton,
          List.mem_singleton]
      have hnew₂ : ∀ other ∈ sections, other.name ≠ [] →
          other.name ∉ l₂.sections.map IniSection.name := by
        intro other hother _ hmem
        rcases (hnames₂ _).mp hmem with hmem | hmem
        · exact hnew other (List.mem_cons_of_mem _ hother) hmem
        · exact hfresh (List.mem_map.mpr ⟨other, hother, hmem⟩)
      have hopen : delim ∉ (if sect.items = [] then sect.rightComment else []) := by
        split
        case isTrue => exact hsect.right.noDelim
        case isFalse => exact List.not_mem_nil
      obtain ⟨l₃, hread₃, hrest⟩ := read_sections (fun s hs => h s (List.mem_cons_of_mem _ hs))
        hdistinct hopen hnew₂ rest
      have hclosed₂ : l₂.closed = l.sections := hitems.closed
      have hclosed₃ : l.sections <+: l₃.closed := hclosed₂ ▸ hrest.closed
      refine ⟨l₃, ?_, hclosed₃.trans (List.prefix_append _ _),
        (List.prefix_append _ _).trans hclosed₃, fun name hname => ?_⟩
      · rw [saveAs, List.flatMap_cons, IniSection.text_eq, hangingComment, afterHeader, if_neg hne,
          List.append_assoc, List.append_assoc, List.append_assoc]
        exact hread₁.trans (hread₂.trans hread₃)
      · rw [List.map_cons, List.mem_cons]
        rcases hrest.names name hname with hname | hname
        · exact ((hnames₂ name).mp hname).imp_right Or.inl
        · exact Or.inr (Or.inr hname)

theorem read_end (hhanging : delim ∉ hanging) (l : Loader) :
    ∃ comment, l.read (rightCommentText hanging) = ({ l with comment := comment }, none) := by
  by_cases hne : hanging = []
  · rw [hne]
    exact ⟨l.comment, rfl⟩
  · obtain ⟨comment, hline⟩ := line_hanging (l := l) hne []
    rw [List.append_nil] at hline
    refine ⟨comment, read_last ?_ ?_ hline⟩
    · rw [rightCommentText_ne hne, List.mem_cons, List.mem_cons, not_or, not_or]
      exact ⟨by decide, by decide, hhanging⟩
    · rw [rightCommentText_ne hne]
      exact List.cons_ne_nil _ _

theorem hanging_noDelim {sections : List IniSection} (h : ∀ sect ∈ sections, sect.Clean)
    (hhanging : delim ∉ hanging) : delim ∉ hangingComment hanging sections := by
  induction sections generalizing hanging with
  | nil => exact hhanging
  | cons sect sections ih =>
      exact ih (fun s hs => h s (List.mem_cons_of_mem _ hs))
        (behind_noDelim (h sect (List.mem_cons_self ..)) hhanging)

theorem findValue_congr {items items' : List IniItem} (h : keyValues items = keyValues items')
    (key : Text) : findValue items key = findValue items' key := by
  have hfind : ∀ items : List IniItem, findValue items key =
      ((keyValues items).find? fun p => p.1 = key).map Prod.snd := by
    intro items
    rw [findValue, keyValues, List.find?_map, Option.map_map]
    rfl
  rw [hfind, hfind, h]

theorem getSection_extended {ini ini' : IniFile} {name : Text} (h : ini <+: ini')
    (hsect : getSection ini name = some sect) : getSection ini' name = some sect := by
  obtain ⟨more, rfl⟩ := h
  rw [getSection, List.find?_append, ← getSection, hsect, Option.some_or]

/-- Sections that can be written and read back. -/
abbrev IniFile.Clean (ini : IniFile) : Prop := IniOk (fun _ _ => False) ini

variable {pre post : List IniSection}

/-- The value that `Load` finds for a key of a section of the written file. -/
def reloaded (pre : List IniSection) (sect : IniSection) (key : Text) : Option Text :=
  if headerLost (hangingComment [] pre) sect then none
  else findValue (keptItems sect.rightComment sect.items) key

/-- The sections around a section of well-formed ones. -/
private structure Around (pre : List IniSection) (sect : IniSection) (post : List IniSection) :
    Prop where
  cleanPre : ∀ s ∈ pre, s.Clean
  cleanPost : ∀ s ∈ post, s.Clean
  distinctPre : (pre.map IniSection.name).Nodup
  distinctPost : (post.map IniSection.name).Nodup
  apart : ∀ name ∈ pre.map IniSection.name, name ∉ post.map IniSection.name
  notPre : sect.name ∉ pre.map IniSection.name
  notPost : sect.name ∉ post.map IniSection.name
  named : ∀ s ∈ post, s.name ≠ []

private theorem around (h : IniFile.Clean (pre ++ sect :: post)) :
    sect.Clean ∧ Around pre sect post := by
  have hdistinct := h.distinct
  have hnamed := h.named
  rw [List.map_append, List.map_cons, List.nodup_append] at hdistinct
  obtain ⟨hpre, hcons, hapart⟩ := hdistinct
  obtain ⟨hfresh, hpost⟩ := List.nodup_cons.mp hcons
  refine ⟨h.sections sect (by simp), fun s hs => h.sections s (by simp [hs]),
    fun s hs => h.sections s (by simp [hs]), hpre, hpost, ?_, ?_, hfresh, ?_⟩
  · exact fun name hname hmem => hapart name hname name (List.mem_cons_of_mem _ hmem) rfl
  · exact fun hmem => hapart _ hmem _ (List.mem_cons_self ..) rfl
  · intro s hs hempty
    apply hnamed
    rw [List.map_append, List.map_cons]
    have hmem : [] ∈ post.map IniSection.name := List.mem_map.mpr ⟨s, hs, hempty⟩
    cases pre with
    | nil => exact hmem
    | cons p pre => exact List.mem_append_right _ (List.mem_cons_of_mem _ hmem)

private theorem read_up_to (h : Around pre sect post) (hne : sect.name ≠ []) (rest : Text) :
    ∃ l : Loader, Loader.start.read (saveAs pre ++ rest) =
        l.read (rightCommentText (hangingComment [] pre) ++ rest) ∧
      sect.name ∉ l.sections.map IniSection.name ∧
      ∀ s ∈ post, s.name ∉ l.sections.map IniSection.name := by
  have hstart : ∀ s ∈ pre, s.name ≠ [] → s.name ∉ Loader.start.sections.map IniSection.name :=
    fun s _ hs hmem => hs (List.mem_singleton.mp hmem)
  obtain ⟨l, hread, hextends⟩ := read_sections h.cleanPre h.distinctPre List.not_mem_nil hstart rest
  refine ⟨l, hread, fun hmem => ?_, fun s hs hmem => ?_⟩
  · rcases hextends.names _ hmem with hmem | hmem
    · exact hne (List.mem_singleton.mp hmem)
    · exact h.notPre hmem
  · rcases hextends.names _ hmem with hmem | hmem
    · exact h.named s hs (List.mem_singleton.mp hmem)
    · exact h.apart _ hmem (List.mem_map_of_mem hs)

private theorem read_behind (h : Around pre sect post) (l : Loader)
    (hnew : ∀ s ∈ post, s.name ∉ l.sections.map IniSection.name) :
    ∃ l' : Loader, l.read (saveAs post) = (l', none) ∧ l.sections <+: l'.sections ∧
      (sect.name ∉ l.sections.map IniSection.name → sect.name ∉ l'.sections.map IniSection.name) := by
  obtain ⟨l₁, hread, hsections, hextends⟩ := read_further h.cleanPost h.named h.distinctPost hnew []
  obtain ⟨comment, hend⟩ := read_end (hanging_noDelim h.cleanPost List.not_mem_nil) l₁
  rw [List.append_nil, List.append_nil, hend] at hread
  refine ⟨_, hread, hsections, fun hnot hmem => ?_⟩
  rcases hextends.names _ hmem with hmem | hmem
  · exact hnot hmem
  · exact h.notPost hmem

private theorem section_text (sect : IniSection) (rest : Text) : sect.text ++ rest =
    headerText sect ++ (rightCommentText sect.rightComment ++
      (sect.items.flatMap IniItem.text ++ rest)) := by
  rw [IniSection.text_eq, List.append_assoc, List.append_assoc]

private theorem read_from_lost {l : Loader} (haround : Around pre sect post) (hsect : sect.Clean)
    (hne : sect.name ≠ []) (hitems : sect.items ≠ []) (hopen : delim ∉ hangingComment [] pre)
    (hlost : headerLost (hangingComment [] pre) sect)
    (hnot : sect.name ∉ l.sections.map IniSection.name)
    (hpost : ∀ s ∈ post, s.name ∉ l.sections.map IniSection.name) :
    ∃ l' : Loader, l.read (rightCommentText (hangingComment [] pre) ++ (sect.text ++ saveAs post)) =
        (l', none) ∧
      getSection l'.sections sect.name = none := by
  rw [section_text]
  obtain ⟨comment, hheader⟩ := read_header_lost hsect hne hopen hlost l
    (rightCommentText sect.rightComment ++ (sect.items.flatMap IniItem.text ++ saveAs post))
  obtain ⟨l₂, hread₂, hreads⟩ := read_items_behind hsect.items.clean hsect.right.noDelim
    { l with comment := comment } (saveAs post)
  have hnames : l₂.sections.map IniSection.name = l.sections.map IniSection.name := hreads.names
  rw [if_neg hitems] at hread₂
  obtain ⟨l₃, hread₃, -, hnot₃⟩ := read_behind haround l₂ (by rw [hnames]; exact hpost)
  refine ⟨l₃, hheader.trans (hread₂.trans hread₃), ?_⟩
  exact getSection_none_iff.mpr (hnot₃ (by rw [hnames]; exact hnot))

private theorem read_from_kept {l : Loader} (haround : Around pre sect post) (hsect : sect.Clean)
    (hne : sect.name ≠ []) (hitems : sect.items ≠ []) (hopen : delim ∉ hangingComment [] pre)
    (hkept : ¬ headerLost (hangingComment [] pre) sect)
    (hnot : sect.name ∉ l.sections.map IniSection.name)
    (hpost : ∀ s ∈ post, s.name ∉ l.sections.map IniSection.name) :
    ∃ l' found, l.read (rightCommentText (hangingComment [] pre) ++ (sect.text ++ saveAs post)) =
        (l', none) ∧
      getSection l'.sections sect.name = some found ∧
      keyValues found.items = keyValues (keptItems sect.rightComment sect.items) := by
  rw [section_text]
  obtain ⟨comment, hheader⟩ := read_header hsect hne hopen hkept hnot
    (rightCommentText sect.rightComment ++ (sect.items.flatMap IniItem.text ++ saveAs post))
  obtain ⟨l₂, hread₂, hreads⟩ := read_items_behind hsect.items.clean hsect.right.noDelim
    ⟨l.sections, ⟨sect.name, comment, [], []⟩, []⟩ (saveAs post)
  have hnames : l₂.sections.map IniSection.name = l.sections.map IniSection.name ++ [sect.name] := by
    rw [hreads.names, Loader.sections, List.map_append, List.map_singleton]
  have hpost₂ : ∀ s ∈ post, s.name ∉ l₂.sections.map IniSection.name := by
    intro s hs hmem
    rw [hnames, List.mem_append, List.mem_singleton] at hmem
    rcases hmem with hmem | hmem
    · exact hpost s hs hmem
    · exact haround.notPost (List.mem_map.mpr ⟨s, hs, hmem⟩)
  have hname : l₂.currSection.name = sect.name := hreads.name
  have hfound : getSection l₂.sections sect.name = some l₂.currSection := by
    have hnone : getSection l₂.closed sect.name = none := by
      rw [hreads.closed]
      exact getSection_none_iff.mpr hnot
    rw [getSection] at hnone ⊢
    rw [Loader.sections, List.find?_append, hnone, Option.none_or]
    simp [hname]
  rw [if_neg hitems] at hread₂
  obtain ⟨l₃, hread₃, hsections, -⟩ := read_behind haround l₂ hpost₂
  exact ⟨l₃, l₂.currSection, hheader.trans (hread₂.trans hread₃),
    getSection_extended hsections hfound, hreads.items⟩

/-- What `Load` reads back of a section with items. -/
theorem load_saveAs (h : IniFile.Clean (pre ++ sect :: post)) (hne : sect.name ≠ [])
    (hitems : sect.items ≠ []) :
    (load (some (saveAs (pre ++ sect :: post)))).2 = none ∧
      ∀ key, getValue (load (some (saveAs (pre ++ sect :: post)))).1 sect.name key =
        reloaded pre sect key := by
  obtain ⟨hsect, haround⟩ := around h
  have hopen := hanging_noDelim haround.cleanPre (List.not_mem_nil (a := delim))
  obtain ⟨l₁, hread₁, hnot₁, hpost₁⟩ := read_up_to haround hne (sect.text ++ saveAs post)
  have hload : load (some (saveAs (pre ++ sect :: post))) =
      ((l₁.read (rightCommentText (hangingComment [] pre) ++ (sect.text ++ saveAs post))).1.sections,
        (l₁.read (rightCommentText (hangingComment [] pre) ++ (sect.text ++ saveAs post))).2) := by
    rw [← hread₁, saveAs, List.flatMap_append, List.flatMap_cons]
    rfl
  rw [hload]
  unfold reloaded
  by_cases hlost : headerLost (hangingComment [] pre) sect
  · obtain ⟨l₂, hread₂, hnone⟩ := read_from_lost haround hsect hne hitems hopen hlost hnot₁ hpost₁
    rw [hread₂]
    refine ⟨rfl, fun key => ?_⟩
    rw [if_pos hlost, getValue, hnone, Option.bind_none]
  · obtain ⟨l₂, found, hread₂, hfound, hvalues⟩ :=
      read_from_kept haround hsect hne hitems hopen hlost hnot₁ hpost₁
    rw [hread₂]
    refine ⟨rfl, fun key => ?_⟩
    rw [if_neg hlost, getValue, hfound, Option.bind_some]
    exact findValue_congr hvalues key

end GMProxy.Inifile
