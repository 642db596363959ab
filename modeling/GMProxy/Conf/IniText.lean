import Mathlib.Data.List.Nodup
import GMProxy.Conf.IniFile

/-!
# The text of the configuration file

Well-formed sections. What `Load` leaves is well formed, whether it finds an error or not.
-/

namespace GMProxy.Inifile

open Lines

/-- The comment above a line: empty lines and lines of comment. -/
inductive CommentBlock : Text → Prop
  | nil : CommentBlock []
  | line {line rest : Text} (hdelim : delim ∉ line)
      (hcomment : trim isspace line = [] ∨ isCommentLine (trim isspace line) = true)
      (hrest : CommentBlock rest) : CommentBlock (line ++ delim :: rest)

/-- A value that stands in a line as it is. -/
structure Clean (value : Text) : Prop where
  noComment : commentDelimiter ∉ value
  noDelim : delim ∉ value
  trimmed : Trimmed isspace value

structure KeyOk (key : Text) : Prop extends Clean key where
  noEq : '=' ∉ key
  noBracket : key.head? ≠ some '['

structure NameOk (name : Text) : Prop extends Clean name where
  noBracket : ']' ∉ name

structure RightCommentOk (rightComment : Text) : Prop where
  noDelim : delim ∉ rightComment
  trimmed : Trimmed isspace rightComment

/-- An item, up to its value. -/
structure IniItem.Ok (item : IniItem) : Prop where
  key : KeyOk item.key
  comment : CommentBlock item.comment
  right : RightCommentOk item.rightComment

/-- Items with clean values, but the first item with a key of `free` may have any value. -/
def ItemsOk : (Text → Prop) → List IniItem → Prop
  | _, [] => True
  | free, item :: rest =>
      item.Ok ∧ (free item.key ∨ Clean item.value) ∧ ItemsOk (fun k => free k ∧ k ≠ item.key) rest

/-- The section without a name has no comments. -/
structure IniSection.Ok (free : Text → Prop) (sect : IniSection) : Prop where
  name : NameOk sect.name
  comment : CommentBlock sect.comment
  right : RightCommentOk sect.rightComment
  unnamed : sect.name = [] → sect.comment = [] ∧ sect.rightComment = []
  items : ItemsOk free sect.items

/-- Well-formed sections, where `free` says in which section which keys may have any value. Only the
first section may have no name. -/
structure IniOk (free : Text → Text → Prop) (ini : IniFile) : Prop where
  sections : ∀ sect ∈ ini, sect.Ok (free sect.name)
  distinct : (ini.map IniSection.name).Nodup
  named : [] ∉ (ini.map IniSection.name).tail

variable {free free' : Text → Prop} {items : List IniItem} {item : IniItem} {line comment : Text}

theorem itemsOk_append (h : ItemsOk free items) (hitem : item.Ok) (hvalue : Clean item.value) :
    ItemsOk free (items ++ [item]) := by
  induction items generalizing free with
  | nil => exact ⟨hitem, Or.inr hvalue, trivial⟩
  | cons i items ih => exact ⟨h.1, h.2.1, ih h.2.2⟩

theorem ItemsOk.mono (hfree : ∀ k, free k → free' k) (h : ItemsOk free items) :
    ItemsOk free' items := by
  induction items generalizing free free' with
  | nil => trivial
  | cons i items ih =>
      exact ⟨h.1, h.2.1.imp_left (hfree _), ih (fun k hk => ⟨hfree k hk.1, hk.2⟩) h.2.2⟩

theorem ItemsOk.clean (h : ItemsOk (fun _ => False) items) :
    ∀ item ∈ items, item.Ok ∧ Clean item.value := by
  induction items with
  | nil => exact fun _ hitem => nomatch hitem
  | cons i items ih =>
      intro item hitem
      rcases List.mem_cons.mp hitem with rfl | hitem
      · exact ⟨h.1, h.2.1.resolve_left id⟩
      · exact ih (h.2.2.mono fun _ hk => hk.1) item hitem

theorem commentBlock_append (h : CommentBlock comment) (hdelim : delim ∉ line)
    (hcomment : trim isspace line = [] ∨ isCommentLine (trim isspace line) = true) :
    CommentBlock (comment ++ (line ++ [delim])) := by
  induction h with
  | nil => exact .line hdelim hcomment .nil
  | line hdelim' hcomment' _ ih =>
      rw [List.append_assoc, List.cons_append]
      exact .line hdelim' hcomment' ih

theorem clean_nil : Clean [] := ⟨List.not_mem_nil, List.not_mem_nil, trimmed_nil⟩

private theorem not_mem_trim {c : Char} {text : Text} (h : c ∉ text) : c ∉ trim isspace text :=
  fun hmem => h (mem_of_mem_trim hmem)

/-- What `split` at the comment leaves of a line. -/
theorem split_comment {cleanLine rightComment : Text} {found : Bool} (hdelim : delim ∉ line)
    (h : split line commentDelimiter = (found, cleanLine, rightComment)) :
    Clean cleanLine ∧ RightCommentOk rightComment := by
  rw [split] at h
  split at h
  case h_1 left right hcut =>
    obtain ⟨hline, hleft⟩ := cut_some hcut
    rw [hline, List.mem_append, List.mem_cons, not_or, not_or] at hdelim
    obtain ⟨-, heq⟩ := Prod.mk.inj h
    obtain ⟨rfl, rfl⟩ := Prod.mk.inj heq
    exact ⟨⟨not_mem_trim hleft, not_mem_trim hdelim.1, trim_trimmed _⟩,
      ⟨not_mem_trim hdelim.2.2, trim_trimmed _⟩⟩
  case h_2 hcut =>
    obtain ⟨-, heq⟩ := Prod.mk.inj h
    obtain ⟨rfl, rfl⟩ := Prod.mk.inj heq
    exact ⟨⟨not_mem_trim (not_mem_of_cut_none hcut), not_mem_trim hdelim, trim_trimmed _⟩,
      ⟨List.not_mem_nil, trimmed_nil⟩⟩

/-- What `split` at the equals sign makes of a clean line that opens no section. -/
theorem split_item {key value : Text} (hclean : Clean line) (hbracket : line.head? ≠ some '[')
    (h : split line '=' = (true, key, value)) : KeyOk key ∧ Clean value := by
  rw [split] at h
  split at h
  case h_1 left right hcut =>
    obtain ⟨hline, hleft⟩ := cut_some hcut
    have hcomment := hclean.noComment
    have hdelim := hclean.noDelim
    rw [hline, List.mem_append, List.mem_cons, not_or, not_or] at hcomment hdelim
    obtain ⟨-, heq⟩ := Prod.mk.inj h
    obtain ⟨rfl, rfl⟩ := Prod.mk.inj heq
    refine ⟨⟨⟨not_mem_trim hcomment.1, not_mem_trim hdelim.1, trim_trimmed _⟩,
      not_mem_trim hleft, ?_⟩, ⟨not_mem_trim hcomment.2.2, not_mem_trim hdelim.2.2, trim_trimmed _⟩⟩
    intro hhead
    apply hbracket
    rw [hline]
    cases left with
    | nil => cases hhead
    | cons c left =>
        -- the line is trimmed, so its first character is the first one of the key
        have hc : isspace c = false := hclean.trimmed.head c (by rw [hline, List.cons_append]; rfl)
        obtain ⟨rest, hrest⟩ := trim_cons hc left
        rw [hrest] at hhead
        exact hhead
  case h_2 => cases h

section Load

variable {l l' : Loader}

/-- What the loop keeps. -/
structure Loader.Ok (l : Loader) : Prop where
  comment : CommentBlock l.comment
  unnamed : [] ∈ l.sections.map IniSection.name
  sections : IniOk (fun _ _ => False) l.sections

theorem Loader.start_ok : Loader.start.Ok where
  comment := .nil
  unnamed := List.mem_singleton_self _
  sections :=
    { sections := by
        intro sect hsect
        obtain rfl := List.mem_singleton.mp hsect
        exact ⟨⟨clean_nil, List.not_mem_nil⟩, .nil, ⟨List.not_mem_nil, trimmed_nil⟩,
          fun _ => ⟨rfl, rfl⟩, trivial⟩
      distinct := List.nodup_singleton _
      named := List.not_mem_nil }

theorem getSection_none_iff {ini : IniFile} {name : Text} :
    getSection ini name = none ↔ name ∉ ini.map IniSection.name := by
  simp [getSection]

theorem updateSection_ok {cleanLine rightComment : Text} (h : l.Ok) (hclean : Clean cleanLine)
    (hright : RightCommentOk rightComment)
    (hupdate : updateSection l cleanLine rightComment = .ok l') : l'.Ok := by
  rw [updateSection] at hupdate
  split at hupdate
  case h_1 => cases hupdate
  case h_2 before behind hcut =>
    split at hupdate
    case isTrue => cases hupdate
    case isFalse hlong =>
      dsimp only at hupdate
      split at hupdate
      case isTrue => cases hupdate
      case isFalse hnew =>
        obtain rfl := Except.ok.inj hupdate
        obtain ⟨hline, hbracket⟩ := cut_some hcut
        have hsub : ∀ c ∈ before.drop 1, c ∈ cleanLine := fun c hc => by
          rw [hline]
          exact List.mem_append_left _ (List.mem_of_mem_drop hc)
        have hname : NameOk (trim isspace (before.drop 1)) :=
          ⟨⟨not_mem_trim fun hc => hclean.noComment (hsub _ hc),
            not_mem_trim fun hc => hclean.noDelim (hsub _ hc), trim_trimmed _⟩,
            not_mem_trim fun hc => hbracket (List.mem_of_mem_drop hc)⟩
        have hnone : getSection l.sections (trim isspace (before.drop 1)) = none := by
          simpa using hnew
        have hnot := getSection_none_iff.mp hnone
        have hnamed : trim isspace (before.drop 1) ≠ [] := fun hempty => hnot (hempty ▸ h.unnamed)
        have hsome : l.sections.map IniSection.name ≠ [] := List.ne_nil_of_mem h.unnamed
        refine ⟨.nil, ?_, ⟨?_, ?_, ?_⟩⟩
        · rw [Loader.sections, List.map_append]
          exact List.mem_append_left _ h.unnamed
        · intro sect hsect
          rcases List.mem_append.mp hsect with hsect | hsect
          · exact h.sections.sections sect hsect
          · obtain rfl := List.mem_singleton.mp hsect
            exact ⟨hname, h.comment, hright, fun hempty => absurd hempty hnamed, trivial⟩
        · rw [Loader.sections, List.map_append]
          exact List.Nodup.append h.sections.distinct (List.nodup_singleton _) (by simpa using hnot)
        · rw [Loader.sections, List.map_append, List.tail_append_of_ne_nil hsome, List.mem_append,
            not_or]
          exact ⟨h.sections.named, by simpa using Ne.symm hnamed⟩

theorem addKeyValuePair_ok {cleanLine rightComment : Text} (h : l.Ok) (hclean : Clean cleanLine)
    (hhead : cleanLine.head? ≠ some '[') (hright : RightCommentOk rightComment)
    (hadd : addKeyValuePair l cleanLine rightComment = .ok l') : l'.Ok := by
  rw [addKeyValuePair] at hadd
  split at hadd
  case h_1 => cases hadd
  case h_2 key value hsplit =>
    obtain rfl := Except.ok.inj hadd
    obtain ⟨hkey, hvalue⟩ := split_item hclean hhead hsplit
    have hnames : (Loader.sections ⟨l.closed, { l.currSection with
        items := l.currSection.items ++ [⟨key, value, l.comment, rightComment⟩] }, []⟩).map
          IniSection.name = l.sections.map IniSection.name := by
      simp [Loader.sections]
    refine ⟨.nil, hnames ▸ h.unnamed, ⟨?_, hnames ▸ h.sections.distinct, hnames ▸ h.sections.named⟩⟩
    intro sect hsect
    rcases List.mem_append.mp hsect with hsect | hsect
    · exact h.sections.sections sect (List.mem_append_left _ hsect)
    · obtain rfl := List.mem_singleton.mp hsect
      have hcurr := h.sections.sections l.currSection
        (List.mem_append_right _ (List.mem_singleton_self _))
      exact ⟨hcurr.name, hcurr.comment, hcurr.right, hcurr.unnamed,
        itemsOk_append hcurr.items ⟨hkey, h.comment, hright⟩ hvalue⟩

theorem Loader.Ok.next (h : l.Ok) (hdelim : delim ∉ line) (hline : l.line line = .ok l') :
    l'.Ok := by
  have htrim : delim ∉ trim isspace line := not_mem_trim hdelim
  rw [Loader.line] at hline
  dsimp only at hline
  split at hline
  case isTrue =>
    obtain rfl := Except.ok.inj hline
    exact ⟨commentBlock_append h.comment List.not_mem_nil (Or.inl rfl), h.unnamed, h.sections⟩
  case isFalse =>
    split at hline
    case isTrue hcomment =>
      obtain rfl := Except.ok.inj hline
      have hself : trim isspace (trim isspace line) = trim isspace line := (trim_trimmed line).trim_eq
      refine ⟨?_, h.unnamed, h.sections⟩
      rw [List.append_assoc]
      exact commentBlock_append h.comment htrim (Or.inr (hself.symm ▸ hcomment))
    case isFalse =>
      rcases hsplit : split (trim isspace line) commentDelimiter with ⟨found, cleanLine, rightComment⟩
      obtain ⟨hclean, hright⟩ := split_comment htrim hsplit
      rw [hsplit] at hline
      dsimp only at hline
      split at hline
      case isTrue hhead => exact updateSection_ok h hclean hright hline
      case isFalse hhead => exact addKeyValuePair_ok h hclean hhead hright hline

theorem Loader.Ok.lines {rest : List Text} (h : l.Ok) (hdelim : ∀ line ∈ rest, delim ∉ line) :
    (l.lines rest).1.Ok := by
  induction rest generalizing l with
  | nil => exact h
  | cons line rest ih =>
      rw [Loader.lines]
      split
      case h_1 => exact h
      case h_2 l' hline =>
        exact ih (h.next (hdelim line (List.mem_cons_self ..)) hline)
          fun line hmem => hdelim line (List.mem_cons_of_mem _ hmem)

theorem load_ok (file : Option Text) : IniOk (fun _ _ => False) (load file).1 := by
  cases file with
  | none => exact ⟨by simp [load], List.nodup_nil, List.not_mem_nil⟩
  | some text =>
      exact (Loader.Ok.lines Loader.start_ok fun _ hline => not_mem_of_mem_lines hline).sections

end Load

end GMProxy.Inifile
