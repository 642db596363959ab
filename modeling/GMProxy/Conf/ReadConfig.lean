import GMProxy.Conf.RoundTrip

/-!
# What `readConfig` reads

The settings of a file, line by line, and the fields that `readConfig` fills with them. `GetIntValue`
stores the number of an empty text where the file has no line for its key.
-/

namespace GMProxy.Inifile

open Lines

/-- What a line says. -/
inductive LineKind where
  | blank
  | header (name : Text)
  | item (key value : Text)

def lineKind (line : Text) : LineKind :=
  let text := (split (trim isspace line) commentDelimiter).2.1
  if text = [] then .blank
  else if text.head? = some '[' then .header (trim isspace ((text.takeWhile (· ≠ ']')).drop 1))
  else .item (split text '=').2.1 (split text '=').2.2

/-- The section behind a line. -/
def LineKind.next (current : Text) : LineKind → Text
  | .header name => name
  | .blank | .item _ _ => current

/-- The value of a line for a key in the section `name`. -/
def LineKind.value (name key current : Text) : LineKind → Option Text
  | .item other value => if current = name ∧ other = key then some value else none
  | .blank | .header _ => none

/-- The value on the first line for a key in the section `name`. The lines begin in the section
`current`. -/
def firstValue (name key current : Text) : List Text → Option Text
  | [] => none
  | line :: rest =>
      ((lineKind line).value name key current).or
        (firstValue name key ((lineKind line).next current) rest)

variable {l l' : Loader} {line name key : Text} {rest : List Text} {ini : IniFile}

/-- What an accepted line does to the sections. -/
def Loader.Takes (l l' : Loader) : LineKind → Prop
  | .blank => l'.closed = l.closed ∧ l'.currSection = l.currSection
  | .header name => getSection l.sections name = none ∧ l'.closed = l.sections ∧
      l'.currSection.name = name ∧ l'.currSection.items = []
  | .item key value => l'.closed = l.closed ∧ ∃ item : IniItem, item.key = key ∧
      item.value = value ∧
        l'.currSection = { l.currSection with items := l.currSection.items ++ [item] }

private theorem split_nil (sep : Char) : split [] sep = (false, [], []) := rfl

private theorem split_tag (text : Text) :
    (split (commentDelimiter :: text) commentDelimiter).2.1 = [] := by
  rw [split, cut, if_pos rfl]
  rfl

theorem lineKind_blank (h : trim isspace line = [] ∨ isCommentLine (trim isspace line) = true) :
    lineKind line = .blank := by
  have htext : (split (trim isspace line) commentDelimiter).2.1 = [] := by
    rcases h with h | h
    · rw [h, split_nil]
    · cases hline : trim isspace line with
      | nil => rfl
      | cons c rest =>
          have hc : c = commentDelimiter := by simpa [hline, isCommentLine] using h
          rw [hc, split_tag]
  rw [lineKind, if_pos htext]

theorem updateSection_takes {text rightComment : Text}
    (h : updateSection l text rightComment = .ok l') :
    l.Takes l' (.header (trim isspace ((text.takeWhile (· ≠ ']')).drop 1))) := by
  rw [updateSection] at h
  split at h
  case h_1 => cases h
  case h_2 before behind hcut =>
    obtain ⟨htext, hbracket⟩ := cut_some hcut
    have hbefore : text.takeWhile (· ≠ ']') = before := by
      rw [htext, takeWhile_ne_append]
      exact List.takeWhile_eq_self_iff.mpr fun c hc => by
        simpa using fun heq : c = ']' => hbracket (heq ▸ hc)
    rw [hbefore]
    split at h
    case isTrue => cases h
    case isFalse =>
      dsimp only at h
      split at h
      case isTrue => cases h
      case isFalse hnew =>
        obtain rfl := Except.ok.inj h
        exact ⟨by simpa using hnew, rfl, rfl, rfl⟩

theorem addKeyValuePair_takes {text rightComment : Text}
    (h : addKeyValuePair l text rightComment = .ok l') :
    text ≠ [] ∧ l.Takes l' (.item (split text '=').2.1 (split text '=').2.2) := by
  constructor
  · rintro rfl
    cases h
  · rw [addKeyValuePair] at h
    split at h
    case h_1 => cases h
    case h_2 key value hsplit =>
      obtain rfl := Except.ok.inj h
      rw [hsplit]
      exact ⟨rfl, ⟨key, value, l.comment, rightComment⟩, rfl, rfl, rfl⟩

theorem line_takes (h : l.line line = .ok l') : l.Takes l' (lineKind line) := by
  rw [Loader.line] at h
  dsimp only at h
  split at h
  case isTrue hblank =>
    obtain rfl := Except.ok.inj h
    rw [lineKind_blank (Or.inl (List.length_eq_zero_iff.mp hblank))]
    exact ⟨rfl, rfl⟩
  case isFalse =>
    split at h
    case isTrue hcomment =>
      obtain rfl := Except.ok.inj h
      rw [lineKind_blank (Or.inr hcomment)]
      exact ⟨rfl, rfl⟩
    case isFalse =>
      rw [lineKind]
      split at h
      case isTrue hhead =>
        have hne : (split (trim isspace line) commentDelimiter).2.1 ≠ [] := by
          intro hnil
          rw [hnil] at hhead
          cases hhead
        rw [if_neg hne, if_pos hhead]
        exact updateSection_takes h
      case isFalse hhead =>
        obtain ⟨hne, htakes⟩ := addKeyValuePair_takes h
        rw [if_neg hne, if_neg hhead]
        exact htakes

theorem getSection_append (first second : IniFile) (name : Text) :
    getSection (first ++ second) name = (getSection first name).or (getSection second name) :=
  List.find?_append

theorem findValue_append (first second : List IniItem) (key : Text) :
    findValue (first ++ second) key = (findValue first key).or (findValue second key) := by
  rw [findValue, List.find?_append, Option.map_or]
  rfl

theorem getSection_single (sect : IniSection) (name : Text) :
    getSection [sect] name = if sect.name = name then some sect else none := by
  by_cases hname : sect.name = name <;> simp [getSection, hname]

/-- No two sections have one name. -/
def Loader.Distinct (l : Loader) : Prop := (l.sections.map IniSection.name).Nodup

theorem Loader.Takes.distinct {kind : LineKind} (h : l.Takes l' kind) (hdistinct : l.Distinct) :
    l'.Distinct := by
  rw [Loader.Distinct, Loader.sections] at *
  cases kind with
  | blank => rwa [h.1, h.2]
  | header name =>
      obtain ⟨hnew, hclosed, hname, -⟩ := h
      rw [hclosed, List.map_append, List.map_singleton, hname]
      have hnot : name ∉ l.sections.map IniSection.name := getSection_none_iff.mp hnew
      exact List.Nodup.append hdistinct (List.nodup_singleton _) (by simpa using hnot)
  | item key value =>
      obtain ⟨hclosed, item, -, -, hcurr⟩ := h
      rw [hclosed, hcurr]
      simpa using hdistinct

/-- What is found for a key while the sections grow. -/
theorem Loader.Takes.getValue {kind : LineKind} (h : l.Takes l' kind) (hdistinct : l.Distinct)
    (name key : Text) : getValue l'.sections name key =
      (getValue l.sections name key).or (kind.value name key l.currSection.name) := by
  cases kind with
  | blank => rw [Loader.sections, h.1, h.2, ← Loader.sections, LineKind.value, Option.or_none]
  | header other =>
      obtain ⟨-, hclosed, -, hitems⟩ := h
      rw [LineKind.value, Option.or_none, Loader.sections, hclosed, Inifile.getValue, getSection_append,
        getSection_single, Inifile.getValue]
      cases getSection l.sections name with
      | some sect => rfl
      | none =>
          rw [Option.none_or]
          split
          · rw [Option.bind_some, hitems]
            rfl
          · rfl
  | item other value =>
      obtain ⟨hclosed, item, rfl, rfl, hcurr⟩ := h
      rw [Loader.sections, hclosed, hcurr, Inifile.getValue, Inifile.getValue, Loader.sections,
        getSection_append, getSection_append, getSection_single, getSection_single, LineKind.value]
      by_cases hname : l.currSection.name = name
      · have hfirst : getSection l.closed name = none := by
          rw [getSection_none_iff, ← hname]
          intro hmem
          rw [Loader.Distinct, Loader.sections, List.map_append, List.map_singleton] at hdistinct
          exact List.disjoint_of_nodup_append hdistinct hmem (List.mem_singleton_self _)
        rw [hfirst, Option.none_or, Option.none_or, if_pos hname, if_pos hname, Option.bind_some,
          Option.bind_some, findValue_append, findValue_cons]
        simp only [hname, true_and]
        rfl
      · rw [if_neg hname, if_neg hname, if_neg fun hboth => hname hboth.1, Option.or_none,
          Option.or_none]

theorem Loader.Takes.current {kind : LineKind} (h : l.Takes l' kind) :
    l'.currSection.name = kind.next l.currSection.name := by
  cases kind with
  | blank =>
      rw [h.2]
      rfl
  | header name => exact h.2.2.1
  | item key value =>
      obtain ⟨-, item, -, -, hcurr⟩ := h
      rw [hcurr]
      rfl

theorem getValue_lines (hdistinct : l.Distinct) (h : l.lines rest = (l', none)) (name key : Text) :
    getValue l'.sections name key =
      (getValue l.sections name key).or (firstValue name key l.currSection.name rest) := by
  induction rest generalizing l with
  | nil =>
      obtain rfl := congrArg Prod.fst h
      exact (Option.or_none).symm
  | cons line rest ih =>
      rw [Loader.lines] at h
      split at h
      case h_1 => cases congrArg Prod.snd h
      case h_2 next hline =>
        have htakes := line_takes hline
        rw [ih (htakes.distinct hdistinct) h, htakes.getValue hdistinct name key, htakes.current,
          firstValue, Option.or_assoc]

/-- `Load` keeps the first value of every key. -/
theorem load_firstValue {file : Text} (h : load (some file) = (ini, none)) (name key : Text) :
    getValue ini name key = firstValue name key [] (Lines.lines delim file) := by
  have herr : (Loader.start.lines (Lines.lines delim file)).2 = none := congrArg Prod.snd h
  have hlines : Loader.start.lines (Lines.lines delim file) =
      ((Loader.start.lines (Lines.lines delim file)).1, none) := Prod.ext rfl herr
  have hini : (Loader.start.lines (Lines.lines delim file)).1.sections = ini := congrArg Prod.fst h
  have hdistinct : Loader.start.Distinct := List.nodup_singleton _
  rw [← hini, getValue_lines hdistinct hlines]
  have hstart : getValue Loader.start.sections name key = none := by
    rw [getValue, Loader.sections, Loader.start, List.nil_append, getSection_single]
    split <;> rfl
  rw [hstart, Option.none_or]
  rfl

end GMProxy.Inifile

namespace GMProxy.Conf

open Inifile

/-- The value on the first line for a setting. -/
def settingLine (file : Text) (s : Setting) : Option Text :=
  firstValue gb28181 s.key [] (Lines.lines delim file)

def stringOr (before : String) (value : Option Text) : String :=
  (value.map String.ofList).getD before

def numberOr (before : Int32) (value : Option Text) : Int32 := (value.map atoi).getD before

/-- Every field has the value on its first line, or the value that it had before. -/
def ReadsSettings (conf : TdConf) (file : Text) : Prop :=
  (conf.readConfig (some file)).1.mGB28121Ctx =
    { conf.mGB28121Ctx with
      mDevideId := stringOr conf.mGB28121Ctx.mDevideId (settingLine file .devideId)
      mServerSipId := stringOr conf.mGB28121Ctx.mServerSipId (settingLine file .serverSipId)
      mSipServerIp := stringOr conf.mGB28121Ctx.mSipServerIp (settingLine file .sipServerIp)
      mSipServerPort := numberOr conf.mGB28121Ctx.mSipServerPort (settingLine file .sipServerPort)
      mSipUserName := stringOr conf.mGB28121Ctx.mSipUserName (settingLine file .sipUserName)
      mSipPassWd := stringOr conf.mGB28121Ctx.mSipPassWd (settingLine file .sipPassWd)
      mExpires := numberOr conf.mGB28121Ctx.mExpires (settingLine file .expires)
      mBasePort := numberOr conf.mGB28121Ctx.mBasePort (settingLine file .basePort)
      mManufacture := stringOr conf.mGB28121Ctx.mManufacture (settingLine file .manufacture) }

/-- The fields that are numbers. -/
def GB28121Ctx.number (ctx : GB28121Ctx) : Setting → Option Int32
  | .sipServerPort => some ctx.mSipServerPort
  | .expires => some ctx.mExpires
  | .basePort => some ctx.mBasePort
  | _ => none

variable {conf : TdConf} {file : Text} {s : Setting}

theorem atoi_nil : atoi [] = 0 := by decide

theorem numberOr_eq_iff (before : Int32) (value : Option Text) :
    atoi (value.getD []) = numberOr before value ↔ value = none → before = 0 := by
  cases value with
  | none =>
      rw [Option.getD_none, atoi_nil]
      exact ⟨fun h _ => h.symm, fun h => (h rfl).symm⟩
  | some text => exact iff_of_true rfl fun h => absurd h (Option.some_ne_none text)

/-- `readConfig` of a file that `Load` accepts reads its settings exactly when every number whose
line is missing was 0 before. -/
theorem readConfig_reads_iff (h : (load (some file)).2 = none) :
    ReadsSettings conf file ↔
      ∀ s n, conf.mGB28121Ctx.number s = some n → settingLine file s = none → n = 0 := by
  obtain ⟨ini, hload⟩ : ∃ ini, load (some file) = (ini, none) := ⟨_, Prod.ext rfl h⟩
  have hvalue : ∀ s : Setting, getValue ini gb28181 s.key = settingLine file s := fun s =>
    load_firstValue hload gb28181 s.key
  have hnumbers : ReadsSettings conf file ↔
      (atoi ((settingLine file .sipServerPort).getD []) =
          numberOr conf.mGB28121Ctx.mSipServerPort (settingLine file .sipServerPort)) ∧
        (atoi ((settingLine file .expires).getD []) =
          numberOr conf.mGB28121Ctx.mExpires (settingLine file .expires)) ∧
        (atoi ((settingLine file .basePort).getD []) =
          numberOr conf.mGB28121Ctx.mBasePort (settingLine file .basePort)) := by
    rw [ReadsSettings, readConfig_loaded hload, TdConf.getValues]
    simp only [getStringValue, getIntValue, hvalue, stringOr, GB28121Ctx.mk.injEq, true_and,
      and_true]
  rw [hnumbers, numberOr_eq_iff, numberOr_eq_iff, numberOr_eq_iff]
  constructor
  · rintro ⟨hport, hexpires, hbase⟩ s n hn hnone
    cases s with
    | sipServerPort => exact Option.some.inj hn ▸ hport hnone
    | expires => exact Option.some.inj hn ▸ hexpires hnone
    | basePort => exact Option.some.inj hn ▸ hbase hnone
    | _ => cases hn
  · intro hall
    exact ⟨hall .sipServerPort _ rfl, hall .expires _ rfl, hall .basePort _ rfl⟩

private def numbersOnly : Text :=
  "[GB28181]\nExpires=60\nBasePort=1\nExpires=70\nSipServerPort=2".toList

/-- A file with the three numbers is read into a new configuration. -/
theorem numbersOnly_read : ReadsSettings TdConf.new numbersOnly := by
  refine (readConfig_reads_iff (by decide)).mpr fun s n hn hnone => ?_
  have hport : settingLine numbersOnly .sipServerPort = some "2".toList := by decide
  have hexpires : settingLine numbersOnly .expires = some "60".toList := by decide
  have hbase : settingLine numbersOnly .basePort = some "1".toList := by decide
  cases s with
  | sipServerPort => exact absurd (hport.symm.trans hnone) (Option.some_ne_none _)
  | expires => exact absurd (hexpires.symm.trans hnone) (Option.some_ne_none _)
  | basePort => exact absurd (hbase.symm.trans hnone) (Option.some_ne_none _)
  | _ => cases hn

/-- An empty file makes the port of the server 0. -/
theorem emptyFile_port :
    ¬ ∀ conf file, (load (some file)).2 = none → ReadsSettings conf file := by
  intro h
  have hread := h TdConf.new [] rfl
  have hport := congrArg GB28121Ctx.mSipServerPort hread
  revert hport
  decide

end GMProxy.Conf
