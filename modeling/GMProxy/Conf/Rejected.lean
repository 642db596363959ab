import GMProxy.Conf.RoundTrip

/-!
# A file that is rejected

`readConfig` on a file with a line that `Load` rejects. It saves the defaults over the sections that
stand in front of that line.
-/

namespace GMProxy.Conf

open Inifile

variable {file : Text} {key value : Text} {ini : IniFile} {l : Loader} {rest : List Text}

/-- The loop of `Load`, if it went on behind a line with an error. -/
def validLines (l : Loader) : List Text → Loader
  | [] => l
  | line :: rest =>
      match l.line line with
      | .error _ => validLines l rest
      | .ok l' => validLines l' rest

/-- The lines in front of the first one with an error. -/
def linesInFront (l : Loader) : List Text → List Text
  | [] => []
  | line :: rest =>
      match l.line line with
      | .error _ => []
      | .ok l' => line :: linesInFront l' rest

/-- The value of a GB28181 setting that stands on a valid line of the file. -/
def settingIn (file key : Text) : Option Text :=
  getValue (validLines Loader.start (Lines.lines delim file)).sections gb28181 key

/-- The sections in front of the first line with an error. -/
def sectionsInFront (file : Text) : IniFile :=
  (validLines Loader.start (linesInFront Loader.start (Lines.lines delim file))).sections

/-- Every GB28181 setting on a valid line of the file still has its value in the file afterwards. -/
def KeepsSettings (file : Text) : Prop :=
  ∀ key value, settingIn file key = some value →
    ∃ file', (TdConf.new.readConfig (some file)).2 = some file' ∧ settingIn file' key = some value

/-- What a setting that the defaults do not overwrite is after `saveConfig`. -/
def othersKept (front : IniFile) (key : Text) : Option Text :=
  if (sectionOf front gb28181).rightComment ≠ [] ∧
      firstBare ({} : GB28121Ctx).keyValues (sectionOf front gb28181).items then
    findValue (sectionOf front gb28181).items.tail key
  else findValue (sectionOf front gb28181).items key

/-- The header of the section is not lost. The setting is one that `saveConfig` writes and has its
default value, or its line is lost and another one in front of the error has its value; or it is
another setting, which stands in front of the error and whose line is not lost. -/
def Survives (front : IniFile) (key value : Text) : Prop :=
  ¬ sectionLost front ∧
    ((∃ s : Setting, s.key = key ∧
        (firstLost front s ∧ leftover front s = some value ∨
          ¬ firstLost front s ∧ value = ({} : GB28121Ctx).text s)) ∨
      (∀ s : Setting, s.key ≠ key) ∧ othersKept front key = some value)

theorem lines_eq (l : Loader) (rest : List Text) :
    (l.lines rest).1 = validLines l (linesInFront l rest) ∧
      ((l.lines rest).2 = none → validLines l rest = (l.lines rest).1) := by
  induction rest generalizing l with
  | nil => exact ⟨rfl, fun _ => rfl⟩
  | cons line rest ih =>
      cases hline : l.line line with
      | error err =>
          simp only [Loader.lines, linesInFront, validLines, hline]
          exact ⟨trivial, fun h => absurd h (Option.some_ne_none err)⟩
      | ok l' =>
          simp only [Loader.lines, linesInFront, validLines, hline]
          exact ih l'

theorem load_front (file : Text) : (load (some file)).1 = sectionsInFront file := by
  rw [sectionsInFront, ← (lines_eq _ _).1]
  rfl

theorem settingIn_loaded (h : load (some file) = (ini, none)) (key : Text) :
    settingIn file key = getValue ini gb28181 key := by
  have herr : (Loader.start.lines (Lines.lines delim file)).2 = none := congrArg Prod.snd h
  have hini : (Loader.start.lines (Lines.lines delim file)).1.sections = ini := congrArg Prod.fst h
  rw [settingIn, (lines_eq _ _).2 herr, hini]

theorem settingIn_rejected (h : (load (some file)).2 ≠ none) :
    ∃ file', (TdConf.new.readConfig (some file)).2 = some file' ∧
      ∀ key, settingIn file' key = found (sectionsInFront file) {} key := by
  rcases hfile : load (some file) with ⟨mIni, _ | err⟩
  · exact absurd (congrArg Prod.snd hfile) h
  · have hfront : mIni = sectionsInFront file := by rw [← load_front, hfile]
    have hok := free_of_clean (load_ok (some file))
    rw [load_front] at hok
    obtain ⟨ini', hload, hvalue⟩ := load_saved hok default_clean
    rw [readConfig_rejected hfile, hfront]
    refine ⟨_, rfl, fun key => ?_⟩
    rw [← hvalue key]
    exact settingIn_loaded hload key

theorem found_iff_survives (front : IniFile) (key value : Text) :
    found front {} key = some value ↔ Survives front key value := by
  rw [Survives]
  by_cases hsection : sectionLost front
  · rw [found, if_pos hsection]
    exact iff_of_false (Option.some_ne_none value).symm fun h => h.1 hsection
  · rw [and_iff_right hsection]
    by_cases hkey : ∃ s : Setting, s.key = key
    · obtain ⟨s, rfl⟩ := hkey
      have hother : ¬ ∀ t : Setting, t.key ≠ s.key := fun h => h s rfl
      rw [or_iff_left fun h => hother h.1]
      by_cases hfirst : firstLost front s
      · rw [found_lost {} (Or.inr hfirst)]
        constructor
        · exact fun h => ⟨s, rfl, Or.inl ⟨hfirst, h⟩⟩
        · rintro ⟨t, ht, h⟩
          obtain rfl := key_injective ht
          exact (h.resolve_right fun hkept => hkept.1 hfirst).2
      · rw [found_kept {} (not_or.mpr ⟨hsection, hfirst⟩), Option.some.injEq]
        constructor
        · exact fun h => ⟨s, rfl, Or.inr ⟨hfirst, h.symm⟩⟩
        · rintro ⟨t, ht, h⟩
          obtain rfl := key_injective ht
          exact (h.resolve_left fun hlost => hfirst hlost.1).2.symm
    · have hnone : ∀ s : Setting, s.key ≠ key := fun s hs => hkey ⟨s, hs⟩
      have hmem : key ∉ ({} : GB28121Ctx).keyValues.map Prod.fst := by
        rw [keyValues_keys, List.mem_map]
        rintro ⟨s, -, hs⟩
        exact hnone s hs
      have hvalue := findValue_kept_other (keyValues_distinct {})
        (List.ne_nil_of_mem (mem_keyValues {} .devideId)) hmem
        (sectionOf front gb28181).rightComment (sectionOf front gb28181).items
      rw [found, if_neg hsection, hvalue, ← othersKept]
      constructor
      · exact fun h => Or.inr ⟨hnone, h⟩
      · rintro (⟨s, hs, -⟩ | h)
        · exact absurd hs (hnone s)
        · exact h.2

/-- A rejected file keeps its GB28181 settings exactly when all of them survive. -/
theorem readConfig_rejected_keeps_iff (h : (load (some file)).2 ≠ none) :
    KeepsSettings file ↔
      ∀ key value, settingIn file key = some value → Survives (sectionsInFront file) key value := by
  obtain ⟨file', hfile', hsetting⟩ := settingIn_rejected h
  refine forall_congr' fun key => forall_congr' fun value => forall_congr' fun _ => ?_
  rw [← found_iff_survives, ← hsetting key]
  constructor
  · rintro ⟨other, hother, hvalue⟩
    obtain rfl := Option.some.inj (hfile'.symm.trans hother)
    exact hvalue
  · exact fun hvalue => ⟨file', hfile', hvalue⟩

private def defaultExpires : Text := "[GB28181]\nExpires=3600\nnonsense".toList

/-- A setting that has its default value survives. -/
theorem defaultExpires_kept : KeepsSettings defaultExpires := by
  refine (readConfig_rejected_keeps_iff (by decide)).mpr fun key value hvalue => ?_
  have hsect : getSection (validLines Loader.start (Lines.lines delim defaultExpires)).sections
      gb28181 = some ⟨gb28181, [], [], [⟨"Expires".toList, "3600".toList, [], []⟩]⟩ := by decide
  rw [settingIn, getValue, hsect, Option.bind_some, findValue_cons] at hvalue
  split at hvalue
  next hkey =>
    obtain rfl := Option.some.inj hvalue
    subst hkey
    refine ⟨by decide, Or.inl ⟨.expires, rfl, Or.inr ⟨?_, by decide⟩⟩⟩
    exact fun hlost => hlost.1 (by decide)
  next => cases hvalue

private def secretPassword : Text := "[GB28181]\nSipPassWd=secret\nnonsense".toList

/-- A password in front of the line with the error is replaced by the default. -/
theorem secretPassword_overwritten :
    ¬ ∀ file, (load (some file)).2 ≠ none → KeepsSettings file := by
  intro h
  have hrejected : (load (some secretPassword)).2 ≠ none := by decide
  obtain ⟨file', hfile', hvalue⟩ := h secretPassword hrejected Setting.sipPassWd.key
    "secret".toList (by decide)
  obtain ⟨other, hother, hsetting⟩ := settingIn_rejected hrejected
  obtain rfl := Option.some.inj (hfile'.symm.trans hother)
  rw [hsetting] at hvalue
  revert hvalue
  decide

end GMProxy.Conf
