import GMProxy.Library.Lines

/-!
# The configuration file

`IniFile` of `tdUtil`: the text of a file to its sections and back. `SaveAs` ends the line of a
header before the comment to its right, so that the comment runs into what stands behind it.
-/

namespace GMProxy.Inifile

open Lines

abbrev Text := List Char

def delim : Char := '\n'
def commentDelimiter : Char := '#'

def isspace (c : Char) : Bool := c ∈ [' ', '\t', '\n', '\x0b', '\x0c', '\r']

structure IniItem where
  key : Text
  value : Text
  comment : Text
  rightComment : Text
deriving DecidableEq, Repr

structure IniSection where
  name : Text
  comment : Text
  rightComment : Text
  items : List IniItem
deriving DecidableEq, Repr

/-- `sections_vt`. -/
abbrev IniFile := List IniSection

/-- The error codes of `Load`. -/
inductive IniError where
  | unmatchedBrackets
  | sectionEmpty
  | sectionAlreadyExists
  | parseKeyValueFailed
  | openFileFailed
deriving DecidableEq, Repr

def getSection (ini : IniFile) (section_ : Text) : Option IniSection :=
  ini.find? fun sect => sect.name = section_

/-- `split`, with what it leaves left and right of the separator. -/
def split (str : Text) (sep : Char) : Bool × Text × Text :=
  match cut sep str with
  | some (left, right) => (true, trim isspace left, trim isspace right)
  | none => (false, trim isspace str, [])

/-- The loop of `Load`. `currSection` is the last element of `sections_vt`, `closed` are the ones
before it. -/
structure Loader where
  closed : List IniSection
  currSection : IniSection
  comment : Text

def Loader.sections (l : Loader) : IniFile := l.closed ++ [l.currSection]

/-- The loop starts with the section that has no name. -/
def Loader.start : Loader := ⟨[], ⟨[], [], [], []⟩, []⟩

def updateSection (l : Loader) (cleanLine rightComment : Text) : Except IniError Loader :=
  match cut ']' cleanLine with
  | none => .error .unmatchedBrackets
  | some (before, _) =>
      if before.length ≤ 1 then .error .sectionEmpty
      else
        let s := trim isspace (before.drop 1)
        if (getSection l.sections s).isSome then .error .sectionAlreadyExists
        else .ok ⟨l.sections, ⟨s, l.comment, rightComment, []⟩, []⟩

def addKeyValuePair (l : Loader) (cleanLine rightComment : Text) : Except IniError Loader :=
  match split cleanLine '=' with
  | (false, _, _) => .error .parseKeyValueFailed
  | (true, key, value) =>
      let item : IniItem := ⟨key, value, l.comment, rightComment⟩
      .ok ⟨l.closed, { l.currSection with items := l.currSection.items ++ [item] }, []⟩

def isCommentLine (str : Text) : Bool := str.head? = some commentDelimiter

/-- One line. -/
def Loader.line (l : Loader) (line : Text) : Except IniError Loader :=
  let line := trim isspace line
  if line.length = 0 then .ok { l with comment := l.comment ++ [delim] }
  else if isCommentLine line then .ok { l with comment := l.comment ++ line ++ [delim] }
  else
    let (_, cleanLine, rightComment) := split line commentDelimiter
    if cleanLine.head? = some '[' then updateSection l cleanLine rightComment
    else addKeyValuePair l cleanLine rightComment

/-- The loop ends at the first line with an error. -/
def Loader.lines (l : Loader) : List Text → Loader × Option IniError
  | [] => (l, none)
  | line :: rest =>
      match l.line line with
      | .error err => (l, some err)
      | .ok l' => l'.lines rest

/-- `Load`: the sections it leaves, and its error; there may be no file. -/
def load : Option Text → IniFile × Option IniError
  | none => ([], some .openFileFailed)
  | some file =>
      let (l, err) := Loader.start.lines (Lines.lines delim file)
      (l.sections, err)

/-- A piece of the file, with a line end if it has none. -/
def endLine (piece : Text) : Text :=
  if piece.getLast? = some delim then piece else piece ++ [delim]

def rightCommentText (rightComment : Text) : Text :=
  if rightComment = [] then [] else ' ' :: commentDelimiter :: rightComment

def IniItem.text (item : IniItem) : Text :=
  (if item.comment = [] then [] else endLine item.comment) ++
    endLine (item.key ++ '=' :: item.value ++ rightCommentText item.rightComment)

def IniSection.text (sect : IniSection) : Text :=
  sect.comment ++ (if sect.name = [] then [] else '[' :: sect.name ++ [']', delim]) ++
    rightCommentText sect.rightComment ++ sect.items.flatMap IniItem.text

/-- The text that `SaveAs` writes. -/
def saveAs (ini : IniFile) : Text := ini.flatMap IniSection.text

def findValue (items : List IniItem) (key : Text) : Option Text :=
  (items.find? fun item => item.key = key).map IniItem.value

/-- `getValue`, and so `GetStringValue`; none when it returns an error. -/
def getValue (ini : IniFile) (section_ key : Text) : Option Text :=
  (getSection ini section_).bind fun sect => findValue sect.items key

/-- The first item with the key gets the value and no comment, or a new item is appended. -/
def setItem (key value : Text) : List IniItem → List IniItem
  | [] => [⟨key, value, [], []⟩]
  | item :: rest =>
      if item.key = key then { item with value := value, comment := [] } :: rest
      else item :: setItem key value rest

def setInSection (section_ key value : Text) : List IniSection → List IniSection
  | [] => []
  | sect :: rest =>
      if sect.name = section_ then { sect with items := setItem key value sect.items } :: rest
      else sect :: setInSection section_ key value rest

/-- The sections with one of the name; the one without a name comes first. -/
def withSection (ini : IniFile) (section_ : Text) : IniFile :=
  match getSection ini section_ with
  | some _ => ini
  | none => if section_ = [] then ⟨section_, [], [], []⟩ :: ini else ini ++ [⟨section_, [], [], []⟩]

/-- `setValue` without a comment, and so `SetStringValue`. -/
def setValue (ini : IniFile) (section_ key value : Text) : IniFile :=
  setInSection section_ key value (withSection ini section_)

end GMProxy.Inifile
