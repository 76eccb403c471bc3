import OpenJfx.Lib.StringBuilder
import OpenJfx.Lib.Run

/-! # `TextArea.TextAreaContent`

The content of a text area as a list of paragraphs, each a builder without
newlines, and the length of the whole text.  Positions are found by scanning
the paragraphs from the last one, with one newline behind each.  Characters are
UTF-16 code units.  The listeners of the paragraph list are left out. -/
set_option autoImplicit false
namespace OpenJfx.Controls

open OpenJfx.Lib

abbrev Text : Type := List Nat

def newline : Nat := 0xA

def isInvalidCharacter (c : Nat) (newlineIllegal tabIllegal : Bool) : Bool :=
  if c = 0x7F then true
  else if c = 0xA then newlineIllegal
  else if c = 0x9 then tabIllegal
  else if c < 0x20 then true
  else false

def containsInvalidCharacters (txt : Text) (newlineIllegal tabIllegal : Bool) : Bool :=
  txt.any (fun c => isInvalidCharacter c newlineIllegal tabIllegal)

def filterInput (txt : Text) (stripNewlines stripTabs : Bool) : Text :=
  if containsInvalidCharacters txt stripNewlines stripTabs then
    txt.filter (fun c => !isInvalidCharacter c stripNewlines stripTabs)
  else txt

theorem filterInput_eq (txt : Text) (stripNewlines stripTabs : Bool) :
    filterInput txt stripNewlines stripTabs
      = txt.filter (fun c => !isInvalidCharacter c stripNewlines stripTabs) := by
  unfold filterInput
  split
  next => rfl
  next valid =>
    symm
    rw [List.filter_eq_self]
    intro c hc
    simp only [containsInvalidCharacters, Bool.not_eq_true, List.any_eq_false] at valid
    simpa using valid c hc

structure TextAreaContent where
  paragraphs : List Text
  contentLength : Int
deriving DecidableEq, Repr

namespace TextAreaContent

def create : TextAreaContent := ⟨[[]], 0⟩

/-! ## Reading -/

/-- The first loop of `get`, with the paragraph it stops at. -/
def skip : List Text → Nat → Int → Nat × Int
  | [], paragraphIndex, offset => (paragraphIndex, offset)
  | paragraph :: rest, paragraphIndex, offset =>
      if offset < paragraph.length + 1 then (paragraphIndex, offset)
      else skip rest (paragraphIndex + 1) (offset - (paragraph.length + 1))

/-- The second loop of `get`, for the `n` characters from the `i`-th on. -/
def read (c : TextAreaContent) : Nat → Int → Nat → Int → Except Exn Text
  | 0, _, _, _ => .ok []
  | n + 1, i, paragraphIndex, offset =>
      match c.paragraphs[paragraphIndex]? with
      | none => .error .indexOutOfBounds
      | some paragraph =>
          if offset = paragraph.length ∧ i < c.contentLength then
            if paragraphIndex + 1 < c.paragraphs.length then
              (newline :: ·) <$> read c n (i + 1) (paragraphIndex + 1) 0
            else .error .indexOutOfBounds
          else
            match StringBuilder.charAt paragraph offset with
            | .error x => .error x
            | .ok unit => (unit :: ·) <$> read c n (i + 1) paragraphIndex (offset + 1)

def get (c : TextAreaContent) (start stop : Int) : Except Exn Text :=
  let length := stop - start
  if length < 0 then .error .negativeArraySize
  else
    let found := skip c.paragraphs 0 start
    if found.1 < c.paragraphs.length then read c length.toNat 0 found.1 found.2
    else .error .indexOutOfBounds

/-! ## Changes -/

/-- The loop that splits an inserted text, with the last line apart. -/
def splitLines : Text → List Text → Text → List Text × Text
  | [], lines, line => (lines, line)
  | c :: rest, lines, line =>
      if c = newline then splitLines rest (lines ++ [line]) []
      else splitLines rest lines (line ++ [c])

/-- The backward scan for the paragraph of `index`, from `paragraphIndex` and
the offset behind that paragraph. -/
def locate (paragraphs : List Text) (index : Int) : Nat → Int → Except Exn (Nat × Int × Text)
  | 0, _ => .error .indexOutOfBounds
  | paragraphIndex + 1, offset =>
      match paragraphs[paragraphIndex]? with
      | none => .error .indexOutOfBounds
      | some paragraph =>
          let offset := offset - (paragraph.length + 1)
          if index < offset then locate paragraphs index paragraphIndex offset
          else .ok (paragraphIndex, offset, paragraph)

/-- `paragraphs.addAll(index, lines)`. -/
def addAll (paragraphs : List Text) (index : Nat) (lines : List Text) : List Text :=
  paragraphs.take index ++ lines ++ paragraphs.drop index

/-- The part of `insert` behind the scan: the lines go into the paragraph at
`paragraphIndex`, from its character `start` on. -/
def insertLines (paragraphs : List Text) (paragraphIndex : Nat) (paragraph : Text) (start : Int)
    (lines : List Text) (line : Text) : Except Exn (List Text) :=
  match lines with
  | [] =>
      match StringBuilder.insert paragraph start line with
      | .error x => .error x
      | .ok paragraph => .ok (paragraphs.set paragraphIndex paragraph)
  | first :: middle =>
      match StringBuilder.subSequence paragraph start paragraph.length with
      | .error x => .error x
      | .ok trailingText =>
          match StringBuilder.delete paragraph start paragraph.length with
          | .error x => .error x
          | .ok paragraph =>
              match StringBuilder.insert paragraph start first with
              | .error x => .error x
              | .ok paragraph =>
                  .ok (addAll (paragraphs.set paragraphIndex paragraph) (paragraphIndex + 1)
                    (middle ++ [line ++ trailingText]))

def insert (c : TextAreaContent) (index : Int) (text : Text) : Except Exn TextAreaContent :=
  if index < 0 ∨ c.contentLength < index then .error .indexOutOfBounds
  else
    let text := filterInput text false false
    let length := text.length
    if 0 < length then
      let split := splitLines text [] []
      match locate c.paragraphs index c.paragraphs.length (c.contentLength + 1) with
      | .error x => .error x
      | .ok (paragraphIndex, offset, paragraph) =>
          match insertLines c.paragraphs paragraphIndex paragraph (index - offset) split.1 split.2 with
          | .error x => .error x
          | .ok paragraphs => .ok ⟨paragraphs, c.contentLength + length⟩
    else .ok c

/-- The part of `delete` behind the scans. -/
def deleteBetween (paragraphs : List Text) (start stop : Int)
    (leading trailing : Nat × Int × Text) : Except Exn (List Text) :=
  if leading.1 = trailing.1 then
    match StringBuilder.delete leading.2.2 (start - leading.2.1) (stop - leading.2.1) with
    | .error x => .error x
    | .ok paragraph => .ok (paragraphs.set leading.1 paragraph)
  else
    match StringBuilder.subSequence leading.2.2 0 (start - leading.2.1) with
    | .error x => .error x
    | .ok leadingSegment =>
        let trailingSegmentLength := (start + (stop - start)) - trailing.2.1
        match StringBuilder.delete trailing.2.2 0 trailingSegmentLength with
        | .error x => .error x
        | .ok trailingParagraph =>
            let paragraphs := paragraphs.set trailing.1 trailingParagraph
            let paragraphs :=
              if 0 < trailing.1 - leading.1 then
                paragraphs.take leading.1 ++ paragraphs.drop trailing.1
              else paragraphs
            match StringBuilder.insert trailingParagraph 0 leadingSegment with
            | .error x => .error x
            | .ok paragraph => .ok (paragraphs.set leading.1 paragraph)

def delete (c : TextAreaContent) (start stop : Int) : Except Exn TextAreaContent :=
  if stop < start then .error .illegalArgument
  else if start < 0 ∨ c.contentLength < stop then .error .indexOutOfBounds
  else
    let length := stop - start
    if 0 < length then
      match locate c.paragraphs stop c.paragraphs.length (c.contentLength + 1) with
      | .error x => .error x
      | .ok trailing =>
          match locate c.paragraphs start (trailing.1 + 1)
              (trailing.2.1 + (trailing.2.2.length + 1)) with
          | .error x => .error x
          | .ok leading =>
              match deleteBetween c.paragraphs start stop leading trailing with
              | .error x => .error x
              | .ok paragraphs => .ok ⟨paragraphs, c.contentLength - length⟩
    else .ok c

end TextAreaContent
end OpenJfx.Controls
