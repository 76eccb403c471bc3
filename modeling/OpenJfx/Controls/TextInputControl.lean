import OpenJfx.Controls.TextContent

/-! # `TextInputControl`

A text control without formatter whose text is not bound and never null: its
content, the length as a lazily validated binding to the text, anchor and caret
(the selection lies between them), and the linked records of undo and redo.
All records ever created are kept in a list and refer to each other by their
index in it; `undoChangeHead` is the first.  `notified` counts the notifications
of the text property. -/
set_option autoImplicit false
namespace OpenJfx.Controls

open OpenJfx.Lib

def clamp (min value max : Int) : Int := if value < min then min else if value > max then max else value

structure UndoRedoChange where
  start : Int
  oldText : Text
  newText : Text
  prev : Option Nat
  next : Option Nat
deriving DecidableEq, Repr

structure TextInputControl where
  content : Content
  /-- The value of the length while it is valid. -/
  length : Option Int
  anchor : Int
  caretPosition : Int
  changes : List UndoRedoChange
  undoChange : Option Nat
  createNewUndoRecord : Bool
  undoable : Bool
  redoable : Bool
  notified : Nat
deriving DecidableEq, Repr

namespace TextInputControl

def create (content : Content) : TextInputControl where
  content := content
  length := none
  anchor := 0
  caretPosition := 0
  changes := [⟨0, [], [], none, none⟩]
  undoChange := some 0
  createNewUndoRecord := false
  undoable := false
  redoable := false
  notified := 0

def getText (s : TextInputControl) : Text := s.content.value

def undoChangeHead : Nat := 0

/-! ## Length and selection -/

/-- `markInvalid` of the text property: the length has to be computed again. -/
def markInvalid (s : TextInputControl) : TextInputControl :=
  { s with length := none, notified := s.notified + 1 }

def getLength (s : TextInputControl) : Int := s.length.getD s.getText.length

/-- The control after a call of `getLength()`. -/
def validateLength (s : TextInputControl) : TextInputControl := { s with length := some s.getLength }

def doSelectRange (anchor caretPosition : Int) (s : TextInputControl) : TextInputControl :=
  { s.validateLength with
    caretPosition := clamp 0 caretPosition s.getLength
    anchor := clamp 0 anchor s.getLength }

/-- `getText(int, int)`. -/
def readText (start stop : Int) (s : TextInputControl) (next : Text → TextInputControl → Outcome Exn TextInputControl) :
    Outcome Exn TextInputControl :=
  if stop < start then .thrown .illegalArgument s
  else if start < 0 ∨ s.getLength < stop then .thrown .indexOutOfBounds s.validateLength
  else
    match s.content.get start stop with
    | .error x => .thrown x s.validateLength
    | .ok text => next text s.validateLength

/-! ## Changes of the content -/

/-- A change of the content, whose listeners are told if something changed and
`notifyListeners` is set. -/
def changeContent (change : Content → Except Exn (Content × Bool)) (notifyListeners : Bool) (s : TextInputControl) :
    Outcome Exn TextInputControl :=
  match change s.content with
  | .error x => .thrown x s
  | .ok (content, changed) =>
      let s := { s with content := content }
      .done (if changed && notifyListeners then s.markInvalid else s)

def delete (start stop : Int) (notifyListeners : Bool) (s : TextInputControl) : Outcome Exn TextInputControl :=
  s.changeContent (Content.delete start stop) notifyListeners

def insert (index : Int) (text : Text) (notifyListeners : Bool) (s : TextInputControl) : Outcome Exn TextInputControl :=
  s.changeContent (Content.insert index text) notifyListeners

/-- The private `replaceText`, with the adjustment it returns. -/
def replaceContent (start stop : Int) (value : Text) (anchor caretPosition : Int) (s : TextInputControl)
    (next : Int → TextInputControl → Outcome Exn TextInputControl) : Outcome Exn TextInputControl :=
  let oldLength := s.getLength
  let s := s.validateLength
  let length := if stop ≠ start then oldLength - (stop - start) else oldLength
  (if stop ≠ start then s.delete start stop value.isEmpty else .done s).bind fun s =>
  (s.insert start value true).bind fun s =>
  let adjustmentAmount := value.length - (s.getLength - length)
  next adjustmentAmount (s.validateLength.doSelectRange (anchor - adjustmentAmount) (caretPosition - adjustmentAmount))

/-! ## Undo records -/

/-- A reference to a record; following null throws. -/
def withRecord (s : TextInputControl) (next : Nat → UndoRedoChange → Outcome Exn TextInputControl) :
    Outcome Exn TextInputControl :=
  match s.undoChange with
  | none => .thrown .nullPointer s
  | some id =>
      match s.changes[id]? with
      | none => .thrown .nullPointer s
      | some record => next id record

def updateUndoRedoState (s : TextInputControl) : Outcome Exn TextInputControl :=
  let s := { s with undoable := decide (s.undoChange ≠ some undoChangeHead) }
  s.withRecord fun _ record => .done { s with redoable := record.next.isSome }

def setRecord (id : Nat) (record : UndoRedoChange) (s : TextInputControl) : TextInputControl :=
  { s with changes := s.changes.set id record }

/-- `undoChange = undoChange.add(start, oldText, newText)`. -/
def add (id : Nat) (record : UndoRedoChange) (start : Int) (oldText newText : Text) (s : TextInputControl) :
    TextInputControl :=
  { s with
    changes := s.changes.set id { record with next := some s.changes.length } ++ [⟨start, oldText, newText, some id, none⟩]
    undoChange := some s.changes.length }

/-- `undoChange = undoChange.discard()`. -/
def discard (record : UndoRedoChange) (s : TextInputControl) : Outcome Exn TextInputControl :=
  let s' := { s with undoChange := record.prev }
  s'.withRecord fun id previous => .done (s'.setRecord id { previous with next := record.next })

def endOfUndoChange (id : Nat) (record : UndoRedoChange) : Int :=
  if id = undoChangeHead then -1 else record.start + record.newText.length

/-- The test of `updateContent` for a record of its own. -/
def needsRecord (s : TextInputControl) (nonEmptySelection forceNewUndoRecord : Bool) (endOfUndoChange start stop : Int) :
    Prop :=
  s.createNewUndoRecord = true ∨ nonEmptySelection = true ∨ endOfUndoChange = -1 ∨ forceNewUndoRecord = true ∨
    (endOfUndoChange ≠ start ∧ endOfUndoChange ≠ stop) ∨ stop - start > 1

instance (s : TextInputControl) (nonEmptySelection forceNewUndoRecord : Bool) (endOfUndoChange start stop : Int) :
    Decidable (s.needsRecord nonEmptySelection forceNewUndoRecord endOfUndoChange start stop) :=
  inferInstanceAs (Decidable (_ ∨ _ ∨ _ ∨ _ ∨ _ ∨ _))

/-- A character is deleted at the end of the current record. -/
def mergeDeletion (id : Nat) (record : UndoRedoChange) (start : Int) (oldText : Text) (s : TextInputControl) :
    Outcome Exn TextInputControl :=
  if 0 < record.newText.length then
    match StringBuilder.subSequence record.newText 0 (start - record.start) with
    | .error x => .thrown x s
    | .ok newText =>
        let record := { record with newText := newText }
        let s := s.setRecord id record
        if newText = [] then s.discard record else .done s
  else if start = endOfUndoChange id record then
    .done (s.setRecord id { record with oldText := record.oldText ++ oldText })
  else
    .done (s.setRecord id { record with oldText := oldText ++ record.oldText, start := record.start - 1 })

/-- The part of `updateContent` behind the change of the content. -/
def recordChange (nonEmptySelection forceNewUndoRecord : Bool) (start stop : Int) (text oldText newText : Text)
    (s : TextInputControl) : Outcome Exn TextInputControl :=
  s.withRecord fun id record =>
  (if s.needsRecord nonEmptySelection forceNewUndoRecord (endOfUndoChange id record) start stop then
    .done (s.add id record start oldText newText)
  else if start ≠ stop ∧ text = [] then s.mergeDeletion id record start oldText
  else .done (s.setRecord id { record with newText := record.newText ++ newText })).bind updateUndoRedoState

def updateContent (start stop : Int) (text : Text) (anchor caretPosition : Int) (forceNewUndoRecord : Bool)
    (s : TextInputControl) : Outcome Exn TextInputControl :=
  let nonEmptySelection := decide (s.anchor ≠ s.caretPosition)
  s.readText start stop fun oldText s =>
  s.replaceContent start stop text anchor caretPosition fun adjustmentAmount s =>
  -- `undoChange.start` is read in front of the new text
  s.withRecord fun _ _ =>
  s.readText start (start + text.length - adjustmentAmount) fun newText s =>
  s.recordChange nonEmptySelection forceNewUndoRecord start stop text oldText newText

/-! ## Calls -/

/-- `replaceText(int, int, String)`. -/
def replaceText (start stop : Int) (text : Text) (s : TextInputControl) : Outcome Exn TextInputControl :=
  if stop < start then .thrown .illegalArgument s
  else if start < 0 ∨ s.getLength < stop then .thrown .indexOutOfBounds s.validateLength
  else
    s.validateLength.updateContent start stop text (start + text.length) (start + text.length)
      (decide (s.getLength = 0))

def insertText (index : Int) (text : Text) (s : TextInputControl) : Outcome Exn TextInputControl :=
  s.replaceText index index text

def deleteText (start stop : Int) (s : TextInputControl) : Outcome Exn TextInputControl := s.replaceText start stop []

def replaceSelection (replacement : Text) (s : TextInputControl) : Outcome Exn TextInputControl :=
  s.replaceText (min s.anchor s.caretPosition) (max s.anchor s.caretPosition) replacement

/-- `finally`: the flag is reset also when the call throws. -/
def resetCreateNewUndoRecord : Outcome Exn TextInputControl → Outcome Exn TextInputControl
  | .done s => .done { s with createNewUndoRecord := false }
  | .thrown x s => .thrown x { s with createNewUndoRecord := false }

def paste (text : Text) (s : TextInputControl) : Outcome Exn TextInputControl :=
  resetCreateNewUndoRecord ({ s with createNewUndoRecord := true }.replaceSelection text)

def selectRange (anchor caretPosition : Int) (s : TextInputControl) : Outcome Exn TextInputControl :=
  let caretPosition := clamp 0 caretPosition s.getLength
  let anchor := clamp 0 anchor s.getLength
  s.validateLength.updateContent caretPosition caretPosition [] anchor caretPosition false

def undo (s : TextInputControl) : Outcome Exn TextInputControl :=
  (if s.undoable then
    s.withRecord fun id record =>
    if id = undoChangeHead then .thrown .nullPointer s
    else
      (s.delete record.start (record.start + record.newText.length) record.oldText.isEmpty).bind fun s =>
      (s.insert record.start record.oldText true).bind fun s =>
      .done { s.doSelectRange record.start (record.start + record.oldText.length) with undoChange := record.prev }
  else .done s).bind updateUndoRedoState

def redo (s : TextInputControl) : Outcome Exn TextInputControl :=
  (if s.redoable then
    s.withRecord fun _ record =>
    let s := { s with undoChange := record.next }
    s.withRecord fun _ record =>
    (s.delete record.start (record.start + record.oldText.length) record.newText.isEmpty).bind fun s =>
    (s.insert record.start record.newText true).bind fun s =>
    .done (s.doSelectRange (record.start + record.newText.length) (record.start + record.newText.length))
  else .done s).bind updateUndoRedoState

def resetUndoRedoState (s : TextInputControl) : Outcome Exn TextInputControl :=
  let s := { s with undoChange := some undoChangeHead }
  s.withRecord fun id record => (s.setRecord id { record with next := none }).updateUndoRedoState

/-- `setText`, which is `set` of the text property. -/
def setText (value : Text) (s : TextInputControl) : Outcome Exn TextInputControl :=
  (s.replaceContent 0 s.content.length value 0 0 fun _ s => s.resetUndoRedoState).bind fun s => .done s.markInvalid

end TextInputControl
end OpenJfx.Controls
