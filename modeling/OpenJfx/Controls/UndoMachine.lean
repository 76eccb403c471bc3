import OpenJfx.Controls.UndoLinks

/-! # Undo and redo as a machine of their own

`undo` and `redo` read and change the content, the records, the current record
and the two flags, and what they do to these depends on nothing else of the
control. -/
set_option autoImplicit false
namespace OpenJfx.Controls

open OpenJfx.Lib

/-- The part of a control that `undo` and `redo` work on. -/
structure History where
  content : Content
  changes : List UndoRedoChange
  undoChange : Option Nat
  undoable : Bool
  redoable : Bool
deriving DecidableEq, Repr

namespace History

def text (h : History) : Text := h.content.value

def changeContent (change : Content → Except Exn (Content × Bool)) (h : History) : Outcome Exn History :=
  match change h.content with
  | .error x => .thrown x h
  | .ok (content, _) => .done { h with content := content }

/-- The text `out` at `start` is replaced by `into`. -/
def replace (start : Int) (out into : Text) (h : History) : Outcome Exn History :=
  (h.changeContent (Content.delete start (start + out.length))).bind (changeContent (Content.insert start into))

def withRecord (h : History) (next : Nat → UndoRedoChange → Outcome Exn History) : Outcome Exn History :=
  match h.undoChange with
  | none => .thrown .nullPointer h
  | some id =>
      match h.changes[id]? with
      | none => .thrown .nullPointer h
      | some record => next id record

def updateUndoRedoState (h : History) : Outcome Exn History :=
  let h := { h with undoable := decide (h.undoChange ≠ some TextInputControl.undoChangeHead) }
  h.withRecord fun _ record => .done { h with redoable := record.next.isSome }

def undo (h : History) : Outcome Exn History :=
  (if h.undoable then
    h.withRecord fun id record =>
    if id = TextInputControl.undoChangeHead then .thrown .nullPointer h
    else (h.replace record.start record.newText record.oldText).bind fun h => .done { h with undoChange := record.prev }
  else .done h).bind updateUndoRedoState

def redo (h : History) : Outcome Exn History :=
  (if h.redoable then
    h.withRecord fun _ record =>
    let h := { h with undoChange := record.next }
    h.withRecord fun _ record => h.replace record.start record.oldText record.newText
  else .done h).bind updateUndoRedoState

inductive Move where
  | undo
  | redo
deriving DecidableEq, Repr

def step : Move → History → Outcome Exn History
  | .undo => undo
  | .redo => redo

end History

namespace TextInputControl

def history (s : TextInputControl) : History :=
  ⟨s.content, s.changes, s.undoChange, s.undoable, s.redoable⟩

def move : History.Move → TextInputControl → Outcome Exn TextInputControl
  | .undo => undo
  | .redo => redo

section Machine
variable {s : TextInputControl}

theorem map_bind {o : Outcome Exn TextInputControl} {next : TextInputControl → Outcome Exn TextInputControl}
    {next' : History → Outcome Exn History} (h : ∀ s, (next s).map history = next' s.history) :
    (o.bind next).map history = (o.map history).bind next' := by
  cases o with
  | done s => exact h s
  | thrown x s => rfl

theorem history_changeContent (change : Content → Except Exn (Content × Bool)) (notifyListeners : Bool) :
    (s.changeContent change notifyListeners).map history = s.history.changeContent change := by
  show _ = match change s.content with
    | .error x => Outcome.thrown x s.history
    | .ok (content, _) => .done { s.history with content := content }
  unfold changeContent
  cases change s.content with
  | error x => rfl
  | ok result =>
    obtain ⟨content, changed⟩ := result
    dsimp only
    by_cases told : (changed && notifyListeners) = true
    · rw [if_pos told]
      rfl
    · rw [if_neg told]
      rfl

theorem history_withRecord {next : Nat → UndoRedoChange → Outcome Exn TextInputControl}
    {next' : Nat → UndoRedoChange → Outcome Exn History} (h : ∀ id r, (next id r).map history = next' id r) :
    (s.withRecord next).map history = s.history.withRecord next' := by
  have hid : s.history.undoChange = s.undoChange := rfl
  have hchanges : s.history.changes = s.changes := rfl
  unfold withRecord History.withRecord
  rw [hid, hchanges]
  cases s.undoChange with
  | none => rfl
  | some id =>
    dsimp only
    cases s.changes[id]? with
    | none => rfl
    | some record => exact h id record

theorem history_updateUndoRedoState : s.updateUndoRedoState.map history = s.history.updateUndoRedoState :=
  history_withRecord fun _ _ => rfl

theorem history_replace (start : Int) (out into : Text) (told : Bool)
    {last : TextInputControl → Outcome Exn TextInputControl} {last' : History → Outcome Exn History}
    (h : ∀ s, (last s).map history = last' s.history) :
    ((s.delete start (start + out.length) told).bind fun s => (s.insert start into true).bind last).map history
      = (s.history.replace start out into).bind last' := by
  unfold History.replace
  rw [Outcome.bind_assoc, @map_bind _ _ (fun h => (h.changeContent (Content.insert start into)).bind last')]
  · rw [delete, history_changeContent]
  · intro s₁
    rw [map_bind h, insert, history_changeContent]

theorem history_undo : s.undo.map history = s.history.undo := by
  unfold undo History.undo
  rw [map_bind fun s => history_updateUndoRedoState]
  congr 1
  have hundoable : s.history.undoable = s.undoable := rfl
  rw [hundoable]
  by_cases undoable : s.undoable = true
  · rw [if_pos undoable, if_pos undoable]
    refine history_withRecord fun id record => ?_
    by_cases hhead : id = undoChangeHead
    · rw [if_pos hhead, if_pos hhead]
      rfl
    · rw [if_neg hhead, if_neg hhead]
      exact history_replace _ _ _ _ fun _ => rfl
  · rw [if_neg undoable, if_neg undoable]
    rfl

theorem history_redo : s.redo.map history = s.history.redo := by
  unfold redo History.redo
  rw [map_bind fun s => history_updateUndoRedoState]
  congr 1
  have hredoable : s.history.redoable = s.redoable := rfl
  rw [hredoable]
  by_cases redoable : s.redoable = true
  · rw [if_pos redoable, if_pos redoable]
    refine history_withRecord fun id record => ?_
    refine @history_withRecord { s with undoChange := record.next } _ _ fun id' record' => ?_
    rw [@history_replace { s with undoChange := record.next } record'.start record'.oldText record'.newText
      record'.newText.isEmpty _ Outcome.done fun _ => rfl, Outcome.bind_pure]
    rfl
  · rw [if_neg redoable, if_neg redoable]
    rfl

theorem history_move (m : History.Move) : (s.move m).map history = s.history.step m := by
  cases m with
  | undo => exact history_undo
  | redo => exact history_redo

theorem history_moves (moves : List History.Move) :
    (Outcome.run move moves s).map history = Outcome.run History.step moves s.history := by
  induction moves generalizing s with
  | nil => rfl
  | cons m rest ih => rw [Outcome.run, map_bind fun s => @ih s, history_move, Outcome.run]

end Machine

end TextInputControl
end OpenJfx.Controls
