import OpenJfx.Controls.EmptyRecord

/-! # Selecting leaves the undo history alone, or does not

A selection goes through `updateContent` as an empty edit at the caret.  The
exact condition under which the text, the flags and the texts of every later
sequence of undo and redo calls stay the same. -/
set_option autoImplicit false
namespace OpenJfx.Controls

open OpenJfx.Lib

namespace TextInputControl

/-- The text after a sequence of undo and redo calls; a call that throws ends it. -/
def textAfter (moves : List History.Move) (s : TextInputControl) : Text := (Outcome.run move moves s).state.getText

def Undisturbed (s s' : TextInputControl) : Prop :=
  s'.getText = s.getText ∧ s'.undoable = s.undoable ∧ s'.redoable = s.redoable ∧
    ∀ moves, s'.textAfter moves = s.textAfter moves

inductive SelectCall where
  | selectRange (anchor caretPosition : Int)
  | positionCaret (pos : Int)
  | deselect
  | selectAll
  | home
  | end_
deriving DecidableEq, Repr

def positionCaret (pos : Int) (s : TextInputControl) : Outcome Exn TextInputControl :=
  let p := clamp 0 pos s.getLength
  s.validateLength.selectRange p p

def deselect (s : TextInputControl) : Outcome Exn TextInputControl := s.selectRange s.caretPosition s.caretPosition

def selectAll (s : TextInputControl) : Outcome Exn TextInputControl := s.validateLength.selectRange 0 s.getLength

def home (s : TextInputControl) : Outcome Exn TextInputControl := s.selectRange 0 0

def end_ (s : TextInputControl) : Outcome Exn TextInputControl :=
  let textLength := s.getLength
  if textLength > 0 then s.validateLength.selectRange textLength textLength else .done s.validateLength

def select : SelectCall → TextInputControl → Outcome Exn TextInputControl
  | .selectRange anchor caretPosition => selectRange anchor caretPosition
  | .positionCaret pos => positionCaret pos
  | .deselect => deselect
  | .selectAll => selectAll
  | .home => home
  | .end_ => end_

/-- The caret that the call asks for; `end()` does nothing for an empty text. -/
def target (s : TextInputControl) : SelectCall → Option Int
  | .selectRange _ caretPosition => some caretPosition
  | .positionCaret pos => some pos
  | .deselect => some s.caretPosition
  | .selectAll => some s.getLength
  | .home => some 0
  | .end_ => if s.getLength > 0 then some s.getLength else none

/-! ## The condition -/

/-- The flags are those of the current record, nothing is selected and the
caret goes to the end of the current record. -/
def AtRecordEnd (s : TextInputControl) (caret : Int) : Prop :=
  s.createNewUndoRecord = false ∧ s.anchor = s.caretPosition ∧
    ∃ id r, s.undoChange = some id ∧ id ≠ undoChangeHead ∧ s.changes[id]? = some r ∧ s.undoable = true ∧
      s.redoable = r.next.isSome ∧ r.start + r.newText.length = caret

/-- There is something to undo and nothing to redo, but no sequence of undo and
redo calls shows another text. -/
def NothingToSee (s : TextInputControl) : Prop :=
  s.undoable = true ∧ s.redoable = false ∧ ∀ moves, s.textAfter moves = s.getText

/-- The call throws: the length is stale and the caret goes behind the text, or
a redo that threw has left no current record. -/
def Throws (s : TextInputControl) (caret : Int) : Prop :=
  (s.getText.length : Int) < caret ∨ s.undoChange = none

def Harmless (s : TextInputControl) (call : SelectCall) : Prop :=
  ∀ caret, s.target call = some caret →
    Throws s (clamp 0 caret s.getLength) ∨ AtRecordEnd s (clamp 0 caret s.getLength) ∨ NothingToSee s

/-! ## The call on the history -/

section History
variable {s s' : TextInputControl}

theorem textAfter_history (moves : List History.Move) :
    s.textAfter moves = (Outcome.run History.step moves s.history).state.text := by
  rw [← history_moves]
  unfold textAfter
  cases Outcome.run move moves s with
  | done t => rfl
  | thrown x t => rfl

theorem undisturbed_iff : Undisturbed s s' ↔
    s'.history.text = s.history.text ∧ s'.history.undoable = s.history.undoable ∧
    s'.history.redoable = s.history.redoable ∧
    ∀ moves, (Outcome.run History.step moves s'.history).state.text
      = (Outcome.run History.step moves s.history).state.text := by
  simp only [Undisturbed, textAfter_history]
  rfl

theorem undisturbed_of_history (h : s'.history = s.history) : Undisturbed s s' := by
  rw [undisturbed_iff, h]
  exact ⟨rfl, rfl, rfl, fun _ => rfl⟩

end History

section Select
variable {s : TextInputControl}

theorem clamp_bounds {value max : Int} (h : 0 ≤ max) : 0 ≤ clamp 0 value max ∧ clamp 0 value max ≤ max := by
  unfold clamp
  by_cases low : value < 0
  · rw [if_pos low]
    exact ⟨le_rfl, h⟩
  · rw [if_neg low]
    by_cases high : value > max
    · rw [if_pos high]
      exact ⟨h, le_rfl⟩
    · rw [if_neg high]
      omega

theorem clamp_of_bounds {value max : Int} (low : 0 ≤ value) (high : value ≤ max) : clamp 0 value max = value := by
  unfold clamp
  rw [if_neg (by omega), if_neg (by omega)]

theorem readText_empty {p : Int} (low : 0 ≤ p) (high : p ≤ s.getLength)
    (next : Text → TextInputControl → Outcome Exn TextInputControl) :
    s.readText p p next = match s.content.get p p with
      | .error x => .thrown x s.validateLength
      | .ok text => next text s.validateLength := by
  unfold readText
  rewrite [if_neg (by omega), if_neg (by omega)]
  rfl

theorem Reached.get_inside (h : Reached s) {p : Int} (low : 0 ≤ p) (inside : p ≤ s.getText.length) :
    s.content.get p p = .ok [] := by
  obtain ⟨n, rfl⟩ : ∃ n : Nat, p = n := ⟨p.toNat, by omega⟩
  rw [h.holds.get le_rfl (by omega)]
  simp

theorem Reached.insert_empty (h : Reached s) {p : Int} (low : 0 ≤ p) (inside : p ≤ s.getText.length) :
    s.insert p [] true = .done s := by
  obtain ⟨n, rfl⟩ : ∃ n : Nat, p = n := ⟨p.toNat, by omega⟩
  obtain ⟨c, hinsert, -, -⟩ := h.holds.insert (by omega : n ≤ s.getText.length) []
  obtain ⟨rfl, htold⟩ := Content.insert_nil hinsert
  unfold TextInputControl.insert TextInputControl.changeContent
  rw [hinsert]
  dsimp only
  rw [htold]
  rfl

/-- Behind a stale length the call throws before it does anything. -/
theorem selectRange_beyond (h : Reached s) (anchor caret : Int)
    (beyond : (s.getText.length : Int) < clamp 0 caret s.getLength) :
    ∃ x, s.selectRange anchor caret = .thrown x s.validateLength := by
  obtain ⟨low, high⟩ := @clamp_bounds caret s.getLength h.getLength_nonneg
  obtain ⟨x, hget⟩ := h.holds.get_beyond beyond
  refine ⟨x, ?_⟩
  unfold selectRange updateContent
  dsimp only
  rw [@readText_empty s.validateLength _ low high]
  rw [show s.validateLength.content = s.content from rfl, hget]
  rfl

theorem Reached.readText_inside (h : Reached s) {p : Int} (low : 0 ≤ p) (high : p ≤ s.getLength)
    (inside : p ≤ s.getText.length) (next : Text → TextInputControl → Outcome Exn TextInputControl) :
    s.readText p p next = next [] s.validateLength := by
  rw [readText_empty low high, h.get_inside low inside]

theorem Reached.replaceContent_empty (h : Reached s) {p : Int} (low : 0 ≤ p) (inside : p ≤ s.getText.length)
    (anchor caret : Int) (next : Int → TextInputControl → Outcome Exn TextInputControl) :
    s.replaceContent p p [] anchor caret next = next 0 (s.validateLength.doSelectRange anchor caret) := by
  unfold TextInputControl.replaceContent
  dsimp only
  rw [if_neg (by simp), if_neg (by simp), Outcome.bind_done, h.validateLength.insert_empty low inside,
    Outcome.bind_done]
  have hlength : s.validateLength.getLength = s.getLength := rfl
  simp only [hlength, List.length_nil, Int.sub_self, Nat.cast_zero, Int.sub_zero]
  rfl

theorem selectRange_inside (h : Reached s) (anchor caret : Int)
    (inside : clamp 0 caret s.getLength ≤ s.getText.length) :
    ∃ m : TextInputControl, m.history = s.history ∧ m.createNewUndoRecord = s.createNewUndoRecord ∧
      s.selectRange anchor caret = m.withRecord fun _ _ =>
        m.recordChange (decide (s.anchor ≠ s.caretPosition)) false (clamp 0 caret s.getLength)
          (clamp 0 caret s.getLength) [] [] [] := by
  obtain ⟨low, high⟩ := @clamp_bounds caret s.getLength h.getLength_nonneg
  unfold selectRange updateContent
  dsimp only
  generalize clamp 0 caret s.getLength = p at *
  generalize clamp 0 anchor s.getLength = a
  have hm := h.validateLength.doSelectRange a p
  refine ⟨s.validateLength.doSelectRange a p, rfl, rfl, ?_⟩
  rw [h.validateLength.readText_inside low high inside,
    h.validateLength.validateLength.replaceContent_empty low inside]
  simp only [List.length_nil, Nat.cast_zero, Int.add_zero, Int.sub_zero]
  congr 1
  funext id record
  exact hm.readText_inside low high inside _

theorem recordChange_empty {m : TextInputControl} (head : 0 < m.changes.length) {id : Nat} {r : UndoRedoChange}
    (hid : m.undoChange = some id) (hr : m.changes[id]? = some r) (nonEmpty : Bool) (p : Int) :
    (m.recordChange nonEmpty false p p [] [] []).state.history
      = if m.needsRecord nonEmpty false (endOfUndoChange id r) p p then m.history.mark id r p
        else { m.history with undoable := decide (id ≠ undoChangeHead), redoable := r.next.isSome } := by
  have hin : id < m.changes.length := (List.getElem?_eq_some_iff.mp hr).1
  unfold TextInputControl.recordChange
  rw [withRecord_eq hid hr]
  by_cases needs : m.needsRecord nonEmpty false (endOfUndoChange id r) p p
  · have hget : (m.add id r p [] []).changes[m.changes.length]? = some ⟨p, [], [], some id, none⟩ := by
      show (m.changes.set id _ ++ [_])[m.changes.length]? = _
      rw [List.getElem?_append_right (by simp)]
      simp
    have hhead : m.changes.length ≠ undoChangeHead := by
      show m.changes.length ≠ 0
      omega
    rw [if_pos needs, if_pos needs, Outcome.bind_done, updateUndoRedoState_eq rfl hget]
    simp [history, History.mark, add, hhead]
  · have hsame : m.setRecord id { r with newText := r.newText ++ [] } = m := by
      have hrecord : m.changes[id] = r := (List.getElem?_eq_some_iff.mp hr).2
      have hset : m.changes.set id { r with newText := r.newText ++ [] } = m.changes := by
        rw [List.append_nil, show ({ r with newText := r.newText } : UndoRedoChange) = m.changes[id] from hrecord.symm]
        exact List.set_getElem_self hin
      unfold setRecord
      rw [hset]
    rw [if_neg needs, if_neg needs, if_neg (by simp), Outcome.bind_done, hsame, updateUndoRedoState_eq hid hr]
    rfl

theorem needsRecord_empty_iff {m : TextInputControl} {nonEmpty : Bool} {last p : Int} (hp : 0 ≤ p) :
    ¬ m.needsRecord nonEmpty false last p p ↔ m.createNewUndoRecord = false ∧ nonEmpty = false ∧ last = p := by
  unfold needsRecord
  constructor
  · intro hneeds
    push Not at hneeds
    obtain ⟨hcreate, hempty, -, -, hlast, -⟩ := hneeds
    refine ⟨by simpa using hcreate, by simpa using hempty, ?_⟩
    by_contra other
    exact other (hlast other)
  · rintro ⟨hcreate, hempty, rfl⟩
    simp [hcreate, hempty]
    omega

theorem Reached.at_of_not_redoable (h : Reached s) {id : Nat} {r : UndoRedoChange} (hid : s.undoChange = some id)
    (hr : s.changes[id]? = some r) (hredoable : s.redoable = false) : History.At s.history id r := by
  rcases h.flags with hflag | ⟨id', r', hid', hr', hundoable, hredo⟩
  · rw [hredoable] at hflag
    cases hflag
  · rw [hid] at hid'
    cases hid'
    rw [hr] at hr'
    cases hr'
    exact ⟨hid, hr, hundoable, hredo⟩

theorem undisturbed_mark_iff (h : Reached s) {s' : TextInputControl} {id : Nat} {r : UndoRedoChange} {p : Int}
    (hid : s.undoChange = some id) (hr : s.changes[id]? = some r) (hs' : s'.history = s.history.mark id r p) :
    Undisturbed s s' ↔ NothingToSee s := by
  have hconstant : NothingToSee s ↔ s.undoable = true ∧ s.redoable = false ∧
      ∀ moves, (Outcome.run History.step moves s.history).state.text = s.history.text := by
    simp only [NothingToSee, textAfter_history]
    rfl
  rw [undisturbed_iff, hs', hconstant]
  by_cases hflags : s.undoable = true ∧ s.redoable = false
  · have hat := h.at_of_not_redoable hid hr hflags.2
    have hlast : r.next = none := by
      have := hat.redoable
      rw [show s.history.redoable = s.redoable from rfl, hflags.2] at this
      simpa using this.symm
    have hhead : id ≠ undoChangeHead := by
      have := hat.undoable
      rw [show s.history.undoable = s.undoable from rfl, hflags.1] at this
      simpa using this.symm
    have hmark := @History.mark_undisturbed_iff id r p s.history h.linked hat hlast hhead
    constructor
    · rintro ⟨-, -, -, hmoves⟩
      exact ⟨hflags.1, hflags.2, hmark.mp hmoves⟩
    · rintro ⟨-, -, hmoves⟩
      exact ⟨rfl, hflags.1.symm, hflags.2.symm, hmark.mpr hmoves⟩
  · constructor
    · rintro ⟨-, hundoable, hredoable, -⟩
      exact absurd ⟨hundoable.symm, hredoable.symm⟩ hflags
    · rintro ⟨hundoable, hredoable, -⟩
      exact absurd ⟨hundoable, hredoable⟩ hflags

theorem undisturbed_flags_iff {s' : TextInputControl} {id : Nat} {r : UndoRedoChange}
    (hs' : s'.history = { s.history with undoable := decide (id ≠ undoChangeHead), redoable := r.next.isSome }) :
    Undisturbed s s' ↔ s.undoable = decide (id ≠ undoChangeHead) ∧ s.redoable = r.next.isSome := by
  constructor
  · intro undisturbed
    obtain ⟨-, hundoable, hredoable, -⟩ := undisturbed_iff.mp undisturbed
    rw [hs'] at hundoable hredoable
    exact ⟨hundoable.symm, hredoable.symm⟩
  · rintro ⟨hundoable, hredoable⟩
    apply undisturbed_of_history
    rw [hs', ← hundoable, ← hredoable]
    rfl

theorem selectRange_undisturbed_iff (h : Reached s) (anchor caret : Int) :
    Undisturbed s (s.selectRange anchor caret).state ↔
      Throws s (clamp 0 caret s.getLength) ∨ AtRecordEnd s (clamp 0 caret s.getLength) ∨ NothingToSee s := by
  have hp := (@clamp_bounds caret s.getLength h.getLength_nonneg).1
  by_cases beyond : (s.getText.length : Int) < clamp 0 caret s.getLength
  · obtain ⟨x, hthrown⟩ := selectRange_beyond h anchor caret beyond
    rw [hthrown]
    exact iff_of_true (undisturbed_of_history rfl) (Or.inl (Or.inl beyond))
  obtain ⟨m, hm, hcreate, hcall⟩ := selectRange_inside h anchor caret (by omega)
  have hundo : m.undoChange = s.undoChange := congrArg History.undoChange hm
  have hchanges : m.changes = s.changes := congrArg History.changes hm
  generalize clamp 0 caret s.getLength = p at *
  cases hid : s.undoChange with
  | none =>
    rw [hcall, withRecord, hundo, hid]
    exact iff_of_true (undisturbed_of_history hm) (Or.inl (Or.inr hid))
  | some id =>
    obtain ⟨r, hr⟩ : ∃ r, s.changes[id]? = some r := ⟨_, List.getElem?_eq_getElem (h.current id hid)⟩
    have hr' : m.changes[id]? = some r := by rw [hchanges]; exact hr
    have hthrows : ¬ Throws s p := by
      rintro (hlong | hnull)
      · exact beyond hlong
      · rw [hid] at hnull
        cases hnull
    have hhistory := recordChange_empty (by rw [hchanges]; exact h.linked.head) (hundo.trans hid) hr'
      (decide (s.anchor ≠ s.caretPosition)) p
    rw [hm] at hhistory
    rw [hcall, withRecord_eq (hundo.trans hid) hr']
    by_cases needs : m.needsRecord (decide (s.anchor ≠ s.caretPosition)) false (endOfUndoChange id r) p p
    · rw [if_pos needs] at hhistory
      rw [undisturbed_mark_iff h hid hr hhistory]
      constructor
      · intro hnothing
        exact Or.inr (Or.inr hnothing)
      · rintro (hthrow | ⟨hnew, hselection, id', r', hid', hne, hget, -, -, hend⟩ | hnothing)
        · exact absurd hthrow hthrows
        · rw [hid] at hid'
          cases hid'
          rw [hr] at hget
          cases hget
          refine absurd needs ((needsRecord_empty_iff hp).mpr ⟨hcreate.trans hnew, by simp [hselection], ?_⟩)
          rw [endOfUndoChange, if_neg hne, hend]
        · exact hnothing
    · rw [if_neg needs] at hhistory
      rw [undisturbed_flags_iff hhistory]
      obtain ⟨hnew, hselection, hend⟩ := (needsRecord_empty_iff hp).mp needs
      have hne : id ≠ undoChangeHead := by
        intro hhead
        rw [endOfUndoChange, if_pos hhead] at hend
        omega
      rw [endOfUndoChange, if_neg hne] at hend
      constructor
      · rintro ⟨hundoable, hredoable⟩
        refine Or.inr (Or.inl ⟨hcreate.symm.trans hnew, by simpa using hselection, id, r, hid, hne, hr, ?_, hredoable,
          hend⟩)
        rw [hundoable]
        simpa using hne
      · rintro (hthrow | ⟨-, -, id', r', hid', hne', hget, hundoable, hredoable, -⟩ | hnothing)
        · exact absurd hthrow hthrows
        · rw [hid] at hid'
          cases hid'
          rw [hr] at hget
          cases hget
          refine ⟨?_, hredoable⟩
          rw [hundoable]
          simpa using hne
        · have hat := h.at_of_not_redoable hid hr hnothing.2.1
          exact ⟨hat.undoable, hat.redoable⟩

end Select

/-! ## The contract -/

theorem select_undisturbed_iff {s : TextInputControl} (h : Reached s) (call : SelectCall) :
    Undisturbed s (s.select call).state ↔ Harmless s call := by
  have hrange : ∀ anchor caret, Undisturbed s (s.validateLength.selectRange anchor caret).state ↔
      Throws s (clamp 0 caret s.getLength) ∨ AtRecordEnd s (clamp 0 caret s.getLength) ∨ NothingToSee s :=
    fun anchor caret => selectRange_undisturbed_iff h anchor caret
  have htarget : ∀ caret, s.target call = some caret → (Harmless s call ↔
      Throws s (clamp 0 caret s.getLength) ∨ AtRecordEnd s (clamp 0 caret s.getLength) ∨ NothingToSee s) := by
    intro caret ht
    unfold Harmless
    rw [ht]
    simp
  cases call with
  | selectRange anchor caret => exact (selectRange_undisturbed_iff h anchor caret).trans (htarget caret rfl).symm
  | positionCaret pos =>
    obtain ⟨low, high⟩ := @clamp_bounds pos s.getLength h.getLength_nonneg
    have hcall := hrange (clamp 0 pos s.getLength) (clamp 0 pos s.getLength)
    rw [clamp_of_bounds low high] at hcall
    exact hcall.trans (htarget pos rfl).symm
  | deselect => exact (selectRange_undisturbed_iff h _ _).trans (htarget _ rfl).symm
  | selectAll => exact (hrange 0 s.getLength).trans (htarget _ rfl).symm
  | home => exact (selectRange_undisturbed_iff h 0 0).trans (htarget 0 rfl).symm
  | end_ =>
    by_cases some : s.getLength > 0
    · have hselect : s.select .end_ = s.validateLength.selectRange s.getLength s.getLength := if_pos some
      rw [hselect]
      exact (hrange s.getLength s.getLength).trans (htarget _ (if_pos some)).symm
    · have hselect : s.select .end_ = .done s.validateLength := if_neg some
      rw [hselect]
      refine iff_of_true (undisturbed_of_history rfl) fun caret hcaret => ?_
      rw [show s.target .end_ = none from if_neg some] at hcaret
      cases hcaret

/-- In every state that calls reach, of a text field or a text area, a selection
leaves the undo history alone exactly when it is harmless. -/
theorem selection_leaves_history_iff (isArea : Bool) (calls : List Call) (call : SelectCall) :
    Undisturbed (exec TextInputControl.call calls (create (emptyContent isArea)))
        ((exec TextInputControl.call calls (create (emptyContent isArea))).select call).state ↔
      Harmless (exec TextInputControl.call calls (create (emptyContent isArea))) call :=
  select_undisturbed_iff ((reached_create isArea).run calls) call

/-- A text field where `a` was typed and undone. -/
def typedAndUndone : TextInputControl :=
  exec TextInputControl.call [.replaceText 0 0 [97], .undo] (create (emptyContent false))

/-- `home()` makes it undoable, cuts the redo chain and `redo` does not bring the
text back. -/
theorem home_cuts_redo :
    (typedAndUndone.undoable = false ∧ typedAndUndone.redoable = true ∧ typedAndUndone.textAfter [.redo] = [97]) ∧
    (typedAndUndone.home.state.undoable = true ∧ typedAndUndone.home.state.redoable = false ∧
      typedAndUndone.home.state.textAfter [.redo] = []) ∧
    ¬ Undisturbed typedAndUndone (typedAndUndone.select .home).state := by
  refine ⟨by decide +kernel, by decide +kernel, ?_⟩
  rintro ⟨-, hundoable, -, -⟩
  exact absurd hundoable (by decide +kernel)

end TextInputControl
end OpenJfx.Controls
