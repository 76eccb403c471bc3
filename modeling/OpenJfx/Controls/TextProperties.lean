import OpenJfx.Controls.UndoRuns

/-! # The properties of the text through edits

Length, anchor, caret and the notifications of the text property after every
call, in runs of `setText`, `replaceText`, `undo` and `redo`. -/
set_option autoImplicit false
namespace OpenJfx.Controls

open OpenJfx.Lib

namespace TextInputControl

inductive TextCall where
  | setText (value : Text)
  | edit (e : EditCall)
deriving DecidableEq, Repr

def TextCall.perform : TextCall → TextInputControl → Outcome Exn TextInputControl
  | .setText value => TextInputControl.setText value
  | .edit e => e.perform

def textCall (c : TextCall) (s : TextInputControl) : TextInputControl := (c.perform s).state

/-- Ranges are legal, edits are good, and a text is not replaced by one of which
the filter leaves nothing. -/
def GoodCall : TextCall → TextInputControl → Prop
  | .setText value, s => s.getText ≠ [] → value ≠ [] → s.content.filter value ≠ []
  | .edit (.replaceText start stop text), s => s.Legal start stop ∧ s.GoodEdit start stop text
  | .edit .undo, _ => True
  | .edit .redo, _ => True

instance : ∀ (c : TextCall) (s : TextInputControl), Decidable (GoodCall c s)
  | .setText value, s => inferInstanceAs (Decidable (s.getText ≠ [] → value ≠ [] → s.content.filter value ≠ []))
  | .edit (.replaceText start stop text), s =>
      inferInstanceAs (Decidable (s.Legal start stop ∧ s.GoodEdit start stop text))
  | .edit .undo, _ => isTrue trivial
  | .edit .redo, _ => isTrue trivial

def newText (s : TextInputControl) : TextCall → Option Text
  | .setText value => some (s.content.filter value)
  | .edit (.replaceText start stop text) =>
      some (s.getText.take start.toNat ++ s.content.filter text ++ s.getText.drop stop.toNat)
  | .edit _ => none

/-- The call returns; then the length is that of the text, anchor and caret are
inside it, the text is the one asked for, and a different text was told. -/
structure ConsistentAfter (s : TextInputControl) (c : TextCall) (s' : TextInputControl) : Prop where
  returns : c.perform s = .done s'
  length : s'.getLength = s'.getText.length
  anchor : 0 ≤ s'.anchor ∧ s'.anchor ≤ s'.getLength
  caret : 0 ≤ s'.caretPosition ∧ s'.caretPosition ≤ s'.getLength
  text : ∀ t ∈ s.newText c, s'.getText = t
  told : s'.getText ≠ s.getText → s.notified < s'.notified

section Consistent
variable {accepts : Nat → Bool} {base : Text} {s s' : TextInputControl} {depth id : Nat}

theorem After.consistent {t : Text} {c : TextCall} (after : After s s' t) (returns : c.perform s = .done s')
    (inRange : InRange s') (text : ∀ u ∈ s.newText c, t = u) : ConsistentAfter s c s' := by
  have hlength := after.accurate.getLength
  refine ⟨returns, hlength, ?_, ?_, ?_, ?_⟩
  · rw [hlength]; exact inRange.anchor
  · rw [hlength]; exact inRange.caret
  · rw [after.getText]; exact text
  · rw [after.getText]; exact after.told

theorem Standing.setText (h : Standing accepts base s depth id) {value : Text}
    (good : s.getText ≠ [] → value ≠ [] → s.content.filter value ≠ []) :
    ∃ s', s.setText value = .done s' ∧ After s s' (s.content.filter value) ∧ InRange s' := by
  have hlength := h.holds.length
  obtain ⟨r, at_⟩ := h.flags
  have told : s.getText ≠ [] → value = [] ∨ s.content.filter value ≠ [] := by
    intro some
    by_cases hempty : value = []
    · exact Or.inl hempty
    · exact Or.inr (good some hempty)
  obtain ⟨s₁, edited, hcall⟩ := @replaceContent_spec s h.holds h.accurate [] s.getText [] value (by simp) 0
    s.content.length rfl (by rw [hlength]; simp) told 0 0 (fun _ s => s.resetUndoRedoState)
  rw [List.nil_append, List.append_nil] at edited
  generalize (0 : Int) - (value.length - (s.content.filter value).length) = a at hcall
  have head : 0 < s₁.changes.length := by
    rw [edited.changes]
    exact Nat.zero_lt_of_lt (List.getElem?_eq_some_iff.mp at_.record).1
  obtain ⟨m, hreset, same, -⟩ := @resetUndoRedoState_spec (s₁.doSelectRange a a) head accepts []
  have after : After s m (s.content.filter value) :=
    edited.after a a same.content same.length same.create same.notified
  have inRange := edited.inRange a a same.content same.anchor same.caret
  refine ⟨m.markInvalid, ?_, ⟨after.holds, after.filter, fun n hn => (nomatch hn), after.create, ?_⟩,
    ⟨inRange.anchor, inRange.caret⟩⟩
  · unfold TextInputControl.setText
    rw [hcall, hreset]
    rfl
  · intro changed
    have := after.told changed
    show s.notified < m.notified + 1
    omega

theorem Standing.textCall (h : Standing accepts base s depth id) (inRange : InRange s) {c : TextCall}
    (good : GoodCall c s) :
    ∃ s', ConsistentAfter s c s' ∧ InRange s' ∧ ∃ accepts base depth id, Standing accepts base s' depth id := by
  obtain ⟨r, at_⟩ := h.flags
  cases c with
  | setText value =>
    obtain ⟨s', hset, after, inRange'⟩ := h.setText good
    have head : 0 < s.changes.length := Nat.zero_lt_of_lt (List.getElem?_eq_some_iff.mp at_.record).1
    obtain ⟨s'', depth', id', hset', -, standing⟩ := setText_spec h.holds head value
    rw [hset] at hset'
    cases hset'
    refine ⟨s', after.consistent hset inRange' ?_, inRange', _, _, depth', id', standing⟩
    intro u hu
    exact Option.some.inj hu
  | edit e =>
    cases e with
    | replaceText start stop text =>
      obtain ⟨s', hcall, after, inRange', depth', id', standing⟩ := h.replaceText good.1 good.2
      refine ⟨s', after.consistent hcall inRange' ?_, inRange', _, _, depth', id', standing⟩
      intro u hu
      exact Option.some.inj hu
    | undo =>
      cases depth with
      | zero =>
        have same : After s s s.getText :=
          ⟨h.holds, fun _ => rfl, h.accurate, rfl, fun other => absurd rfl other⟩
        exact ⟨s, same.consistent h.undo_head.1 inRange fun u hu => (nomatch hu), inRange, _, _, 0, id, h⟩
      | succ depth =>
        obtain ⟨s', p, hundo, after, inRange', standing, -⟩ := h.undo
        exact ⟨s', after.consistent hundo inRange' fun u hu => (nomatch hu), inRange', _, _, depth, p, standing⟩
    | redo =>
      obtain ⟨s', hredo, after, hrange, depth', id', standing⟩ := h.redo
      exact ⟨s', after.consistent hredo (hrange inRange) fun u hu => (nomatch hu), hrange inRange, _, _, depth', id',
        standing⟩

end Consistent

theorem standing_create (isArea : Bool) :
    Standing (emptyContent isArea).accepts [] (create (emptyContent isArea)).validateLength 0 undoChangeHead ∧
      InRange (create (emptyContent isArea)).validateLength := by
  have reached := (reached_create isArea).validateLength
  have htext : (create (emptyContent isArea)).validateLength.getText = [] := by cases isArea <;> rfl
  refine ⟨⟨reached.holds, Content.filter_eq _, ?_, ?_, ⟨_, rfl, rfl, rfl, rfl⟩, ?_, .last rfl rfl⟩, ?_⟩
  · rw [htext]
    exact fun _ hc => (nomatch hc)
  · intro n hn
    exact (Option.some.inj hn).symm
  · rw [htext]
    exact .head
  · constructor
    · rw [htext]
      exact ⟨le_rfl, le_rfl⟩
    · rw [htext]
      exact ⟨le_rfl, le_rfl⟩

theorem run_consistent {s : TextInputControl} (h : ∃ accepts base depth id, Standing accepts base s depth id)
    (inRange : InRange s) (calls : List TextCall) (last : TextCall)
    (good : Guarded GoodCall textCall (calls ++ [last]) s) :
    ∃ s', ConsistentAfter (exec textCall calls s) last s' := by
  induction calls generalizing s with
  | nil =>
    obtain ⟨accepts, base, depth, id, standing⟩ := h
    obtain ⟨s', consistent, -⟩ := standing.textCall inRange good.1
    exact ⟨s', consistent⟩
  | cons c rest ih =>
    obtain ⟨accepts, base, depth, id, standing⟩ := h
    obtain ⟨s', consistent, inRange', standing'⟩ := standing.textCall inRange good.1
    have hstep : textCall c s = s' := by
      show (c.perform s).state = s'
      rw [consistent.returns]
      rfl
    have hrest := good.2
    rw [hstep] at hrest
    show ∃ s'', ConsistentAfter (exec textCall rest (textCall c s)) last s''
    rw [hstep]
    exact ih standing' inRange' hrest

/-- In every run of `setText`, legal `replaceText`, `undo` and `redo` whose calls
are good, of a control whose length has been read, every call returns and leaves
the properties of the text consistent. -/
theorem good_run_consistent (isArea : Bool) (calls : List TextCall) (last : TextCall)
    (good : Guarded GoodCall textCall (calls ++ [last]) (create (emptyContent isArea)).validateLength) :
    ∃ s', ConsistentAfter (exec textCall calls (create (emptyContent isArea)).validateLength) last s' := by
  obtain ⟨standing, inRange⟩ := standing_create isArea
  exact run_consistent ⟨_, _, _, _, standing⟩ inRange calls last good

/-- A text with a tab and a newline goes into a text field, and a range of it is
replaced by one that loses a character. -/
theorem good_run_consistent_filtered :
    ∃ s', ConsistentAfter (exec textCall [.setText [97, 9, 98, 10, 99], .edit (.replaceText 0 1 [120]), .edit .undo]
        (create (emptyContent false)).validateLength) (.edit (.replaceText 1 3 [121, 9])) s' :=
  good_run_consistent false [.setText [97, 9, 98, 10, 99], .edit (.replaceText 0 1 [120]), .edit .undo]
    (.edit (.replaceText 1 3 [121, 9])) (by decide +kernel)

/-- A text field with the text `ab`, its length read. -/
def fieldAb : TextInputControl := textCall (.setText [97, 98]) (create (emptyContent false)).validateLength

/-- A tab in place of the `b`: the filter leaves nothing of it, the deletion was
not told, the length stays 2 and the call throws. -/
theorem filtered_replacement_not_told :
    fieldAb.Legal 1 2 ∧
      (textCall (.edit (.replaceText 1 2 [9])) fieldAb).getText = [97] ∧
      (textCall (.edit (.replaceText 1 2 [9])) fieldAb).getLength = 2 ∧
      (textCall (.edit (.replaceText 1 2 [9])) fieldAb).notified = fieldAb.notified ∧
      ¬ ∃ s', ConsistentAfter fieldAb (.edit (.replaceText 1 2 [9])) s' := by
  refine ⟨by decide +kernel, by decide +kernel, by decide +kernel, by decide +kernel, ?_⟩
  intro h
  obtain ⟨s', consistent⟩ := h
  have hstate : textCall (.edit (.replaceText 1 2 [9])) fieldAb = s' := by
    show ((TextCall.edit (.replaceText 1 2 [9])).perform fieldAb).state = s'
    rw [consistent.returns]
    rfl
  have hlength := consistent.length
  rw [← hstate] at hlength
  exact absurd hlength (by decide +kernel)

end TextInputControl
end OpenJfx.Controls
