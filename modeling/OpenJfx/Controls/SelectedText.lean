import Mathlib
import OpenJfx.Controls.TextEdit

/-! # The selected text

The binding of the selected text reads the text and the selection, which an edit
changes one after the other: between the two the binding sees the new text with
the old selection.  When that works, and when the binding shows the selected
range after the edit. -/
set_option autoImplicit false
namespace OpenJfx.Controls

open OpenJfx.Lib

structure IndexRange where
  start : Int
  stop : Int
deriving DecidableEq, Repr

namespace IndexRange

def normalize (v1 v2 : Int) : IndexRange := ⟨min v1 v2, max v1 v2⟩

def clip (r : IndexRange) (text : Text) : Text := (text.take r.stop.toNat).drop r.start.toNat

/-- The bounds of a range are no negative `int` values. -/
structure Small (r : IndexRange) : Prop where
  low : 0 ≤ r.start
  order : r.start ≤ r.stop
  high : r.stop < 2 ^ 31

/-- The range begins behind a text of the length, or ends in it, or is longer
than the text and then ends so far behind it that the binding notices; where
the sum of its start and the length is no `int`, the range has to reach the
end of the text. -/
def Clips (r : IndexRange) (length : Int) : Prop :=
  length ≤ r.start ∨ if r.start + length < 2 ^ 31 then r.stop ≤ length ∨ r.start + length < r.stop else length ≤ r.stop

instance (r : IndexRange) (length : Int) : Decidable (r.Clips length) := inferInstanceAs (Decidable (_ ∨ _))

/-- The range lies in a text of the length, and the sum of its start and the
length is an `int` unless the range reaches the end. -/
def Settles (r : IndexRange) (length : Int) : Prop :=
  r.stop ≤ length ∧ (r.start + length < 2 ^ 31 ∨ r.stop = length)

instance (r : IndexRange) (length : Int) : Decidable (r.Settles length) := inferInstanceAs (Decidable (_ ∧ _))

end IndexRange

/-- `computeValue` of the binding of the selected text; `substring` is
`subSequence`. -/
def selectedTextValue (txt : Option Text) (sel : Option IndexRange) : Except Exn Text :=
  match txt, sel with
  | some txt, some sel =>
      let length : Int := txt.length
      let stop := if sel.stop > wrapInt (sel.start + length) then length else sel.stop
      if sel.start > length - 1 then StringBuilder.subSequence txt 0 0 else StringBuilder.subSequence txt sel.start stop
  | _, _ => .ok []

/-! ## The binding on a text and a range -/

section Value
variable {text : Text} {r : IndexRange}

theorem wrapInt_sum_neg {a b : Int} (ha : a < 2 ^ 31) (hb : b < 2 ^ 31) (h : 2 ^ 31 ≤ a + b) : wrapInt (a + b) < 0 := by
  unfold wrapInt
  rw [Int.bmod_def]
  have hmod : (a + b) % ((2 ^ 32 : Nat) : Int) = a + b := Int.emod_eq_of_lt (by omega) (by omega)
  rw [hmod]
  split <;> omega

theorem subSequence_ok (low : 0 ≤ r.start) (order : r.start ≤ r.stop) (inside : r.stop ≤ text.length) :
    StringBuilder.subSequence text r.start r.stop = .ok (r.clip text) := by
  unfold StringBuilder.subSequence
  rw [if_neg (by omega)]
  rfl

theorem selectedTextValue_behind (behind : (text.length : Int) ≤ r.start) :
    selectedTextValue (some text) (some r) = .ok [] := by
  unfold selectedTextValue
  dsimp only
  rw [if_pos (by omega), StringBuilder.subSequence, if_neg (by omega)]
  rfl

theorem selectedTextValue_rest (low : 0 ≤ r.start) (before : r.start < text.length)
    (beyond : wrapInt (r.start + text.length) < r.stop) :
    selectedTextValue (some text) (some r) = .ok (text.drop r.start.toNat) := by
  unfold selectedTextValue
  dsimp only
  rw [if_neg (by omega), if_pos beyond, StringBuilder.subSequence, if_neg (by omega), Int.toNat_natCast,
    List.take_length]

theorem selectedTextValue_range (before : r.start < text.length) (inside : r.stop ≤ wrapInt (r.start + text.length)) :
    selectedTextValue (some text) (some r) = StringBuilder.subSequence text r.start r.stop := by
  unfold selectedTextValue
  dsimp only
  rw [if_neg (by omega), if_neg (by omega)]

theorem clip_behind (behind : (text.length : Int) ≤ r.start) : r.clip text = [] := by
  unfold IndexRange.clip
  apply List.drop_eq_nil_of_le
  have := List.length_take_le r.stop.toNat text
  have : text.length ≤ r.start.toNat := by omega
  have : (text.take r.stop.toNat).length ≤ text.length := List.length_take_le' _ _
  omega

theorem clip_eq_drop_iff (low : 0 ≤ r.start) (order : r.start ≤ r.stop) (before : r.start < text.length) :
    r.clip text = text.drop r.start.toNat ↔ (text.length : Int) ≤ r.stop := by
  unfold IndexRange.clip
  constructor
  · intro same
    have hlength := congrArg List.length same
    simp only [List.length_drop, List.length_take] at hlength
    omega
  · intro reaches
    rw [List.take_of_length_le (by omega)]

theorem selectedTextValue_clips_iff (small : r.Small) (hlength : (text.length : Int) < 2 ^ 31) :
    selectedTextValue (some text) (some r) = .ok (r.clip text) ↔ r.Clips text.length := by
  obtain ⟨low, order, high⟩ := small
  unfold IndexRange.Clips
  by_cases behind : (text.length : Int) ≤ r.start
  · rw [selectedTextValue_behind behind, clip_behind behind]
    exact iff_of_true rfl (Or.inl behind)
  have before : r.start < text.length := by omega
  rw [or_iff_right behind]
  by_cases fits : r.start + text.length < 2 ^ 31
  · have hsum := wrapInt_of_lt (show 0 ≤ r.start + text.length by omega) fits
    rw [if_pos fits]
    by_cases beyond : r.start + text.length < r.stop
    · rw [selectedTextValue_rest low before (by rw [hsum]; exact beyond),
        (clip_eq_drop_iff low order before).mpr (by omega)]
      exact iff_of_true rfl (Or.inr beyond)
    · rw [selectedTextValue_range before (by rw [hsum]; omega), or_iff_left beyond]
      by_cases inside : r.stop ≤ text.length
      · exact iff_of_true (subSequence_ok low order inside) inside
      · refine iff_of_false ?_ inside
        rw [StringBuilder.subSequence, if_pos (by omega)]
        intro h
        cases h
  · have hsum := wrapInt_sum_neg (by omega) hlength (Int.not_lt.mp fits)
    rw [if_neg fits, selectedTextValue_rest low before (by omega), Except.ok.injEq, eq_comm,
      clip_eq_drop_iff low order before]

theorem selectedTextValue_settles_iff (small : r.Small) (hlength : (text.length : Int) < 2 ^ 31) :
    (∃ t, StringBuilder.subSequence text r.start r.stop = .ok t ∧ selectedTextValue (some text) (some r) = .ok t) ↔
      r.Settles text.length := by
  unfold IndexRange.Settles
  by_cases inside : r.stop ≤ text.length
  · have hread := subSequence_ok small.low small.order inside
    have hclips := selectedTextValue_clips_iff small hlength
    have hsettles : r.Clips text.length ↔ r.start + text.length < 2 ^ 31 ∨ r.stop = text.length := by
      have := small.order
      unfold IndexRange.Clips
      by_cases fits : r.start + text.length < 2 ^ 31
      · rw [if_pos fits]
        omega
      · rw [if_neg fits]
        omega
    rw [← hsettles, ← hclips, hread]
    constructor
    · rintro ⟨t, ht, hshown⟩
      cases ht
      exact ⟨inside, hshown⟩
    · rintro ⟨-, hshown⟩
      exact ⟨_, rfl, hshown⟩
  · refine iff_of_false ?_ fun h => inside h.1
    rintro ⟨t, ht, -⟩
    rw [StringBuilder.subSequence, if_pos (by omega)] at ht
    cases ht

end Value

/-! ## Edits -/

/-- A change of the content and the selection that is set behind it: a call of
the private `replaceText` (`replaces`), which every change but `undo` and `redo`
goes through, or what these two do with a record. -/
structure ContentEdit where
  start : Int
  stop : Int
  value : Text
  anchor : Int
  caretPosition : Int
  replaces : Bool
deriving DecidableEq, Repr

def Content.isField : Content → Bool
  | .field _ => true
  | .area _ => false

/-- The calls that edit; `replaceText` is the private one. -/
inductive ContentCall where
  | replaceText (start stop : Int) (value : Text) (anchor caretPosition : Int)
  | undo
  | redo
deriving DecidableEq, Repr

namespace TextInputControl

def selection (s : TextInputControl) : IndexRange := .normalize s.anchor s.caretPosition

def selectedText (s : TextInputControl) : Except Exn Text := selectedTextValue (some s.getText) (some s.selection)

/-- The state `s'` after a change of the content, if the listeners were told:
that is the last thing a change does. -/
def toldBy (s s' : TextInputControl) : List TextInputControl := if s.notified < s'.notified then [s'] else []

def editContent (s : TextInputControl) : ContentCall → Outcome Exn TextInputControl
  | .replaceText start stop value anchor caretPosition =>
      s.replaceContent start stop value anchor caretPosition fun _ s => .done s
  | .undo => s.undo
  | .redo => s.redo

/-- What a call does with the content and the selection. -/
inductive Edits (s : TextInputControl) : ContentCall → ContentEdit → Prop where
  | replaceText (start stop : Int) (value : Text) (anchor caretPosition : Int) :
      Edits s (.replaceText start stop value anchor caretPosition) ⟨start, stop, value, anchor, caretPosition, true⟩
  | undo {id : Nat} {r : UndoRedoChange} (undoable : s.undoable = true) (current : s.undoChange = some id)
      (record : s.changes[id]? = some r) (behind : id ≠ undoChangeHead) :
      Edits s .undo ⟨r.start, r.start + r.newText.length, r.oldText, r.start, r.start + r.oldText.length, false⟩
  | redo {id next : Nat} {r r' : UndoRedoChange} (redoable : s.redoable = true) (current : s.undoChange = some id)
      (record : s.changes[id]? = some r) (hnext : r.next = some next) (record' : s.changes[next]? = some r') :
      Edits s .redo ⟨r'.start, r'.start + r'.oldText.length, r'.newText, r'.start + r'.newText.length,
        r'.start + r'.newText.length, false⟩

end TextInputControl

namespace ContentEdit
open TextInputControl

def perform (e : ContentEdit) (s : TextInputControl) : Outcome Exn TextInputControl :=
  if e.replaces then s.replaceContent e.start e.stop e.value e.anchor e.caretPosition fun _ s => .done s
  else
    (s.delete e.start e.stop e.value.isEmpty).bind fun s =>
    (s.insert e.start e.value true).bind fun s =>
    .done (s.doSelectRange e.anchor e.caretPosition)

def deletion (e : ContentEdit) (s : TextInputControl) : Outcome Exn TextInputControl :=
  if e.replaces then
    if e.stop ≠ e.start then s.validateLength.delete e.start e.stop e.value.isEmpty else .done s.validateLength
  else s.delete e.start e.stop e.value.isEmpty

def changed (e : ContentEdit) (s : TextInputControl) : Outcome Exn TextInputControl :=
  (e.deletion s).bind fun s => s.insert e.start e.value true

def told (e : ContentEdit) (s : TextInputControl) : List TextInputControl :=
  match e.deletion s with
  | .thrown _ _ => []
  | .done s₁ =>
      toldBy s s₁ ++ match s₁.insert e.start e.value true with
        | .thrown _ _ => []
        | .done s₂ => toldBy s₁ s₂

/-- What `replaceText` takes off the anchor and the caret, with the length that
the control knows behind the change. -/
def adjustment (e : ContentEdit) (s : TextInputControl) (length : Int) : Int :=
  if e.replaces then
    e.value.length - (length - if e.stop ≠ e.start then s.getLength - (e.stop - e.start) else s.getLength)
  else 0

def asked (e : ContentEdit) (s : TextInputControl) (length : Int) : IndexRange :=
  .normalize (clamp 0 (e.anchor - e.adjustment s length) length) (clamp 0 (e.caretPosition - e.adjustment s length) length)

/-- Whenever the content tells its change, the binding shows the old selection
as far as the new text goes; after the call it shows the selected range. -/
structure SelectedTextTotal (c : ContentCall) (e : ContentEdit) (s : TextInputControl) : Prop where
  told : ∀ m ∈ e.told s, m.selectedText = .ok (s.selection.clip m.getText)
  after : ∃ t, StringBuilder.subSequence (s.editContent c).state.getText (s.editContent c).state.selection.start
      (s.editContent c).state.selection.stop = .ok t ∧ (s.editContent c).state.selectedText = .ok t

/-! ## The condition -/

/-- The content takes the edit: its range lies in the text, as `replaceText` is
only called for a range that was read.  For a record, a text field cuts the end
of the range, and it does not look at a range where nothing goes and comes. -/
def Accepted (e : ContentEdit) (s : TextInputControl) : Prop :=
  0 ≤ e.start ∧ e.start ≤ e.stop ∧ (e.stop ≤ s.getText.length ∨
    e.replaces = false ∧ s.content.isField = true ∧
      (e.start ≤ s.getText.length ∨ e.stop = e.start ∧ s.content.filter e.value = []))

instance (e : ContentEdit) (s : TextInputControl) : Decidable (e.Accepted s) := inferInstanceAs (Decidable (_ ∧ _ ∧ _))

def newText (e : ContentEdit) (s : TextInputControl) : Text :=
  s.getText.take e.start.toNat ++ s.content.filter e.value ++ s.getText.drop e.stop.toNat

/-- The listeners are told of an edit: some text comes, or only a deletion was
asked for. -/
def Tells (e : ContentEdit) (s : TextInputControl) : Prop :=
  s.content.filter e.value ≠ [] ∨ (e.value = [] ∧ e.start < e.stop)

instance (e : ContentEdit) (s : TextInputControl) : Decidable (e.Tells s) := inferInstanceAs (Decidable (_ ∨ _))

/-- The length that the control knows behind the change: if it was not told of
it, the one from before, where it was valid or `replaceText` asked for it. -/
def knownLength (e : ContentEdit) (s : TextInputControl) : Int :=
  if e.Tells s then (e.newText s).length
  else if e.replaces then s.getLength else s.length.getD (e.newText s).length

/-- If the listeners are told, the old selection can be cut to the new text, and
the selection asked for fits it in the end. -/
structure Fits (e : ContentEdit) (s : TextInputControl) : Prop where
  told : e.Tells s → s.selection.Clips (e.newText s).length
  after : (e.asked s (e.knownLength s)).Settles (e.newText s).length

/-- Lengths, anchor and caret are `int` values that are not negative. -/
structure IntSized (e : ContentEdit) (s : TextInputControl) : Prop where
  anchor : 0 ≤ s.anchor ∧ s.anchor < 2 ^ 31
  caret : 0 ≤ s.caretPosition ∧ s.caretPosition < 2 ^ 31
  length : 0 ≤ s.getLength ∧ s.getLength < 2 ^ 31
  text : ((e.newText s).length : Int) < 2 ^ 31

instance (e : ContentEdit) (s : TextInputControl) : Decidable (e.Fits s) :=
  decidable_of_iff
    ((e.Tells s → s.selection.Clips (e.newText s).length) ∧ (e.asked s (e.knownLength s)).Settles (e.newText s).length)
    ⟨fun h => ⟨h.1, h.2⟩, fun h => ⟨h.told, h.after⟩⟩

instance (e : ContentEdit) (s : TextInputControl) : Decidable (e.IntSized s) :=
  decidable_of_iff
    ((0 ≤ s.anchor ∧ s.anchor < 2 ^ 31) ∧ (0 ≤ s.caretPosition ∧ s.caretPosition < 2 ^ 31) ∧
      (0 ≤ s.getLength ∧ s.getLength < 2 ^ 31) ∧ ((e.newText s).length : Int) < 2 ^ 31)
    ⟨fun ⟨ha, hc, hl, ht⟩ => ⟨ha, hc, hl, ht⟩, fun h => ⟨h.anchor, h.caret, h.length, h.text⟩⟩

/-! ## The calls as edits -/

section Calls
variable {e : ContentEdit} {s : TextInputControl} {c : ContentCall}

theorem perform_eq (e : ContentEdit) (s : TextInputControl) :
    e.perform s = (e.changed s).bind fun m =>
      .done (m.doSelectRange (e.anchor - e.adjustment s m.getLength)
        (e.caretPosition - e.adjustment s m.getLength)) := by
  obtain ⟨start, stop, value, anchor, caretPosition, replaces⟩ := e
  unfold changed
  rw [Outcome.bind_assoc]
  cases replaces with
  | true => rfl
  | false =>
    show ((s.delete start stop value.isEmpty).bind fun s => (s.insert start value true).bind fun s =>
      .done (s.doSelectRange anchor caretPosition)) = (s.delete start stop value.isEmpty).bind fun s =>
        (s.insert start value true).bind fun s => .done (s.doSelectRange (anchor - 0) (caretPosition - 0))
    rw [Int.sub_zero, Int.sub_zero]

theorem undo_eq_perform {id : Nat} {r : UndoRedoChange} (undoable : s.undoable = true) (hid : s.undoChange = some id)
    (hr : s.changes[id]? = some r) (hne : id ≠ undoChangeHead) :
    s.undo = ((⟨r.start, r.start + r.newText.length, r.oldText, r.start, r.start + r.oldText.length, false⟩ :
      ContentEdit).perform s).bind fun s' => updateUndoRedoState { s' with undoChange := r.prev } := by
  unfold undo
  rw [if_pos undoable, withRecord_eq hid hr, if_neg hne, Outcome.bind_assoc]
  unfold perform
  rw [if_neg (by simp), Outcome.bind_assoc]
  congr 1
  funext s₁
  rw [Outcome.bind_assoc, Outcome.bind_assoc]
  rfl

theorem redo_eq_perform {id next : Nat} {r r' : UndoRedoChange} (redoable : s.redoable = true)
    (hid : s.undoChange = some id) (hr : s.changes[id]? = some r) (hnext : r.next = some next)
    (hr' : s.changes[next]? = some r') :
    s.redo = ((⟨r'.start, r'.start + r'.oldText.length, r'.newText, r'.start + r'.newText.length,
      r'.start + r'.newText.length, false⟩ : ContentEdit).perform { s with undoChange := some next }).bind
        updateUndoRedoState := by
  unfold redo
  rw [if_pos redoable, withRecord_eq hid hr]
  dsimp only
  rw [hnext, @withRecord_eq { s with undoChange := some next } _ _ rfl hr']
  rfl

theorem updateUndoRedoState_kept (s : TextInputControl) : s.updateUndoRedoState.state.getText = s.getText ∧
    s.updateUndoRedoState.state.selection = s.selection ∧ s.updateUndoRedoState.state.notified = s.notified :=
  @withRecord_keeps { s with undoable := decide (s.undoChange ≠ some undoChangeHead) }
    (fun m => m.getText = s.getText ∧ m.selection = s.selection ∧ m.notified = s.notified) _ ⟨rfl, rfl, rfl⟩
    fun _ _ _ _ => ⟨rfl, rfl, rfl⟩

end Calls

/-! ## What an edit leaves -/

section Changes
variable {s s' : TextInputControl} {c : Content} {t value : Text} {start stop : Nat} {notifyListeners : Bool}

/-- A text field cuts the end of the range. -/
theorem delete_accepted (holds : c.Holds t) (order : start ≤ stop)
    (inside : stop ≤ t.length ∨ c.isField = true ∧ start ≤ t.length) :
    ∃ c', c.delete start stop = .ok (c', decide (start < stop)) ∧ c'.Holds (t.take start ++ t.drop stop) ∧
      ∀ x, c'.filter x = c.filter x := by
  rcases inside with inside | ⟨hfield, inside⟩
  · exact holds.delete order inside
  · cases c with
    | area content => cases hfield
    | field characters =>
      have same : characters = t := holds
      subst same
      refine ⟨.field (characters.take start ++ characters.drop stop), ?_, rfl, fun x => rfl⟩
      unfold Content.delete
      dsimp only
      by_cases some : start < stop
      · have hcut : (min (stop : Int) characters.length).toNat = min stop characters.length := by omega
        have hdrop : characters.drop (min stop characters.length) = characters.drop stop := by
          rcases Nat.le_total stop characters.length with hle | hge
          · rw [Nat.min_eq_left hle]
          · rw [Nat.min_eq_right hge, List.drop_length, List.drop_eq_nil_of_le hge]
        rw [if_pos (by omega), StringBuilder.delete, if_neg (by omega), hcut, hdrop]
        simp [some, Except.map]
      · have hnone : start = stop := by omega
        rw [if_neg (by omega)]
        simp [hnone]

theorem toldBy_changed (s : TextInputControl) (c : Content) (told : Bool) :
    toldBy s (if told = true then markInvalid { s with content := c } else { s with content := c })
      = if told = true then [markInvalid { s with content := c }] else [] := by
  unfold toldBy
  cases told with
  | true => exact if_pos (Nat.lt_succ_self s.notified)
  | false => exact if_neg (Nat.lt_irrefl s.notified)

end Changes

section Edit
variable {e : ContentEdit} {s s' m : TextInputControl} {c₁ c₂ : Content}

/-- `replaceText` asks for the length first. -/
def begun (e : ContentEdit) (s : TextInputControl) : TextInputControl := if e.replaces then s.validateLength else s

theorem toldBy_begun (e : ContentEdit) (s m : TextInputControl) : toldBy s m = toldBy (e.begun s) m := by
  unfold begun
  split <;> rfl

theorem filter_nil (c : Content) : c.filter [] = [] := by
  cases c with
  | field characters => rfl
  | area content => rfl

theorem content_accepted (holds : s.content.Holds s.getText) (accepted : e.Accepted s) :
    ∃ c₁ c₂, s.content.delete e.start e.stop = .ok (c₁, decide (e.start < e.stop)) ∧
      c₁.insert e.start e.value = .ok (c₂, decide (s.content.filter e.value ≠ [])) ∧
      c₂.Holds (e.newText s) ∧ (e.stop = e.start → c₁ = s.content) := by
  obtain ⟨low, order, inside⟩ := accepted
  obtain ⟨i, hi⟩ : ∃ i : Nat, e.start = i := ⟨e.start.toNat, by omega⟩
  obtain ⟨j, hj⟩ : ∃ j : Nat, e.stop = j := ⟨e.stop.toNat, by omega⟩
  by_cases within : e.start ≤ s.getText.length
  · have cut : j ≤ s.getText.length ∨ s.content.isField = true ∧ i ≤ s.getText.length := by
      rcases inside with inside | ⟨-, hfield, -⟩
      · exact Or.inl (by omega)
      · exact Or.inr ⟨hfield, by omega⟩
    obtain ⟨c₁, hdelete, holds₁, hfilter₁⟩ := delete_accepted holds (show i ≤ j by omega) cut
    have hleft : (s.getText.take i).length = i := List.length_take_of_le (by omega)
    obtain ⟨c₂, hinsert, holds₂, -⟩ := holds₁.insert (show i ≤ (s.getText.take i ++ s.getText.drop j).length by
      rw [List.length_append, hleft]
      omega) e.value
    rw [List.take_left' hleft, List.drop_left' hleft, hfilter₁] at holds₂
    rw [hfilter₁] at hinsert
    refine ⟨c₁, c₂, ?_, ?_, ?_, ?_⟩
    · rw [hi, hj, hdelete]
      simp
    · rw [hi, hinsert]
    · unfold newText
      rw [hi, hj]
      exact holds₂
    · intro same
      have hsame : j = i := by omega
      rw [hsame] at hdelete
      exact (Content.delete_empty hdelete).1
  · -- nothing goes and comes, behind the text of a text field
    rcases inside with inside | ⟨-, hfield, inside | ⟨same, hnone⟩⟩
    · omega
    · omega
    cases hcontent : s.content with
    | area content =>
      rw [hcontent] at hfield
      cases hfield
    | field characters =>
      rw [hcontent] at hnone
      have hempty : filterInput e.value true true = [] := hnone
      refine ⟨.field characters, .field characters, ?_, ?_, ?_, fun _ => rfl⟩
      · unfold Content.delete
        rw [same]
        simp
      · unfold Content.insert
        dsimp only
        rw [hempty, hnone]
        simp
      · have hnew : e.newText s = s.getText := by
          unfold newText
          rw [hcontent, hnone, same, List.append_nil, List.take_append_drop]
        rw [hnew, ← hcontent]
        exact holds

theorem deletion_accepted (hdelete : s.content.delete e.start e.stop = .ok (c₁, decide (e.start < e.stop)))
    (hsame : e.stop = e.start → c₁ = s.content) :
    e.deletion s = .done (if (decide (e.start < e.stop) && e.value.isEmpty) = true
      then markInvalid { e.begun s with content := c₁ } else { e.begun s with content := c₁ }) := by
  unfold deletion begun
  cases e.replaces with
  | false =>
    simp only [Bool.false_eq_true, if_false]
    exact changeContent_eq hdelete _
  | true =>
    simp only [if_true]
    by_cases some : e.stop ≠ e.start
    · rw [if_pos some]
      exact @changeContent_eq s.validateLength _ _ _ hdelete _
    · have same := not_not.mp some
      rw [if_neg some, hsame same, same]
      simp
      rfl

theorem changed_told {s₁ s₂ : TextInputControl} (hdeletion : e.deletion s = .done s₁)
    (hinsert : s₁.insert e.start e.value true = .done s₂) :
    e.changed s = .done s₂ ∧ e.told s = toldBy (e.begun s) s₁ ++ toldBy s₁ s₂ := by
  unfold changed told
  rw [hdeletion, Outcome.bind_done]
  dsimp only
  rw [hinsert, ← toldBy_begun]
  exact ⟨rfl, rfl⟩

theorem getLength_begun (quiet : ¬ e.Tells s) {c : Content} (holds : c.Holds (e.newText s)) :
    ({ e.begun s with content := c } : TextInputControl).getLength = e.knownLength s := by
  unfold knownLength begun
  rw [if_neg quiet]
  cases e.replaces with
  | true => rfl
  | false =>
    have htext : ({ s with content := c } : TextInputControl).getText = e.newText s := holds.value
    rw [if_neg (by simp), if_neg (by simp), ← htext]
    rfl

theorem getLength_told (tells : e.Tells s) {b : TextInputControl} {c : Content} (holds : c.Holds (e.newText s)) :
    (markInvalid { b with content := c }).getLength = e.knownLength s := by
  have htext : (markInvalid { b with content := c }).getText = e.newText s := holds.value
  unfold knownLength
  rw [if_pos tells, ← htext]
  rfl

/-- An accepted edit works; the listeners are told at most once, in the state it
leaves. -/
theorem changed_accepted (holds : s.content.Holds s.getText) (accepted : e.Accepted s) :
    ∃ m, e.changed s = .done m ∧ m.getText = e.newText s ∧ m.getLength = e.knownLength s ∧
      m.selection = s.selection ∧ e.told s = (if e.Tells s then [m] else []) ∧
      m.notified = s.notified + (e.told s).length := by
  obtain ⟨c₁, c₂, hdelete, hinsert, holds₂, hsame⟩ := content_accepted holds accepted
  have hdeletion := deletion_accepted hdelete hsame
  have hselection : (e.begun s).selection = s.selection := by
    unfold begun
    split <;> rfl
  have hnotified : (e.begun s).notified = s.notified := by
    unfold begun
    split <;> rfl
  have hinserted : ∀ m : TextInputControl, m.content = c₁ → m.insert e.start e.value true
      = .done (if decide (s.content.filter e.value ≠ []) = true
        then markInvalid { m with content := c₂ } else { m with content := c₂ }) := by
    intro m hm
    rw [← hm] at hinsert
    unfold TextInputControl.insert
    rw [changeContent_eq hinsert, Bool.and_true]
  by_cases first : (decide (e.start < e.stop) && e.value.isEmpty) = true
  · rw [if_pos first] at hdeletion
    simp only [Bool.and_eq_true, decide_eq_true_eq, List.isEmpty_iff] at first
    have tells : e.Tells s := Or.inr ⟨first.2, first.1⟩
    have hquiet : s.content.filter e.value = [] := by rw [first.2, filter_nil]
    have hkept : c₂ = c₁ := (Content.insert_nil (by rw [← first.2]; exact hinsert)).1
    have hsecond := hinserted (markInvalid { e.begun s with content := c₁ }) rfl
    rw [hquiet, hkept] at hsecond
    obtain ⟨hchanged, htold⟩ := changed_told hdeletion hsecond
    have htold' : e.told s = [markInvalid { e.begun s with content := c₁ }] := by
      have hone := toldBy_changed (e.begun s) c₁ true
      have hnone := toldBy_changed (markInvalid { e.begun s with content := c₁ }) c₁ false
      rw [if_pos rfl, if_pos rfl] at hone
      rw [htold, hone]
      exact congrArg _ hnone
    rw [hkept] at holds₂
    refine ⟨_, hchanged, holds₂.value, getLength_told tells holds₂, hselection, ?_, ?_⟩
    · rw [htold', if_pos tells]
      rfl
    · rw [htold', ← hnotified]
      rfl
  · rw [if_neg first] at hdeletion
    simp only [Bool.and_eq_true, decide_eq_true_eq, List.isEmpty_iff] at first
    have hsecond := hinserted { e.begun s with content := c₁ } rfl
    have hnone := toldBy_changed (e.begun s) c₁ false
    have hone := toldBy_changed { e.begun s with content := c₁ } c₂ (decide (s.content.filter e.value ≠ []))
    obtain ⟨hchanged, htold⟩ := changed_told hdeletion hsecond
    rw [hone] at htold
    by_cases some : s.content.filter e.value ≠ []
    · have tells : e.Tells s := Or.inl some
      rw [if_pos (by simpa using some)] at hchanged htold
      have htold' := htold.trans (congrArg (· ++ _) hnone)
      refine ⟨_, hchanged, holds₂.value, getLength_told tells holds₂, hselection, ?_, ?_⟩
      · rw [htold', if_pos tells]
        rfl
      · rw [htold', ← hnotified]
        rfl
    · have quiet : ¬ e.Tells s := by
        rintro (hsome | ⟨hvalue, hdeletes⟩)
        · exact some hsome
        · exact first ⟨hdeletes, hvalue⟩
      rw [if_neg (by simpa using some)] at hchanged htold
      have htold' := htold.trans (congrArg (· ++ _) hnone)
      refine ⟨_, hchanged, holds₂.value, getLength_begun quiet holds₂, hselection, ?_, ?_⟩
      · rw [htold', if_neg quiet]
        rfl
      · rw [htold', ← hnotified]
        rfl

/-- What the binding sees of the state behind an edit. -/
structure Leaves (e : ContentEdit) (s s' : TextInputControl) : Prop where
  text : s'.getText = e.newText s
  selection : s'.selection = e.asked s (e.knownLength s)
  notified : s'.notified = s.notified + if e.Tells s then 1 else 0

theorem told_length (holds : s.content.Holds s.getText) (accepted : e.Accepted s) :
    (e.told s).length = if e.Tells s then 1 else 0 := by
  obtain ⟨m, -, -, -, -, htold, -⟩ := changed_accepted holds accepted
  rw [htold]
  split <;> rfl

theorem perform_leaves (holds : s.content.Holds s.getText) (accepted : e.Accepted s) :
    ∃ s', e.perform s = .done s' ∧ e.Leaves s s' := by
  obtain ⟨m, hm, htext, hlength, -, -, hnotified⟩ := changed_accepted holds accepted
  rw [told_length holds accepted] at hnotified
  rw [perform_eq, hm, Outcome.bind_done, hlength]
  refine ⟨_, rfl, htext, ?_, hnotified⟩
  rw [← hlength]
  rfl

theorem Leaves.update (leaves : e.Leaves s s') : e.Leaves s s'.updateUndoRedoState.state := by
  obtain ⟨htext, hselection, hnotified⟩ := updateUndoRedoState_kept s'
  exact ⟨htext.trans leaves.text, hselection.trans leaves.selection, hnotified.trans leaves.notified⟩

/-- The call leaves what its edit leaves. -/
theorem editContent_leaves {c : ContentCall} (edits : s.Edits c e) (holds : s.content.Holds s.getText)
    (accepted : e.Accepted s) : e.Leaves s (s.editContent c).state := by
  cases edits with
  | replaceText start stop value anchor caretPosition =>
    obtain ⟨s', hs', leaves⟩ := perform_leaves holds accepted
    have hcall : s.editContent (.replaceText start stop value anchor caretPosition) = .done s' := hs'
    rw [hcall]
    exact leaves
  | undo undoable current record behind =>
    obtain ⟨s', hs', leaves⟩ := perform_leaves holds accepted
    show ContentEdit.Leaves _ s s.undo.state
    rw [undo_eq_perform undoable current record behind, hs', Outcome.bind_done]
    exact Leaves.update ⟨leaves.text, leaves.selection, leaves.notified⟩
  | @redo id next r r' redoable current record hnext record' =>
    -- the current record moves before the content changes
    obtain ⟨s', hs', leaves⟩ := @perform_leaves _ { s with undoChange := some next } holds accepted
    show ContentEdit.Leaves _ s s.redo.state
    rw [redo_eq_perform redoable current record hnext record', hs', Outcome.bind_done]
    exact Leaves.update ⟨leaves.text, leaves.selection, leaves.notified⟩

theorem small_normalize {v1 v2 : Int} (h1 : 0 ≤ v1 ∧ v1 < 2 ^ 31) (h2 : 0 ≤ v2 ∧ v2 < 2 ^ 31) :
    (IndexRange.normalize v1 v2).Small := by
  refine ⟨?_, ?_, ?_⟩
  · show 0 ≤ min v1 v2
    omega
  · show min v1 v2 ≤ max v1 v2
    omega
  · show max v1 v2 < 2 ^ 31
    omega

theorem knownLength_bounds (sized : e.IntSized s) : 0 ≤ e.knownLength s ∧ e.knownLength s < 2 ^ 31 := by
  have htext := sized.text
  have hlength := sized.length
  unfold knownLength
  by_cases tells : e.Tells s
  · rw [if_pos tells]
    omega
  rw [if_neg tells]
  by_cases hreplaces : e.replaces = true
  · rw [if_pos hreplaces]
    exact hlength
  rw [if_neg hreplaces]
  unfold getLength at hlength
  cases hknown : s.length with
  | none =>
    rw [Option.getD_none]
    omega
  | some n =>
    rw [hknown] at hlength
    exact hlength

theorem small_asked (sized : e.IntSized s) : (e.asked s (e.knownLength s)).Small := by
  have hlength := knownLength_bounds sized
  have hanchor := @clamp_bounds (e.anchor - e.adjustment s (e.knownLength s)) (e.knownLength s) hlength.1
  have hcaret := @clamp_bounds (e.caretPosition - e.adjustment s (e.knownLength s)) (e.knownLength s) hlength.1
  exact small_normalize ⟨hanchor.1, by omega⟩ ⟨hcaret.1, by omega⟩

/-- For every text, selection and call that edits: the content tells its change
as often as the call counts it, and the binding works then and shows the
selected range afterwards exactly when the edit fits. -/
theorem selectedText_total_iff {c : ContentCall} (edits : s.Edits c e) (holds : s.content.Holds s.getText)
    (accepted : e.Accepted s) (sized : e.IntSized s) :
    (s.editContent c).state.notified = s.notified + (e.told s).length ∧ (SelectedTextTotal c e s ↔ e.Fits s) := by
  have leaves := editContent_leaves edits holds accepted
  obtain ⟨m, -, htext, -, hselection, htold, -⟩ := changed_accepted holds accepted
  have hclips : m.selectedText = .ok (s.selection.clip m.getText) ↔ s.selection.Clips (e.newText s).length := by
    unfold selectedText
    rw [hselection, htext]
    exact selectedTextValue_clips_iff (small_normalize sized.anchor sized.caret) sized.text
  have hsettles : (∃ t, StringBuilder.subSequence (s.editContent c).state.getText (s.editContent c).state.selection.start
      (s.editContent c).state.selection.stop = .ok t ∧ (s.editContent c).state.selectedText = .ok t) ↔
        (e.asked s (e.knownLength s)).Settles (e.newText s).length := by
    unfold selectedText
    rw [leaves.text, leaves.selection]
    exact selectedTextValue_settles_iff (small_asked sized) sized.text
  refine ⟨by rw [told_length holds accepted, leaves.notified], ?_, ?_⟩
  · rintro ⟨told, after⟩
    refine ⟨?_, hsettles.mp after⟩
    intro tells
    refine hclips.mp (told m ?_)
    rw [htold, if_pos tells]
    exact List.mem_singleton_self m
  · rintro ⟨told, after⟩
    refine ⟨?_, hsettles.mpr after⟩
    intro m' hm'
    rw [htold] at hm'
    by_cases tells : e.Tells s
    · rw [if_pos tells] at hm'
      rw [List.mem_singleton.mp hm']
      exact hclips.mpr (told tells)
    · rw [if_neg tells] at hm'
      cases hm'

theorem holds_field {characters : Text} (h : s.content = .field characters) : s.content.Holds s.getText := by
  unfold getText
  rw [h]
  rfl

/-- A text field in which `abcdef` was inserted. -/
def inserted : TextInputControl := ((create (.field [])).insertText 0 [97, 98, 99, 100, 101, 102]).state

/-- The same, with `bcd` selected. -/
def middleSelected : TextInputControl := (inserted.selectRange 1 4).state

/-- `deleteText(0, 1)` moves the selection to the start, and `undo` takes the
text out again. -/
theorem total_first_deleted :
    SelectedTextTotal (.replaceText 0 1 [] 0 0) ⟨0, 1, [], 0, 0, true⟩ middleSelected ∧
      SelectedTextTotal .undo ⟨0, 6, [], 0, 0, false⟩ inserted := by
  have holds := holds_field (show middleSelected.content = .field [97, 98, 99, 100, 101, 102] by decide +kernel)
  have holds' := holds_field (show inserted.content = .field [97, 98, 99, 100, 101, 102] by decide +kernel)
  have record : inserted.changes[1]? = some ⟨0, [], [97, 98, 99, 100, 101, 102], some 0, none⟩ := by decide +kernel
  have undone := TextInputControl.Edits.undo (by decide +kernel) (show inserted.undoChange = some 1 by decide +kernel)
    record (by decide)
  exact ⟨(selectedText_total_iff (.replaceText 0 1 [] 0 0) holds (by decide +kernel) (by decide +kernel)).2.mpr
      (by decide +kernel),
    (selectedText_total_iff undone holds' (by decide +kernel) (by decide +kernel)).2.mpr (by decide +kernel)⟩

/-- `deleteText(3, 6)` leaves a text that ends in the selection: the binding
throws when the deletion is told. -/
theorem not_total_end_deleted :
    middleSelected.selectedText = .ok [98, 99, 100] ∧ (middleSelected.deleteText 3 6).state.getText = [97, 98, 99] ∧
      ((⟨3, 6, [], 3, 3, true⟩ : ContentEdit).told middleSelected).map selectedText = [.error .indexOutOfBounds] ∧
      ¬ ∀ (c : ContentCall) (e : ContentEdit) (s : TextInputControl), s.Edits c e → s.content.Holds s.getText →
        e.Accepted s → e.IntSized s → SelectedTextTotal c e s := by
  refine ⟨by decide +kernel, by decide +kernel, by decide +kernel, ?_⟩
  intro total
  have holds := holds_field (show middleSelected.content = .field [97, 98, 99, 100, 101, 102] by decide +kernel)
  have htotal := total (.replaceText 3 6 [] 3 3) ⟨3, 6, [], 3, 3, true⟩ middleSelected (.replaceText 3 6 [] 3 3) holds
    (by decide +kernel) (by decide +kernel)
  exact absurd htotal.told (by decide +kernel)

end Edit

end ContentEdit
end OpenJfx.Controls
