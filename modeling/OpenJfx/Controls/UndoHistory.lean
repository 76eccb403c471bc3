import OpenJfx.Controls.TextEdit

/-! # Undo records that fit the text

A chain of records leads from the text of the last `setText` to the text of the
control and on to the texts that can be redone; each record says what its edit
took out and put in at its start. -/
set_option autoImplicit false
namespace OpenJfx.Controls

open OpenJfx.Lib

def Content.accepts : Content → Nat → Bool
  | .field _, c => !isInvalidCharacter c true true
  | .area _, c => !isInvalidCharacter c false false

theorem Content.filter_eq (c : Content) (text : Text) : c.filter text = text.filter c.accepts := by
  cases c with
  | field characters => exact filterInput_eq text true true
  | area content => exact filterInput_eq text false false

namespace TextInputControl

def Valid (accepts : Nat → Bool) (t : Text) : Prop := ∀ c ∈ t, accepts c = true

section Valid
variable {accepts : Nat → Bool}

theorem valid_append {a b : Text} : Valid accepts (a ++ b) ↔ Valid accepts a ∧ Valid accepts b := by
  simp only [Valid, List.mem_append]
  constructor
  · intro h
    exact ⟨fun c hc => h c (Or.inl hc), fun c hc => h c (Or.inr hc)⟩
  · rintro ⟨ha, hb⟩ c (hc | hc)
    · exact ha c hc
    · exact hb c hc

theorem valid_filter (t : Text) : Valid accepts (t.filter accepts) := fun _ hc => (List.mem_filter.mp hc).2

theorem Valid.filter {t : Text} (h : Valid accepts t) : t.filter accepts = t := List.filter_eq_self.mpr h

end Valid

/-- The records from the first one up to `id`, which lead in `depth` steps from
the text `base` to a text. -/
inductive Past (changes : List UndoRedoChange) (base : Text) (accepts : Nat → Bool) : Nat → Nat → Text → Prop where
  | head : Past changes base accepts 0 undoChangeHead base
  | record {depth id p : Nat} {r rp : UndoRedoChange} {front back : Text} (hid : id ≠ undoChangeHead)
      (hr : changes[id]? = some r) (hprev : r.prev = some p) (hlt : p < id) (hp : changes[p]? = some rp)
      (hnext : rp.next = some id) (hstart : r.start = front.length) (hold : Valid accepts r.oldText)
      (hnew : Valid accepts r.newText) (below : Past changes base accepts depth p (front ++ r.oldText ++ back)) :
      Past changes base accepts (depth + 1) id (front ++ r.newText ++ back)

/-- The records behind `id`, which lead on from a text. -/
inductive Future (changes : List UndoRedoChange) (accepts : Nat → Bool) : Nat → Text → Prop where
  | last {id : Nat} {r : UndoRedoChange} {t : Text} (hr : changes[id]? = some r) (hnext : r.next = none) :
      Future changes accepts id t
  | record {id n : Nat} {r rn : UndoRedoChange} {front back : Text} (hr : changes[id]? = some r)
      (hnext : r.next = some n) (hlt : id < n) (hn : changes[n]? = some rn) (hprev : rn.prev = some id)
      (hstart : rn.start = front.length) (hold : Valid accepts rn.oldText) (hnew : Valid accepts rn.newText)
      (above : Future changes accepts n (front ++ rn.newText ++ back)) :
      Future changes accepts id (front ++ rn.oldText ++ back)

theorem Past.congr {changes changes' : List UndoRedoChange} {base t : Text} {accepts : Nat → Bool} {depth id : Nat}
    (h : Past changes base accepts depth id t) (lower : ∀ j < id, changes'[j]? = changes[j]?)
    (here : ∀ r, changes[id]? = some r → ∃ next, changes'[id]? = some { r with next := next }) :
    Past changes' base accepts depth id t := by
  induction h with
  | head => exact .head
  | @record depth id p r rp front back hid hr hprev hlt hp hnext hstart hold hnew below ih =>
    obtain ⟨next, hr'⟩ := here r hr
    have hp' := (lower _ hlt).trans hp
    refine Past.record (r := { r with next := next }) hid hr' hprev hlt hp' hnext hstart hold hnew (ih (fun j hj => lower j (lt_trans hj hlt)) ?_)
    intro r hr
    exact ⟨r.next, (lower _ hlt).trans hr⟩

/-- What a call that ends with the text `t` leaves. -/
structure After (s s' : TextInputControl) (t : Text) : Prop where
  holds : s'.content.Holds t
  filter : ∀ x, s'.content.filter x = s.content.filter x
  accurate : Accurate s'
  create : s'.createNewUndoRecord = s.createNewUndoRecord
  told : t ≠ s.getText → s.notified < s'.notified

structure InRange (s : TextInputControl) : Prop where
  anchor : 0 ≤ s.anchor ∧ s.anchor ≤ s.getText.length
  caret : 0 ≤ s.caretPosition ∧ s.caretPosition ≤ s.getText.length

section Steps
variable {s s' : TextInputControl} {t : Text}

theorem After.getText (h : After s s' t) : s'.getText = t := h.holds.value

theorem Edited.after (h : Edited s s' t) (anchor caret : Int) {s₂ : TextInputControl}
    (hcontent : s₂.content = s'.content) (hlength : s₂.length = (s'.doSelectRange anchor caret).length)
    (hcreate : s₂.createNewUndoRecord = s'.createNewUndoRecord) (hnotified : s₂.notified = s'.notified) :
    After s s₂ t := by
  refine ⟨?_, ?_, ?_, hcreate.trans h.create, ?_⟩
  · rw [hcontent]
    exact h.holds
  · rw [hcontent]
    exact h.filter
  · intro n hn
    rw [hlength] at hn
    have := h.select_accurate anchor caret n hn
    unfold TextInputControl.getText
    rw [hcontent]
    exact this
  · rw [hnotified]
    exact h.told

theorem Edited.inRange (h : Edited s s' t) (anchor caret : Int) {s₂ : TextInputControl}
    (hcontent : s₂.content = s'.content) (hanchor : s₂.anchor = (s'.doSelectRange anchor caret).anchor)
    (hcaret : s₂.caretPosition = (s'.doSelectRange anchor caret).caretPosition) : InRange s₂ := by
  have htext : s₂.getText = t := by
    unfold TextInputControl.getText
    rw [hcontent]
    exact h.getText
  have hlength := h.getLength
  have hanchor' : s₂.anchor = clamp 0 anchor t.length := by rw [hanchor, ← hlength]; rfl
  have hcaret' : s₂.caretPosition = clamp 0 caret t.length := by rw [hcaret, ← hlength]; rfl
  constructor
  · rw [hanchor', htext]
    exact clamp_bounds (by omega)
  · rw [hcaret', htext]
    exact clamp_bounds (by omega)

theorem undo_spec (holds : s.content.Holds s.getText) (accurate : Accurate s) {id p : Nat} {r rp : UndoRedoChange}
    (at_ : History.At s.history id r) (hid : id ≠ undoChangeHead) (hprev : r.prev = some p)
    (hp : s.changes[p]? = some rp) {front back : Text} (htext : s.getText = front ++ r.newText ++ back)
    (hstart : r.start = front.length) (hold : s.content.filter r.oldText = r.oldText) :
    ∃ s', s.undo = .done s' ∧ After s s' (front ++ r.oldText ++ back) ∧ History.At s'.history p rp ∧
      s'.changes = s.changes ∧ InRange s' := by
  have told : r.newText ≠ [] → s.content.filter r.oldText ≠ [] ∨ r.oldText.isEmpty = true := by
    intro _
    rw [hold]
    by_cases hempty : r.oldText = []
    · exact Or.inr (by rw [hempty]; rfl)
    · exact Or.inl hempty
  obtain ⟨s₁, hcall, edited⟩ := edit_spec holds accurate htext hstart
    (show r.start + r.newText.length = _ by rw [hstart]) told
  rw [hold] at edited
  have hrecord : s.changes[id]? = some r := at_.record
  have hp₁ : s₁.changes[p]? = some rp := by rw [edited.changes]; exact hp
  refine ⟨{ s₁.doSelectRange r.start (r.start + r.oldText.length) with
      undoChange := r.prev
      undoable := decide (p ≠ undoChangeHead)
      redoable := rp.next.isSome }, ?_, edited.after r.start (r.start + r.oldText.length) rfl rfl rfl rfl,
    ⟨hprev, hp₁, rfl, rfl⟩, edited.changes, edited.inRange r.start (r.start + r.oldText.length) rfl rfl rfl⟩
  unfold undo
  rw [if_pos (by rw [show s.undoable = _ from at_.undoable]; simp [hid]), withRecord_eq at_.current hrecord, if_neg hid,
    ← Outcome.bind_assoc, hcall, Outcome.bind_done, Outcome.bind_done]
  exact updateUndoRedoState_eq hprev hp₁

theorem redo_spec (holds : s.content.Holds s.getText) (accurate : Accurate s) {id n : Nat} {r rn : UndoRedoChange}
    (at_ : History.At s.history id r) (hnext : r.next = some n) (hn : s.changes[n]? = some rn) {front back : Text}
    (htext : s.getText = front ++ rn.oldText ++ back) (hstart : rn.start = front.length)
    (hnew : s.content.filter rn.newText = rn.newText) :
    ∃ s', s.redo = .done s' ∧ After s s' (front ++ rn.newText ++ back) ∧ History.At s'.history n rn ∧
      s'.changes = s.changes ∧ InRange s' := by
  have told : rn.oldText ≠ [] → s.content.filter rn.newText ≠ [] ∨ rn.newText.isEmpty = true := by
    intro _
    rw [hnew]
    by_cases hempty : rn.newText = []
    · exact Or.inr (by rw [hempty]; rfl)
    · exact Or.inl hempty
  obtain ⟨s₁, hcall, edited⟩ := @edit_spec { s with undoChange := some n } holds accurate _ _ _ rn.newText htext _ _ hstart
    (show rn.start + rn.oldText.length = _ by rw [hstart]) rn.newText.isEmpty told
  rw [show ({ s with undoChange := some n } : TextInputControl).content = s.content from rfl, hnew] at edited
  have hrecord : s.changes[id]? = some r := at_.record
  have hn₁ : s₁.changes[n]? = some rn := by rw [edited.changes]; exact hn
  have after := @Edited.after _ s₁ _ edited (rn.start + rn.newText.length) (rn.start + rn.newText.length)
    { s₁.doSelectRange (rn.start + rn.newText.length) (rn.start + rn.newText.length) with
      undoable := decide (n ≠ undoChangeHead)
      redoable := rn.next.isSome } rfl rfl rfl rfl
  refine ⟨{ s₁.doSelectRange (rn.start + rn.newText.length) (rn.start + rn.newText.length) with
      undoable := decide (n ≠ undoChangeHead)
      redoable := rn.next.isSome }, ?_, ⟨after.holds, after.filter, after.accurate, after.create, after.told⟩,
    ⟨edited.undoChange, hn₁, rfl, rfl⟩, edited.changes, edited.inRange _ _ rfl rfl rfl⟩
  unfold redo
  rw [if_pos (by rw [show s.redoable = _ from at_.redoable, hnext]; rfl), withRecord_eq at_.current hrecord]
  dsimp only
  rw [hnext, @withRecord_eq { s with undoChange := some n } n rn rfl hn, ← Outcome.bind_assoc, hcall, Outcome.bind_done,
    Outcome.bind_done]
  exact updateUndoRedoState_eq edited.undoChange hn₁

theorem undo_head {id : Nat} {r : UndoRedoChange} (at_ : History.At s.history id r) (hid : id = undoChangeHead) :
    s.undo = .done s := by
  unfold undo
  rw [if_neg (by rw [show s.undoable = _ from at_.undoable]; simp [hid]), Outcome.bind_done,
    updateUndoRedoState_eq at_.current at_.record]
  rw [show decide (id ≠ undoChangeHead) = s.undoable from at_.undoable.symm,
    show r.next.isSome = s.redoable from at_.redoable.symm]

theorem redo_last {id : Nat} {r : UndoRedoChange} (at_ : History.At s.history id r) (hnext : r.next = none) :
    s.redo = .done s := by
  unfold redo
  rw [if_neg (by rw [show s.redoable = _ from at_.redoable, hnext]; simp), Outcome.bind_done,
    updateUndoRedoState_eq at_.current at_.record]
  rw [show decide (id ≠ undoChangeHead) = s.undoable from at_.undoable.symm,
    show r.next.isSome = s.redoable from at_.redoable.symm]

end Steps

end TextInputControl
end OpenJfx.Controls
