import OpenJfx.Controls.TextInputControl

/-! # The links between undo records

What holds of the records, the flags and the content of a text control in every
state that calls reach, calls that throw included. -/
set_option autoImplicit false
namespace OpenJfx.Controls

open OpenJfx.Lib

namespace TextInputControl

/-- Every record but the first has a predecessor, and all references stay inside
the list of records: to older ones backwards, to younger ones forwards. -/
structure Linked (changes : List UndoRedoChange) : Prop where
  head : 0 < changes.length
  prev : ∀ id r, changes[id]? = some r → id ≠ 0 → ∃ p, r.prev = some p ∧ p < id
  next : ∀ id r n, changes[id]? = some r → r.next = some n → id < n ∧ n < changes.length

/-- What does not depend on the flags. -/
structure Based (s : TextInputControl) : Prop where
  linked : Linked s.changes
  current : ∀ id, s.undoChange = some id → id < s.changes.length
  holds : s.content.Holds s.getText
  length : ∀ n, s.length = some n → 0 ≤ n

def Consistent (s : TextInputControl) : Prop :=
  ∃ id r, s.undoChange = some id ∧ s.changes[id]? = some r ∧ s.undoable = decide (id ≠ undoChangeHead) ∧
    s.redoable = r.next.isSome

/-- A redo that threw leaves `redoable` set. -/
structure Reached (s : TextInputControl) : Prop extends Based s where
  flags : s.redoable = true ∨ Consistent s

section Links
variable {changes : List UndoRedoChange} {id : Nat} {record : UndoRedoChange}

theorem Linked.set (h : Linked changes) (hid : changes[id]? = some record) (record' : UndoRedoChange)
    (hprev : record'.prev = record.prev) (hnext : ∀ n, record'.next = some n → id < n ∧ n < changes.length) :
    Linked (changes.set id record') := by
  have hin : id < changes.length := (List.getElem?_eq_some_iff.mp hid).1
  refine ⟨by simpa using h.head, ?_, ?_⟩
  · intro i r hr hne
    rw [List.getElem?_set] at hr
    by_cases here : id = i
    · subst here
      rw [if_pos rfl, if_pos hin] at hr
      cases hr
      rw [hprev]
      exact h.prev id record hid hne
    · rw [if_neg here] at hr
      exact h.prev i r hr hne
  · intro i r n hr hn
    rw [List.length_set]
    rw [List.getElem?_set] at hr
    by_cases here : id = i
    · subst here
      rw [if_pos rfl, if_pos hin] at hr
      cases hr
      exact hnext n hn
    · rw [if_neg here] at hr
      exact h.next i r n hr hn

theorem getElem?_snoc {x r : UndoRedoChange} {i : Nat} (h : (changes ++ [x])[i]? = some r) :
    changes[i]? = some r ∨ i = changes.length ∧ r = x := by
  by_cases hlt : i < changes.length
  · rw [List.getElem?_append_left hlt] at h
    exact Or.inl h
  · rw [List.getElem?_append_right (by omega)] at h
    have hi := (List.getElem?_eq_some_iff.mp h).1
    have hzero : i - changes.length = 0 := by
      simp at hi
      omega
    rw [hzero] at h
    cases h
    exact Or.inr ⟨by omega, rfl⟩

end Links

/-! ## Steps inside a call -/

section Kept
variable {s : TextInputControl}

theorem bind_keeps {inv : TextInputControl → Prop} {o : Outcome Exn TextInputControl}
    {next : TextInputControl → Outcome Exn TextInputControl} (ho : inv o.state)
    (hnext : ∀ s, inv s → inv (next s).state) : inv (o.bind next).state := by
  cases o with
  | done s => exact hnext s ho
  | thrown x s => exact ho

theorem Reached.getLength_nonneg (h : Reached s) : 0 ≤ s.getLength := by
  unfold getLength
  cases hlength : s.length with
  | none => exact Int.natCast_nonneg _
  | some n => exact h.length n hlength

theorem Reached.validateLength (h : Reached s) : Reached s.validateLength :=
  ⟨⟨h.linked, h.current, h.holds, fun n hn => by cases hn; exact h.getLength_nonneg⟩, h.flags⟩

theorem Reached.doSelectRange (h : Reached s) (anchor caret : Int) : Reached (s.doSelectRange anchor caret) :=
  ⟨⟨h.linked, h.current, h.holds, h.validateLength.length⟩, h.flags⟩

theorem Reached.changeContent (h : Reached s) {change : Content → Except Exn (Content × Bool)}
    (kept : ∀ c told, change s.content = .ok (c, told) → ∃ t, Content.Holds c t) (notifyListeners : Bool) :
    Reached (s.changeContent change notifyListeners).state := by
  unfold TextInputControl.changeContent
  cases hchange : change s.content with
  | error x => exact h
  | ok result =>
    obtain ⟨content, changed⟩ := result
    obtain ⟨t, holds⟩ := kept content changed hchange
    have holds' : content.Holds content.value := by
      rw [holds.value]
      exact holds
    dsimp only
    by_cases told : (changed && notifyListeners) = true
    · rw [if_pos told]
      exact ⟨⟨h.linked, h.current, holds', fun n hn => nomatch hn⟩, h.flags⟩
    · rw [if_neg told]
      exact ⟨⟨h.linked, h.current, holds', h.length⟩, h.flags⟩

theorem Reached.delete (h : Reached s) (start stop : Int) (notifyListeners : Bool) :
    Reached (s.delete start stop notifyListeners).state :=
  h.changeContent (fun _ _ hdelete => Content.delete_holds h.holds hdelete) notifyListeners

theorem Reached.insert (h : Reached s) (index : Int) (text : Text) (notifyListeners : Bool) :
    Reached (s.insert index text notifyListeners).state :=
  h.changeContent (fun _ _ hinsert => Content.insert_holds h.holds hinsert) notifyListeners

theorem Reached.readText (h : Reached s) (start stop : Int)
    {next : Text → TextInputControl → Outcome Exn TextInputControl}
    (hnext : ∀ t s, Reached s → Reached (next t s).state) : Reached (s.readText start stop next).state := by
  unfold TextInputControl.readText
  by_cases order : stop < start
  · rw [if_pos order]
    exact h
  rw [if_neg order]
  by_cases outside : start < 0 ∨ s.getLength < stop
  · rw [if_pos outside]
    exact h.validateLength
  rw [if_neg outside]
  cases s.content.get start stop with
  | error x => exact h.validateLength
  | ok text => exact hnext text _ h.validateLength

theorem Reached.replaceContent (h : Reached s) (start stop : Int) (value : Text) (anchor caret : Int)
    {next : Int → TextInputControl → Outcome Exn TextInputControl}
    (hnext : ∀ d s, Reached s → Reached (next d s).state) :
    Reached (s.replaceContent start stop value anchor caret next).state := by
  unfold TextInputControl.replaceContent
  dsimp only
  apply bind_keeps
  · by_cases some : stop ≠ start
    · rw [if_pos some]
      exact h.validateLength.delete start stop value.isEmpty
    · rw [if_neg some]
      exact h.validateLength
  · intro s₁ h₁
    apply bind_keeps
    · exact h₁.insert start value true
    · intro s₂ h₂
      exact hnext _ _ (h₂.validateLength.doSelectRange _ _)

theorem withRecord_keeps {inv : TextInputControl → Prop}
    {next : Nat → UndoRedoChange → Outcome Exn TextInputControl} (hs : inv s)
    (hnext : ∀ id r, s.undoChange = some id → s.changes[id]? = some r → inv (next id r).state) :
    inv (s.withRecord next).state := by
  unfold withRecord
  cases hid : s.undoChange with
  | none => exact hs
  | some id =>
    dsimp only
    cases hr : s.changes[id]? with
    | none => exact hs
    | some r => exact hnext id r hid hr

theorem withRecord_eq {id : Nat} {r : UndoRedoChange} (hid : s.undoChange = some id) (hr : s.changes[id]? = some r)
    (next : Nat → UndoRedoChange → Outcome Exn TextInputControl) : s.withRecord next = next id r := by
  unfold withRecord
  rw [hid]
  dsimp only
  rw [hr]

theorem updateUndoRedoState_eq {id : Nat} {r : UndoRedoChange} (hid : s.undoChange = some id)
    (hr : s.changes[id]? = some r) :
    s.updateUndoRedoState
      = .done { s with undoable := decide (id ≠ undoChangeHead), redoable := r.next.isSome } := by
  simp [updateUndoRedoState, withRecord, hid, hr]

theorem Based.updateUndoRedoState (h : Based s) {id : Nat} (hid : s.undoChange = some id) :
    Reached s.updateUndoRedoState.state := by
  have hin := h.current id hid
  have hr : s.changes[id]? = some s.changes[id] := List.getElem?_eq_getElem hin
  rw [updateUndoRedoState_eq hid hr]
  exact ⟨⟨h.linked, h.current, h.holds, h.length⟩, Or.inr ⟨id, _, hid, hr, rfl, rfl⟩⟩

theorem Reached.updateUndoRedoState (h : Reached s) : Reached s.updateUndoRedoState.state := by
  cases hid : s.undoChange with
  | some id => exact h.toBased.updateUndoRedoState hid
  | none =>
    have hredoable : s.redoable = true := by
      rcases h.flags with hredoable | ⟨id, r, hid', -⟩
      · exact hredoable
      · rw [hid] at hid'
        cases hid'
    unfold TextInputControl.updateUndoRedoState withRecord
    dsimp only
    rw [hid]
    exact ⟨⟨h.linked, fun _ hid' => (nomatch hid'), h.holds, h.length⟩, Or.inl hredoable⟩

theorem Based.setRecord (h : Based s) {id : Nat} {record : UndoRedoChange} (hr : s.changes[id]? = some record)
    (record' : UndoRedoChange) (hprev : record'.prev = record.prev)
    (hnext : ∀ n, record'.next = some n → id < n ∧ n < s.changes.length) : Based (s.setRecord id record') := by
  refine ⟨h.linked.set hr record' hprev hnext, ?_, h.holds, h.length⟩
  intro id' hid
  show id' < (s.changes.set id record').length
  rw [List.length_set]
  exact h.current id' hid

theorem Based.add (h : Based s) {id : Nat} {record : UndoRedoChange} (hr : s.changes[id]? = some record) (start : Int)
    (oldText newText : Text) : Based (s.add id record start oldText newText) := by
  have hin : id < s.changes.length := (List.getElem?_eq_some_iff.mp hr).1
  have hlength : (s.changes.set id { record with next := some s.changes.length }).length = s.changes.length :=
    List.length_set
  refine ⟨?_, ?_, h.holds, h.length⟩
  · -- the link to the new record is inside the list only together with it
    refine ⟨by simp [TextInputControl.add], ?_, ?_⟩
    · intro i r hget hne
      rcases getElem?_snoc hget with hget | ⟨rfl, rfl⟩
      · rw [List.getElem?_set] at hget
        by_cases here : id = i
        · subst here
          rw [if_pos rfl, if_pos hin] at hget
          cases hget
          exact h.linked.prev id record hr hne
        · rw [if_neg here] at hget
          exact h.linked.prev i r hget hne
      · exact ⟨id, rfl, by rw [hlength]; exact hin⟩
    · intro i r n hget hn
      show i < n ∧ n < (s.changes.set id { record with next := some s.changes.length } ++ [_]).length
      rw [List.length_append, List.length_singleton, hlength]
      rcases getElem?_snoc hget with hget | ⟨rfl, rfl⟩
      · rw [List.getElem?_set] at hget
        by_cases here : id = i
        · subst here
          rw [if_pos rfl, if_pos hin] at hget
          cases hget
          cases hn
          omega
        · rw [if_neg here] at hget
          have := h.linked.next i r n hget hn
          omega
      · cases hn
  · intro id' hid
    have hid' : s.changes.length = id' := Option.some.inj hid
    show id' < (s.changes.set id { record with next := some s.changes.length } ++ [_]).length
    rw [List.length_append, List.length_singleton, hlength]
    omega

theorem Based.discard (h : Based s) {id : Nat} {record : UndoRedoChange} (hr : s.changes[id]? = some record)
    (hne : id ≠ undoChangeHead) :
    ∃ s' p, s.discard record = .done s' ∧ Based s' ∧ s'.undoChange = some p := by
  obtain ⟨p, hp, hlt⟩ := h.linked.prev id record hr hne
  have hin : id < s.changes.length := (List.getElem?_eq_some_iff.mp hr).1
  have hget : s.changes[p]? = some s.changes[p] := List.getElem?_eq_getElem (by omega)
  have based : Based { s with undoChange := record.prev } := by
    refine ⟨h.linked, ?_, h.holds, h.length⟩
    intro id' hid
    have hid' : record.prev = some id' := hid
    rw [hp] at hid'
    cases hid'
    exact lt_trans hlt hin
  unfold TextInputControl.discard
  dsimp only
  rw [@withRecord_eq { s with undoChange := record.prev } p s.changes[p] hp hget]
  refine ⟨_, p, rfl, ?_, hp⟩
  apply based.setRecord hget
  · rfl
  · intro n hn
    have := h.linked.next id record n hr hn
    exact ⟨by omega, this.2⟩

theorem Reached.mergeDeletion (h : Reached s) {id : Nat} {record : UndoRedoChange} (hid : s.undoChange = some id)
    (hr : s.changes[id]? = some record) (hne : id ≠ undoChangeHead) (start : Int) (oldText : Text) :
    Reached ((s.mergeDeletion id record start oldText).bind TextInputControl.updateUndoRedoState).state := by
  have hkept : ∀ n, record.next = some n → id < n ∧ n < s.changes.length := fun n hn => h.linked.next id record n hr hn
  have hin : id < s.changes.length := (List.getElem?_eq_some_iff.mp hr).1
  unfold TextInputControl.mergeDeletion
  by_cases hnew : 0 < record.newText.length
  · rw [if_pos hnew]
    cases hsub : StringBuilder.subSequence record.newText 0 (start - record.start) with
    | error x => exact h
    | ok newText =>
      have based := h.toBased.setRecord hr { record with newText := newText } rfl hkept
      dsimp only
      by_cases hempty : newText = []
      · rw [if_pos hempty]
        have hget : (s.setRecord id { record with newText := newText }).changes[id]?
            = some { record with newText := newText } := by
          show (s.changes.set id _)[id]? = _
          rw [List.getElem?_set_self hin]
        obtain ⟨s', p, hdiscard, based', hp⟩ := based.discard hget hne
        rw [hdiscard]
        exact based'.updateUndoRedoState hp
      · rw [if_neg hempty]
        exact based.updateUndoRedoState hid
  · rw [if_neg hnew]
    by_cases hend : start = endOfUndoChange id record
    · rw [if_pos hend]
      exact (h.toBased.setRecord hr { record with oldText := record.oldText ++ oldText } rfl hkept).updateUndoRedoState
        hid
    · rw [if_neg hend]
      exact (h.toBased.setRecord hr { record with oldText := oldText ++ record.oldText, start := record.start - 1 } rfl
        hkept).updateUndoRedoState hid

theorem Reached.recordChange (h : Reached s) (nonEmptySelection forceNewUndoRecord : Bool) (start stop : Int)
    (text oldText newText : Text) :
    Reached (s.recordChange nonEmptySelection forceNewUndoRecord start stop text oldText newText).state := by
  unfold TextInputControl.recordChange
  refine withRecord_keeps h fun id record hid hr => ?_
  have hkept : ∀ n, record.next = some n → id < n ∧ n < s.changes.length := fun n hn => h.linked.next id record n hr hn
  by_cases hneeds : s.needsRecord nonEmptySelection forceNewUndoRecord (endOfUndoChange id record) start stop
  · rw [if_pos hneeds]
    exact (h.toBased.add hr start oldText newText).updateUndoRedoState rfl
  rw [if_neg hneeds]
  have hne : id ≠ undoChangeHead := by
    intro hhead
    apply hneeds
    refine Or.inr (Or.inr (Or.inl ?_))
    rw [endOfUndoChange, if_pos hhead]
  by_cases hdeletion : start ≠ stop ∧ text = []
  · rw [if_pos hdeletion]
    exact h.mergeDeletion hid hr hne start oldText
  · rw [if_neg hdeletion]
    exact (h.toBased.setRecord hr { record with newText := record.newText ++ newText } rfl hkept).updateUndoRedoState hid

/-! ## Calls -/

theorem Reached.updateContent (h : Reached s) (start stop : Int) (text : Text) (anchor caret : Int) (force : Bool) :
    Reached (s.updateContent start stop text anchor caret force).state := by
  unfold TextInputControl.updateContent
  refine h.readText start stop fun oldText s₁ h₁ => ?_
  refine h₁.replaceContent start stop text anchor caret fun d s₂ h₂ => ?_
  refine withRecord_keeps h₂ fun id record hid hr => ?_
  exact h₂.readText _ _ fun newText s₃ h₃ => h₃.recordChange _ _ _ _ _ _ _

theorem Reached.replaceText (h : Reached s) (start stop : Int) (text : Text) :
    Reached (s.replaceText start stop text).state := by
  unfold TextInputControl.replaceText
  by_cases order : stop < start
  · rw [if_pos order]
    exact h
  rw [if_neg order]
  by_cases outside : start < 0 ∨ s.getLength < stop
  · rw [if_pos outside]
    exact h.validateLength
  · rw [if_neg outside]
    exact h.validateLength.updateContent _ _ _ _ _ _

theorem Reached.replaceSelection (h : Reached s) (text : Text) : Reached (s.replaceSelection text).state :=
  h.replaceText _ _ text

theorem Reached.paste (h : Reached s) (text : Text) : Reached (s.paste text).state := by
  have h' : Reached { s with createNewUndoRecord := true } :=
    ⟨⟨h.linked, h.current, h.holds, h.length⟩, h.flags⟩
  have hcall := h'.replaceSelection text
  unfold TextInputControl.paste
  cases hout : TextInputControl.replaceSelection text { s with createNewUndoRecord := true } with
  | done s₁ =>
    rw [hout] at hcall
    exact ⟨⟨hcall.linked, hcall.current, hcall.holds, hcall.length⟩, hcall.flags⟩
  | thrown x s₁ =>
    rw [hout] at hcall
    exact ⟨⟨hcall.linked, hcall.current, hcall.holds, hcall.length⟩, hcall.flags⟩

theorem Reached.selectRange (h : Reached s) (anchor caret : Int) : Reached (s.selectRange anchor caret).state :=
  h.validateLength.updateContent _ _ _ _ _ _

theorem changeContent_changes (change : Content → Except Exn (Content × Bool)) (notifyListeners : Bool) :
    (s.changeContent change notifyListeners).state.changes = s.changes := by
  unfold TextInputControl.changeContent
  cases change s.content with
  | error x => rfl
  | ok result =>
    dsimp only
    by_cases told : (result.2 && notifyListeners) = true
    · rw [if_pos told]
      rfl
    · rw [if_neg told]
      rfl

theorem Reached.undo (h : Reached s) : Reached s.undo.state := by
  unfold TextInputControl.undo
  by_cases hundoable : s.undoable = true
  · rw [if_pos hundoable]
    cases hid : s.undoChange with
    | none =>
      rw [withRecord, hid]
      exact h
    | some id =>
      have hin := h.current id hid
      rw [withRecord_eq hid (List.getElem?_eq_getElem hin)]
      by_cases hhead : id = undoChangeHead
      · rw [if_pos hhead]
        exact h
      rw [if_neg hhead]
      obtain ⟨p, hp, hlt⟩ := h.linked.prev id _ (List.getElem?_eq_getElem hin) hhead
      have hdelete := h.delete s.changes[id].start (s.changes[id].start + s.changes[id].newText.length)
        s.changes[id].oldText.isEmpty
      have hchanges : (s.delete s.changes[id].start (s.changes[id].start + s.changes[id].newText.length)
        s.changes[id].oldText.isEmpty).state.changes = s.changes := changeContent_changes _ _
      cases hcall : s.delete s.changes[id].start (s.changes[id].start + s.changes[id].newText.length)
        s.changes[id].oldText.isEmpty with
      | thrown x s₁ =>
        rw [hcall] at hdelete
        exact hdelete
      | done s₁ =>
        rw [hcall] at hdelete hchanges
        have h₁ : Reached s₁ := hdelete
        have hinsert := h₁.insert s.changes[id].start s.changes[id].oldText true
        have hchanges₁ : (s₁.insert s.changes[id].start s.changes[id].oldText true).state.changes = s₁.changes :=
          changeContent_changes _ _
        rw [Outcome.bind_done]
        cases hcall₁ : s₁.insert s.changes[id].start s.changes[id].oldText true with
        | thrown x s₂ =>
          rw [hcall₁] at hinsert
          exact hinsert
        | done s₂ =>
          rw [hcall₁] at hinsert hchanges₁
          have hselect := hinsert.doSelectRange s.changes[id].start
            (s.changes[id].start + s.changes[id].oldText.length)
          rw [Outcome.bind_done, Outcome.bind_done]
          refine Based.updateUndoRedoState ⟨hselect.linked, ?_, hselect.holds, hselect.length⟩ hp
          intro id' hid'
          have hid'' : s.changes[id].prev = some id' := hid'
          rw [hp] at hid''
          cases hid''
          show p < s₂.changes.length
          rw [show s₂.changes = s.changes from hchanges₁.trans hchanges]
          omega
  · rw [if_neg hundoable]
    exact h.updateUndoRedoState

theorem Reached.redo (h : Reached s) : Reached s.redo.state := by
  unfold TextInputControl.redo
  by_cases hredoable : s.redoable = true
  · rw [if_pos hredoable]
    apply bind_keeps
    · refine withRecord_keeps h fun id record hid hr => ?_
      have h' : Reached { s with undoChange := record.next } :=
        ⟨⟨h.linked, fun n hn => (h.linked.next id record n hr hn).2, h.holds, h.length⟩, Or.inl hredoable⟩
      refine withRecord_keeps h' fun id' record' hid' hr' => ?_
      apply bind_keeps
      · exact h'.delete _ _ _
      · intro s₁ h₁
        apply bind_keeps
        · exact h₁.insert _ _ _
        · intro s₂ h₂
          exact h₂.doSelectRange _ _
    · intro s₁ h₁
      exact h₁.updateUndoRedoState
  · rw [if_neg hredoable]
    exact h.updateUndoRedoState

theorem Reached.resetUndoRedoState (h : Reached s) : Reached s.resetUndoRedoState.state := by
  obtain ⟨head, hget⟩ : ∃ r, s.changes[undoChangeHead]? = some r :=
    ⟨_, List.getElem?_eq_getElem (show undoChangeHead < s.changes.length from h.linked.head)⟩
  have based : Based { s with undoChange := some undoChangeHead } := by
    refine ⟨h.linked, ?_, h.holds, h.length⟩
    intro id hid
    cases hid
    exact h.linked.head
  unfold TextInputControl.resetUndoRedoState
  dsimp only
  rw [@withRecord_eq { s with undoChange := some undoChangeHead } undoChangeHead head rfl hget]
  exact (based.setRecord hget { head with next := none } rfl fun n hn => (nomatch hn)).updateUndoRedoState rfl

theorem Reached.setText (h : Reached s) (value : Text) : Reached (s.setText value).state := by
  unfold TextInputControl.setText
  apply bind_keeps
  · exact h.replaceContent _ _ _ _ _ fun _ s₁ h₁ => h₁.resetUndoRedoState
  · intro s₁ h₁
    exact ⟨⟨h₁.linked, h₁.current, h₁.holds, fun n hn => nomatch hn⟩, h₁.flags⟩

end Kept

/-! ## Runs -/

/-- The calls that change a control; the other editing and selecting calls are
made of them. -/
inductive Call where
  | setText (value : Text)
  | replaceText (start stop : Int) (text : Text)
  | replaceSelection (text : Text)
  | paste (text : Text)
  | selectRange (anchor caretPosition : Int)
  | undo
  | redo
  | getLength
deriving DecidableEq, Repr

def perform : Call → TextInputControl → Outcome Exn TextInputControl
  | .setText value => setText value
  | .replaceText start stop text => replaceText start stop text
  | .replaceSelection text => replaceSelection text
  | .paste text => paste text
  | .selectRange anchor caretPosition => selectRange anchor caretPosition
  | .undo => undo
  | .redo => redo
  | .getLength => fun s => .done s.validateLength

def call (c : Call) (s : TextInputControl) : TextInputControl := (perform c s).state

theorem Reached.call {s : TextInputControl} (h : Reached s) (c : Call) : Reached (s.call c) := by
  cases c with
  | setText value => exact h.setText value
  | replaceText start stop text => exact h.replaceText start stop text
  | replaceSelection text => exact h.replaceSelection text
  | paste text => exact h.paste text
  | selectRange anchor caret => exact h.selectRange anchor caret
  | undo => exact h.undo
  | redo => exact h.redo
  | getLength => exact h.validateLength

def emptyContent (isArea : Bool) : Content :=
  if isArea then .area TextAreaContent.create else .field []

theorem reached_create (isArea : Bool) : Reached (create (emptyContent isArea)) := by
  have holds : (emptyContent isArea).Holds [] := by
    cases isArea with
    | false => rfl
    | true => exact TextAreaContent.refines_create
  refine ⟨⟨⟨by simp [create], ?_, ?_⟩, ?_, ?_, fun n hn => nomatch hn⟩, Or.inr ⟨0, _, rfl, rfl, rfl, rfl⟩⟩
  · intro id r hr hne
    have := (List.getElem?_eq_some_iff.mp hr).1
    simp [create] at this
    exact absurd this hne
  · intro id r n hr hn
    have hid : id = 0 := by
      have := (List.getElem?_eq_some_iff.mp hr).1
      simpa [create] using this
    subst hid
    cases hr
    cases hn
  · intro id hid
    cases hid
    simp [create]
  · show (emptyContent isArea).Holds (emptyContent isArea).value
    rw [holds.value]
    exact holds

theorem Reached.run {s : TextInputControl} (h : Reached s) (calls : List Call) :
    Reached (exec TextInputControl.call calls s) := by
  induction calls generalizing s with
  | nil => exact h
  | cons c rest ih => exact ih (h.call c)

end TextInputControl
end OpenJfx.Controls
