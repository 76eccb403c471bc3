import OpenJfx.Controls.SelectionFrame

/-! # One edit of a text control

A range of the text is replaced by a filtered text: what the content, the
length, the selection and the listeners of the text property see of it. -/
set_option autoImplicit false
namespace OpenJfx.Controls

open OpenJfx.Lib

namespace TextInputControl

def Accurate (s : TextInputControl) : Prop := ∀ n, s.length = some n → n = s.getText.length

section Edit
variable {s : TextInputControl}

theorem Accurate.getLength (h : Accurate s) : s.getLength = s.getText.length := by
  unfold TextInputControl.getLength
  cases hlength : s.length with
  | none => rfl
  | some n => exact h n hlength

/-- `s'` is `s` with the text `t`; records, flags and selection are as before,
the length is known to be right or invalid, and a different text was told. -/
structure Edited (s s' : TextInputControl) (t : Text) : Prop where
  holds : s'.content.Holds t
  filter : ∀ x, s'.content.filter x = s.content.filter x
  length : ∀ n, s'.length = some n → n = t.length
  history : s'.history = { s.history with content := s'.content }
  create : s'.createNewUndoRecord = s.createNewUndoRecord
  anchor : s'.anchor = s.anchor
  caret : s'.caretPosition = s.caretPosition
  told : t ≠ s.getText → s.notified < s'.notified

theorem Edited.getText {s' : TextInputControl} {t : Text} (h : Edited s s' t) : s'.getText = t := h.holds.value

theorem Edited.getLength {s' : TextInputControl} {t : Text} (h : Edited s s' t) : s'.getLength = t.length := by
  unfold TextInputControl.getLength
  cases hlength : s'.length with
  | none => rw [h.getText]; rfl
  | some n => exact h.length n hlength

theorem Edited.changes {s' : TextInputControl} {t : Text} (h : Edited s s' t) : s'.changes = s.changes :=
  congrArg History.changes h.history

theorem Edited.undoChange {s' : TextInputControl} {t : Text} (h : Edited s s' t) : s'.undoChange = s.undoChange :=
  congrArg History.undoChange h.history

theorem Edited.select_holds {s' : TextInputControl} {t : Text} (h : Edited s s' t) (anchor caret : Int) :
    (s'.doSelectRange anchor caret).content.Holds (s'.doSelectRange anchor caret).getText := by
  show s'.content.Holds s'.getText
  rw [h.getText]
  exact h.holds

theorem Edited.select_accurate {s' : TextInputControl} {t : Text} (h : Edited s s' t) (anchor caret : Int) :
    Accurate (s'.doSelectRange anchor caret) := by
  intro n hn
  have hn' : s'.getLength = n := Option.some.inj hn
  show n = s'.getText.length
  rw [← hn', h.getLength, h.getText]

theorem notified_markInvalid (s : TextInputControl) : s.notified < (markInvalid s).notified :=
  Nat.lt_succ_self s.notified

theorem changeContent_eq {change : Content → Except Exn (Content × Bool)} {c : Content} {changed : Bool}
    (hchange : change s.content = .ok (c, changed)) (notifyListeners : Bool) :
    s.changeContent change notifyListeners
      = .done (if changed && notifyListeners then markInvalid { s with content := c } else { s with content := c }) := by
  unfold TextInputControl.changeContent
  rw [hchange]

theorem edit_changes (holds : s.content.Holds s.getText) {front out back : Text} (htext : s.getText = front ++ out ++ back)
    {start stop : Int} (hstart : start = front.length) (hstop : stop = front.length + out.length) (value : Text)
    (notifyListeners : Bool) :
    ∃ c₁ c₂ : Content, c₂.Holds (front ++ s.content.filter value ++ back) ∧
      (∀ x, c₂.filter x = s.content.filter x) ∧
      s.delete start stop notifyListeners = .done (if out ≠ [] ∧ notifyListeners = true
        then markInvalid { s with content := c₁ } else { s with content := c₁ }) ∧
      ∀ m : TextInputControl, m.content = c₁ → m.insert start value true = .done (if s.content.filter value ≠ []
        then markInvalid { m with content := c₂ } else { m with content := c₂ }) := by
  have hlength : front.length + out.length ≤ s.getText.length := by rw [htext]; simp
  obtain ⟨c₁, hdelete, holds₁, hfilter₁⟩ := holds.delete (show front.length ≤ front.length + out.length by omega) hlength
  have hleft : s.getText.take front.length = front := by rw [htext, List.append_assoc, List.take_left' rfl]
  have hright : s.getText.drop (front.length + out.length) = back := by
    rw [htext, ← List.length_append, List.drop_left' rfl]
  rw [hleft, hright] at holds₁
  obtain ⟨c₂, hinsert, holds₂, hfilter₂⟩ := holds₁.insert (show front.length ≤ (front ++ back).length by simp) value
  rw [List.take_left' rfl, List.drop_left' rfl, hfilter₁] at holds₂
  rw [hfilter₁, ← hstart] at hinsert
  rw [← hstart, show ((front.length + out.length : Nat) : Int) = stop by omega] at hdelete
  have hsome : front.length < front.length + out.length ↔ out ≠ [] := by
    rw [← List.length_pos_iff]
    omega
  refine ⟨c₁, c₂, holds₂, fun x => (hfilter₂ x).trans (hfilter₁ x), ?_, ?_⟩
  · unfold TextInputControl.delete
    rw [changeContent_eq hdelete]
    simp only [hsome, Bool.and_eq_true, decide_eq_true_eq]
  · intro m hm
    unfold TextInputControl.insert
    rw [← hm] at hinsert
    rw [changeContent_eq hinsert]
    simp only [Bool.and_true, decide_eq_true_eq]

theorem edit_spec (holds : s.content.Holds s.getText) (accurate : Accurate s) {front out back value : Text}
    (htext : s.getText = front ++ out ++ back) {start stop : Int} (hstart : start = front.length)
    (hstop : stop = front.length + out.length) {notifyListeners : Bool}
    (told : out ≠ [] → s.content.filter value ≠ [] ∨ notifyListeners = true) :
    ∃ s', ((s.delete start stop notifyListeners).bind fun s => s.insert start value true) = .done s' ∧
      Edited s s' (front ++ s.content.filter value ++ back) := by
  obtain ⟨c₁, c₂, holds₂, hfilter, hdelete, hinsert⟩ := edit_changes holds htext hstart hstop value notifyListeners
  rw [hdelete, Outcome.bind_done]
  by_cases first : out ≠ [] ∧ notifyListeners = true
  · rw [if_pos first, hinsert _ rfl]
    by_cases second : s.content.filter value ≠ []
    · rw [if_pos second]
      exact ⟨_, rfl, holds₂, hfilter, fun n hn => (nomatch hn), rfl, rfl, rfl, rfl,
        fun _ => (notified_markInvalid s).trans (notified_markInvalid (markInvalid s))⟩
    · rw [if_neg second]
      exact ⟨_, rfl, holds₂, hfilter, fun n hn => (nomatch hn), rfl, rfl, rfl, rfl, fun _ => notified_markInvalid s⟩
  · rw [if_neg first, hinsert _ rfl]
    by_cases second : s.content.filter value ≠ []
    · rw [if_pos second]
      exact ⟨_, rfl, holds₂, hfilter, fun n hn => (nomatch hn), rfl, rfl, rfl, rfl, fun _ => notified_markInvalid s⟩
    · have hvalue : s.content.filter value = [] := not_not.mp second
      have hout : out = [] := by
        by_contra some
        rcases told some with hnew | hnotify
        · exact hnew hvalue
        · exact first ⟨some, hnotify⟩
      have hsame : front ++ s.content.filter value ++ back = s.getText := by rw [hvalue, htext, hout]
      rw [if_neg second]
      refine ⟨_, rfl, holds₂, hfilter, ?_, rfl, rfl, rfl, rfl, fun hchanged => absurd hsame hchanged⟩
      intro n hn
      rw [hsame]
      exact accurate n hn

theorem Accurate.validateLength (h : Accurate s) : Accurate s.validateLength := by
  intro n hn
  have hn' : s.getLength = n := Option.some.inj hn
  rw [← hn', h.getLength]
  rfl

theorem delete_nothing (holds : s.content.Holds s.getText) {start : Nat} (inside : start ≤ s.getText.length)
    (notifyListeners : Bool) : s.delete start start notifyListeners = .done s := by
  obtain ⟨c, hdelete, -, -⟩ := holds.delete (le_refl start) inside
  obtain ⟨rfl, htold⟩ := Content.delete_empty hdelete
  unfold TextInputControl.delete
  rw [changeContent_eq hdelete, htold]
  rfl

theorem replaceContent_spec (holds : s.content.Holds s.getText) (accurate : Accurate s) {front out back value : Text}
    (htext : s.getText = front ++ out ++ back) {start stop : Int} (hstart : start = front.length)
    (hstop : stop = front.length + out.length) (told : out ≠ [] → value = [] ∨ s.content.filter value ≠ [])
    (anchor caret : Int) (next : Int → TextInputControl → Outcome Exn TextInputControl) :
    ∃ s', Edited s s' (front ++ s.content.filter value ++ back) ∧
      s.replaceContent start stop value anchor caret next
        = next (value.length - (s.content.filter value).length)
          (s'.doSelectRange (anchor - (value.length - (s.content.filter value).length))
            (caret - (value.length - (s.content.filter value).length))) := by
  have told' : out ≠ [] → s.validateLength.content.filter value ≠ [] ∨ value.isEmpty = true := by
    intro some
    rcases told some with hempty | hnew
    · exact Or.inr (by rw [hempty]; rfl)
    · exact Or.inl hnew
  obtain ⟨s', hcall, edited⟩ := @edit_spec s.validateLength holds accurate.validateLength _ _ _ value htext _ _ hstart
    hstop value.isEmpty told'
  have edited' : Edited s s' (front ++ s.content.filter value ++ back) :=
    ⟨edited.holds, edited.filter, edited.length, edited.history, edited.create, edited.anchor, edited.caret, edited.told⟩
  have hlen : (s.getText.length : Int) = front.length + out.length + back.length := by
    rw [htext]
    simp only [List.length_append, Nat.cast_add]
  have hdelete : (if stop ≠ start then s.validateLength.delete start stop value.isEmpty else .done s.validateLength)
      = s.validateLength.delete start stop value.isEmpty := by
    by_cases some : stop ≠ start
    · rw [if_pos some]
    · have same : stop = start := by omega
      rw [if_neg some, same, hstart]
      exact (@delete_nothing s.validateLength holds front.length (by
        show front.length ≤ s.getText.length
        omega) _).symm
  have hold : (if stop ≠ start then s.getLength - (stop - start) else s.getLength)
      = (front.length : Int) + back.length := by
    rw [accurate.getLength]
    by_cases some : stop ≠ start
    · rw [if_pos some]
      omega
    · rw [if_neg some]
      omega
  have hadjust : (value.length : Int) - (s'.getLength - ((front.length : Int) + back.length))
      = value.length - (s.content.filter value).length := by
    rw [edited'.getLength]
    simp only [List.length_append, Nat.cast_add]
    omega
  refine ⟨s', edited', ?_⟩
  unfold TextInputControl.replaceContent
  dsimp only
  rw [hdelete, hold, ← Outcome.bind_assoc, hcall, Outcome.bind_done, hadjust]
  rfl

theorem readText_spec (holds : s.content.Holds s.getText) (accurate : Accurate s) {front out back : Text}
    (htext : s.getText = front ++ out ++ back) {start stop : Int} (hstart : start = front.length)
    (hstop : stop = front.length + out.length) (next : Text → TextInputControl → Outcome Exn TextInputControl) :
    s.readText start stop next = next out s.validateLength := by
  have hlength : front.length + out.length ≤ s.getText.length := by rw [htext]; simp
  have hget := holds.get (show front.length ≤ front.length + out.length by omega) hlength
  have hread : (s.getText.drop front.length).take (front.length + out.length - front.length) = out := by
    rw [htext, List.append_assoc, List.drop_left' rfl, List.take_left' (by omega)]
  rw [hread, ← hstart, show ((front.length + out.length : Nat) : Int) = stop by omega] at hget
  unfold readText
  rw [if_neg (by omega), if_neg (by rw [accurate.getLength]; omega), hget]

theorem updateContent_spec (holds : s.content.Holds s.getText) (accurate : Accurate s) {front out back value : Text}
    (htext : s.getText = front ++ out ++ back) {start stop : Int} (hstart : start = front.length)
    (hstop : stop = front.length + out.length) (told : out ≠ [] → value = [] ∨ s.content.filter value ≠ [])
    (anchor caret : Int) (force : Bool) :
    ∃ s' a' c', Edited s s' (front ++ s.content.filter value ++ back) ∧
      s.updateContent start stop value anchor caret force = (s'.doSelectRange a' c').withRecord fun _ _ =>
        (s'.doSelectRange a' c').recordChange (decide (s.anchor ≠ s.caretPosition)) force start stop value out
          (s.content.filter value) := by
  unfold updateContent
  dsimp only
  rw [readText_spec holds accurate htext hstart hstop]
  obtain ⟨s', edited, hcall⟩ := @replaceContent_spec s.validateLength holds accurate.validateLength _ _ _ value htext _ _
    hstart hstop told anchor caret (fun adjustmentAmount m => m.withRecord fun _ _ =>
      m.readText start (start + value.length - adjustmentAmount) fun newText m =>
        m.recordChange (decide (s.anchor ≠ s.caretPosition)) force start stop value out newText)
  have edited' : Edited s s' (front ++ s.content.filter value ++ back) :=
    ⟨edited.holds, edited.filter, edited.length, edited.history, edited.create, edited.anchor, edited.caret, edited.told⟩
  refine ⟨s', anchor - (value.length - (s.content.filter value).length),
    caret - (value.length - (s.content.filter value).length), edited', ?_⟩
  rw [hcall]
  congr 1
  funext id record
  refine readText_spec (edited'.select_holds _ _) (edited'.select_accurate _ _) edited'.getText hstart ?_ _
  show start + value.length - (value.length - (s.content.filter value).length) = _
  omega

end Edit

end TextInputControl
end OpenJfx.Controls
