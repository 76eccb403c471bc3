import OpenJfx.Controls.UndoMerge

/-! # Runs of edits, undo and redo

From the last `setText` on, every edit that gets a record of its own or that the
current record can take keeps the chain of records in step with the text.  From
that, undo and redo are inverse. -/
set_option autoImplicit false
namespace OpenJfx.Controls

open OpenJfx.Lib

namespace TextInputControl

/-! ## Calls -/

/-- An edit or a move through the history; `insertText` and `deleteText` are
`replaceText` with an empty range or an empty text. -/
inductive EditCall where
  | replaceText (start stop : Int) (text : Text)
  | undo
  | redo
deriving DecidableEq, Repr

def EditCall.perform : EditCall → TextInputControl → Outcome Exn TextInputControl
  | .replaceText start stop text => TextInputControl.replaceText start stop text
  | .undo => TextInputControl.undo
  | .redo => TextInputControl.redo

def current (s : TextInputControl) : Option (Nat × UndoRedoChange) :=
  s.undoChange.bind fun id => (s.changes[id]?).map fun r => (id, r)

def Legal (s : TextInputControl) (start stop : Int) : Prop := 0 ≤ start ∧ start ≤ stop ∧ stop ≤ s.getLength

instance (s : TextInputControl) (start stop : Int) : Decidable (s.Legal start stop) :=
  inferInstanceAs (Decidable (_ ∧ _ ∧ _))

/-- A range is not replaced by a text of which the filter leaves nothing, and the
edit gets a record of its own or the current record can take it. -/
def GoodEdit (s : TextInputControl) (start stop : Int) (text : Text) : Prop :=
  (start < stop → text ≠ [] → s.content.filter text ≠ []) ∧
  ∀ c ∈ s.current,
    s.needsRecord (decide (s.anchor ≠ s.caretPosition)) (decide (s.getLength = 0)) (endOfUndoChange c.1 c.2) start stop ∨
    GoodMerge c.1 c.2 start stop text (s.content.filter text)

instance (s : TextInputControl) (start stop : Int) (text : Text) : Decidable (s.GoodEdit start stop text) :=
  inferInstanceAs (Decidable (_ ∧ _))

/-- The condition on a call and the state before it. -/
def Good : EditCall → TextInputControl → Prop
  | .replaceText start stop text, s => s.Legal start stop → s.GoodEdit start stop text
  | .undo, _ => True
  | .redo, _ => True

instance : ∀ (e : EditCall) (s : TextInputControl), Decidable (Good e s)
  | .replaceText start stop text, s => inferInstanceAs (Decidable (s.Legal start stop → s.GoodEdit start stop text))
  | .undo, _ => isTrue trivial
  | .redo, _ => isTrue trivial

/-! ## The invariant -/

/-- The records fit the text: `depth` of them can be undone, down to the text
`base`. -/
structure Standing (accepts : Nat → Bool) (base : Text) (s : TextInputControl) (depth id : Nat) : Prop where
  holds : s.content.Holds s.getText
  filter : ∀ x, s.content.filter x = x.filter accepts
  valid : Valid accepts s.getText
  accurate : Accurate s
  flags : ∃ r, History.At s.history id r
  past : Past s.changes base accepts depth id s.getText
  future : Future s.changes accepts id s.getText

section Standing
variable {accepts : Nat → Bool} {base : Text} {s : TextInputControl} {depth id : Nat}

theorem After.standing {s' : TextInputControl} {t : Text} (h : Standing accepts base s depth id) (after : After s s' t)
    (valid : Valid accepts t) (chained : Chained base accepts s' t) :
    ∃ depth' id', Standing accepts base s' depth' id' := by
  obtain ⟨depth', id', r, at_, past, future⟩ := chained.chain
  have htext := after.getText
  refine ⟨depth', id', ?_, fun x => (after.filter x).trans (h.filter x), ?_, after.accurate, ⟨r, at_⟩, ?_, ?_⟩
  · rw [htext]; exact after.holds
  · rw [htext]; exact valid
  · rw [htext]; exact past
  · rw [htext]; exact future

theorem exists_range {t : Text} {start stop : Int} (low : 0 ≤ start) (order : start ≤ stop) (high : stop ≤ t.length) :
    ∃ front out back : Text, t = front ++ out ++ back ∧ start = front.length ∧ stop = front.length + out.length := by
  refine ⟨t.take start.toNat, (t.drop start.toNat).take (stop.toNat - start.toNat), t.drop stop.toNat, ?_, ?_, ?_⟩
  · have hback : t.drop stop.toNat = (t.drop start.toNat).drop (stop.toNat - start.toNat) := by
      rw [List.drop_drop]
      congr 1
      omega
    rw [hback, List.append_assoc, List.take_append_drop, List.take_append_drop]
  · rw [List.length_take]
    omega
  · rw [List.length_take, List.length_take, List.length_drop]
    omega

theorem needsRecord_congr {m : TextInputControl} (h : m.createNewUndoRecord = s.createNewUndoRecord)
    (nonEmpty force : Bool) (last start stop : Int) :
    m.needsRecord nonEmpty force last start stop ↔ s.needsRecord nonEmpty force last start stop := by
  unfold needsRecord
  rw [h]

theorem Standing.replaceText (h : Standing accepts base s depth id) {start stop : Int} {text : Text}
    (legal : s.Legal start stop) (good : s.GoodEdit start stop text) :
    ∃ s', s.replaceText start stop text = .done s' ∧
      After s s' (s.getText.take start.toNat ++ s.content.filter text ++ s.getText.drop stop.toNat) ∧ InRange s' ∧
      ∃ depth' id', Standing accepts base s' depth' id' := by
  obtain ⟨low, order, high⟩ := legal
  rw [h.accurate.getLength] at high
  obtain ⟨r, at_⟩ := h.flags
  have hcurrent : s.current = some (id, r) := by
    unfold current
    rw [show s.undoChange = some id from at_.current, Option.bind_some, show s.changes[id]? = some r from at_.record]
    rfl
  have hgood := good.2 (id, r) (by rw [hcurrent]; rfl)
  obtain ⟨front, out, back, htext, hstart, hstop⟩ := exists_range low order high
  have hleft : s.getText.take start.toNat = front := by
    rw [htext, List.append_assoc, List.take_left' (by omega)]
  have hright : s.getText.drop stop.toNat = back := by
    rw [htext, List.drop_left' (by rw [List.length_append]; omega)]
  have hvalid := h.valid
  rw [htext, valid_append, valid_append] at hvalid
  obtain ⟨⟨hvfront, hvout⟩, hvback⟩ := hvalid
  have told : out ≠ [] → text = [] ∨ s.content.filter text ≠ [] := by
    intro some
    by_cases hempty : text = []
    · exact Or.inl hempty
    · have := List.length_pos_iff.mpr some
      exact Or.inr (good.1 (by omega) hempty)
  obtain ⟨s₁, a, c, edited, hcall⟩ := @updateContent_spec s.validateLength h.holds h.accurate.validateLength front out back
    text htext start stop hstart hstop told (start + text.length) (start + text.length) (decide (s.getLength = 0))
  have hchanges : s₁.changes = s.changes := edited.changes
  have at₁ : History.At (s₁.doSelectRange a c).history id r :=
    ⟨edited.undoChange.trans at_.current, by show s₁.changes[id]? = _; rw [hchanges]; exact at_.record,
      (congrArg History.undoable edited.history).trans at_.undoable,
      (congrArg History.redoable edited.history).trans at_.redoable⟩
  have hvinto : Valid accepts (s.content.filter text) := by
    rw [h.filter]
    exact valid_filter text
  have past := h.past
  have future := h.future
  rw [htext, ← hchanges] at past future
  have hfilter : text = [] → s.content.filter text = [] := by
    intro hempty
    rw [hempty, h.filter]
    rfl
  obtain ⟨s', hrecord, same, chained⟩ := recordChange_chain at₁ past future hvout hvinto
    (decide (s.anchor ≠ s.caretPosition)) (decide (s.getLength = 0)) hstart hstop hfilter
    (hgood.imp_left (needsRecord_congr edited.create _ _ _ _ _).mpr)
  have edited' : Edited s s₁ (front ++ s.content.filter text ++ back) :=
    ⟨edited.holds, edited.filter, edited.length, edited.history, edited.create, edited.anchor, edited.caret, edited.told⟩
  have after : After s s' (front ++ s.content.filter text ++ back) :=
    edited'.after a c same.content same.length same.create same.notified
  have hdone : s.replaceText start stop text = .done s' := by
    unfold TextInputControl.replaceText
    rw [if_neg (by omega), if_neg (by rw [h.accurate.getLength]; omega), hcall, withRecord_eq at₁.current at₁.record]
    exact hrecord
  rw [hleft, hright]
  refine ⟨s', hdone, after, edited'.inRange a c same.content same.anchor same.caret, after.standing h ?_ chained⟩
  exact valid_append.mpr ⟨valid_append.mpr ⟨hvfront, hvinto⟩, hvback⟩

theorem replaceText_illegal {start stop : Int} {text : Text} (illegal : ¬ s.Legal start stop) :
    ∃ x s', s.replaceText start stop text = .thrown x s' ∧ (s' = s ∨ s' = s.validateLength) := by
  unfold TextInputControl.replaceText
  by_cases order : stop < start
  · rw [if_pos order]
    exact ⟨_, s, rfl, Or.inl rfl⟩
  · have outside : start < 0 ∨ s.getLength < stop := by
      by_contra inside
      exact illegal ⟨by omega, by omega, by omega⟩
    rw [if_neg order, if_pos outside]
    exact ⟨_, s.validateLength, rfl, Or.inr rfl⟩

theorem Standing.validateLength (h : Standing accepts base s depth id) :
    Standing accepts base s.validateLength depth id :=
  ⟨h.holds, h.filter, h.valid, h.accurate.validateLength, h.flags, h.past, h.future⟩

/-- One step down: the record is undone, and redoing it from the same text leads back. -/
theorem Standing.undo (h : Standing accepts base s (depth + 1) id) :
    ∃ s' p, s.undo = .done s' ∧ After s s' s'.getText ∧ InRange s' ∧ Standing accepts base s' depth p ∧
      s'.changes = s.changes ∧
      ∀ u, Standing accepts base u depth p → u.changes = s.changes → u.getText = s'.getText →
        ∃ u', u.redo = .done u' ∧ Standing accepts base u' (depth + 1) id ∧ u'.changes = s.changes ∧
          u'.getText = s.getText := by
  obtain ⟨r, at_⟩ := h.flags
  have hid := h.past.not_head
  obtain ⟨depth', p, rp, front, back, hprev, hlt, hp, hnext, hstart, hvold, hvnew, hdepth, htext, below⟩ :=
    h.past.cut hid at_.record
  cases hdepth
  have hold : s.content.filter r.oldText = r.oldText := by
    rw [h.filter]
    exact hvold.filter
  obtain ⟨s', hundo, after, at', hchanges, inRange⟩ := undo_spec h.holds h.accurate at_ hid hprev hp htext hstart hold
  have htext' := after.getText
  have hvalid := h.valid
  rw [htext, valid_append, valid_append] at hvalid
  obtain ⟨⟨hvfront, -⟩, hvback⟩ := hvalid
  have future := h.future
  rw [htext] at future
  refine ⟨s', p, hundo, by rw [htext']; exact after, inRange, ⟨?_, fun x => (after.filter x).trans (h.filter x), ?_,
    after.accurate, ⟨rp, at'⟩, ?_, ?_⟩, hchanges, ?_⟩
  · rw [htext']; exact after.holds
  · rw [htext']
    exact valid_append.mpr ⟨valid_append.mpr ⟨hvfront, hvold⟩, hvback⟩
  · rw [htext', hchanges]; exact below
  · rw [htext', hchanges]
    exact .record hp hnext hlt at_.record hprev hstart hvold hvnew future
  · intro u hu huchanges hutext
    obtain ⟨ru, atu⟩ := hu.flags
    have hru : ru = rp := by
      have := atu.record
      rw [show u.history.changes = u.changes from rfl, huchanges, hp] at this
      exact (Option.some.inj this).symm
    subst hru
    have hnew : u.content.filter r.newText = r.newText := by
      rw [hu.filter]
      exact hvnew.filter
    obtain ⟨u', hredo, afteru, atu', hchangesu, -⟩ := redo_spec hu.holds hu.accurate atu hnext
      (by rw [huchanges]; exact at_.record) (hutext.trans htext') hstart hnew
    have htextu : u'.getText = s.getText := afteru.getText.trans htext.symm
    refine ⟨u', hredo, ⟨?_, fun x => (afteru.filter x).trans (hu.filter x), ?_, afteru.accurate, ⟨r, atu'⟩, ?_, ?_⟩,
      hchangesu.trans huchanges, htextu⟩
    · rw [afteru.getText]; exact afteru.holds
    · rw [htextu]; exact h.valid
    · rw [htextu, hchangesu, huchanges]; exact h.past
    · rw [htextu, hchangesu, huchanges]; exact h.future

theorem Standing.undo_head (h : Standing accepts base s 0 id) :
    s.undo = .done s ∧ s.undoable = false ∧ s.getText = base := by
  obtain ⟨r, at_⟩ := h.flags
  obtain ⟨hid, htext⟩ := h.past.at_head
  refine ⟨TextInputControl.undo_head at_ hid, ?_, htext⟩
  rw [show s.undoable = _ from at_.undoable, hid]
  simp

theorem Standing.undoable (h : Standing accepts base s (depth + 1) id) : s.undoable = true := by
  obtain ⟨r, at_⟩ := h.flags
  rw [show s.undoable = _ from at_.undoable]
  simpa using h.past.not_head

theorem Standing.redo (h : Standing accepts base s depth id) :
    ∃ s', s.redo = .done s' ∧ After s s' s'.getText ∧ (InRange s → InRange s') ∧
      ∃ depth' id', Standing accepts base s' depth' id' := by
  obtain ⟨r, at_⟩ := h.flags
  have same : After s s s.getText := ⟨h.holds, fun _ => rfl, h.accurate, rfl, fun other => absurd rfl other⟩
  cases hnext : r.next with
  | none => exact ⟨s, redo_last at_ hnext, same, fun inRange => inRange, depth, id, h⟩
  | some n =>
    obtain ⟨rn, front, back, hlt, hn, hprev, hstart, hvold, hvnew, htext, above⟩ := h.future.cut at_.record hnext
    have hnew : s.content.filter rn.newText = rn.newText := by
      rw [h.filter]
      exact hvnew.filter
    obtain ⟨s', hredo, after, at', hchanges, inRange⟩ := redo_spec h.holds h.accurate at_ hnext hn htext hstart hnew
    have htext' := after.getText
    have hvalid := h.valid
    rw [htext, valid_append, valid_append] at hvalid
    obtain ⟨⟨hvfront, -⟩, hvback⟩ := hvalid
    have past := h.past
    rw [htext] at past
    have hhead : n ≠ undoChangeHead := by
      show n ≠ 0
      omega
    refine ⟨s', hredo, by rw [htext']; exact after, fun _ => inRange, depth + 1, n, ?_,
      fun x => (after.filter x).trans (h.filter x), ?_, after.accurate, ⟨rn, at'⟩, ?_, ?_⟩
    · rw [htext']; exact after.holds
    · rw [htext']
      exact valid_append.mpr ⟨valid_append.mpr ⟨hvfront, hvnew⟩, hvback⟩
    · rw [htext', hchanges]
      exact .record hhead hn hprev hlt at_.record hnext hstart hvold hvnew past
    · rw [htext', hchanges]; exact above

/-! ## Undo and redo are inverse -/

theorem Standing.undo_redo (n : Nat) (h : Standing accepts base s depth id) (hle : n ≤ depth) :
    ∃ t idt, Outcome.run move (List.replicate n .undo) s = .done t ∧ Standing accepts base t (depth - n) idt ∧
      ∃ u, Outcome.run move (List.replicate n .redo) t = .done u ∧ Standing accepts base u depth id ∧
        u.changes = s.changes ∧ u.getText = s.getText := by
  induction n generalizing s depth id with
  | zero => exact ⟨s, id, rfl, h, s, rfl, h, rfl, rfl⟩
  | succ n ih =>
    obtain ⟨depth, rfl⟩ : ∃ d, depth = d + 1 := ⟨depth - 1, by omega⟩
    obtain ⟨s', p, hundo, -, -, h', hchanges, hback⟩ := h.undo
    obtain ⟨t, idt, hundos, ht, u, hredos, hu, huchanges, hutext⟩ := ih h' (by omega)
    obtain ⟨u', hredo, hu', hchanges', htext'⟩ := hback u hu (huchanges.trans hchanges) hutext
    refine ⟨t, idt, ?_, by rw [Nat.add_sub_add_right]; exact ht, u', ?_, hu', hchanges', htext'⟩
    · rw [List.replicate_succ, Outcome.run_cons, show move .undo s = s.undo from rfl, hundo, Outcome.bind_done, hundos]
    · rw [List.replicate_succ', Outcome.run_append, hredos, Outcome.bind_done, Outcome.run_cons,
        show move .redo u = u.redo from rfl, hredo]
      rfl

/-- Undo and redo do not throw; a number of undos leads to the text `base`, where
nothing can be undone; and redoing as often as one has undone leads back. -/
structure Reversible (base : Text) (s : TextInputControl) : Prop where
  undo : ∃ t, s.undo = .done t
  redo : ∃ t, s.redo = .done t
  inverse : ∃ depth, ∀ n ≤ depth, ∃ t, Outcome.run move (List.replicate n .undo) s = .done t ∧
    t.undoable = decide (n < depth) ∧ (n = depth → t.getText = base) ∧
    ∃ u, Outcome.run move (List.replicate n .redo) t = .done u ∧ u.getText = s.getText

theorem Standing.reversible (h : Standing accepts base s depth id) : Reversible base s := by
  refine ⟨?_, ?_, depth, ?_⟩
  · cases depth with
    | zero => exact ⟨s, h.undo_head.1⟩
    | succ depth =>
      obtain ⟨s', p, hundo, -⟩ := h.undo
      exact ⟨s', hundo⟩
  · obtain ⟨s', hredo, -⟩ := h.redo
    exact ⟨s', hredo⟩
  · intro n hle
    obtain ⟨t, idt, hundos, ht, u, hredos, -, -, hutext⟩ := h.undo_redo n hle
    refine ⟨t, hundos, ?_, ?_, u, hredos, hutext⟩
    · by_cases last : n = depth
      · rw [last, Nat.sub_self] at ht
        rw [ht.undo_head.2.1, last]
        simp
      · obtain ⟨k, hk⟩ : ∃ k, depth - n = k + 1 := ⟨depth - n - 1, by omega⟩
        rw [hk] at ht
        rw [ht.undoable]
        simp
        omega
    · intro last
      rw [last, Nat.sub_self] at ht
      exact ht.undo_head.2.2

end Standing

/-! ## `setText` -/

section SetText
variable {s : TextInputControl}

theorem resetUndoRedoState_spec {m : TextInputControl} (head : 0 < m.changes.length) (accepts : Nat → Bool) (t : Text) :
    ∃ m', m.resetUndoRedoState = .done m' ∧ SameText m m' ∧ Chained t accepts m' t := by
  obtain ⟨r, hr⟩ : ∃ r, m.changes[undoChangeHead]? = some r := ⟨_, List.getElem?_eq_getElem head⟩
  have hget : (m.changes.set undoChangeHead { r with next := none })[undoChangeHead]? = some { r with next := none } :=
    List.getElem?_set_self head
  unfold resetUndoRedoState
  dsimp only
  rw [@withRecord_eq { m with undoChange := some undoChangeHead } undoChangeHead r rfl hr,
    @updateUndoRedoState_eq (TextInputControl.setRecord undoChangeHead { r with next := none }
      { m with undoChange := some undoChangeHead }) undoChangeHead { r with next := none } rfl hget]
  exact ⟨_, rfl, ⟨rfl, rfl, rfl, rfl, rfl, rfl⟩,
    ⟨0, undoChangeHead, { r with next := none }, ⟨rfl, hget, rfl, rfl⟩, .head, .last hget rfl⟩⟩

theorem changeContent_done {change : Content → Except Exn (Content × Bool)} {c : Content} {changed : Bool}
    (hchange : change s.content = .ok (c, changed)) (notifyListeners : Bool) :
    ∃ s', s.changeContent change notifyListeners = .done s' ∧ s'.content = c ∧ s'.changes = s.changes := by
  rw [changeContent_eq hchange]
  by_cases told : (changed && notifyListeners) = true
  · rw [if_pos told]
    exact ⟨_, rfl, rfl, rfl⟩
  · rw [if_neg told]
    exact ⟨_, rfl, rfl, rfl⟩

theorem setText_spec (holds : s.content.Holds s.getText) (head : 0 < s.changes.length) (value : Text) :
    ∃ s' depth id, s.setText value = .done s' ∧ s'.getText = s.content.filter value ∧
      Standing s.content.accepts (s.content.filter value) s' depth id := by
  have hlength := holds.length
  -- the whole text is deleted
  obtain ⟨s₁, hdelete, holds₁, hfilter₁, hchanges₁⟩ : ∃ s₁ : TextInputControl,
      (if s.content.length ≠ 0 then s.validateLength.delete 0 s.content.length value.isEmpty else .done s.validateLength)
        = .done s₁ ∧ s₁.content.Holds [] ∧ (∀ x, s₁.content.filter x = s.content.filter x) ∧ s₁.changes = s.changes := by
    by_cases some : s.content.length ≠ 0
    · obtain ⟨c, hcall, hc, hfilter⟩ := holds.delete (Nat.zero_le s.getText.length) le_rfl
      rw [← hlength] at hcall
      obtain ⟨s₁, hdone, hcontent, hchanges⟩ := @changeContent_done s.validateLength _ c _ hcall value.isEmpty
      refine ⟨s₁, by rw [if_pos some]; exact hdone, ?_, ?_, hchanges⟩
      · rw [hcontent]
        simpa using hc
      · rw [hcontent]
        exact hfilter
    · refine ⟨s.validateLength, by rw [if_neg some], ?_, fun _ => rfl, rfl⟩
      have hempty : s.getText = [] := List.length_eq_zero_iff.mp (by omega)
      rw [hempty] at holds
      exact holds
  obtain ⟨c₂, hcall₂, holds₂, hfilter₂⟩ := holds₁.insert (Nat.zero_le _) value
  obtain ⟨s₂, hinsert, hcontent₂, hchanges₂⟩ := @changeContent_done s₁ _ c₂ _ hcall₂ true
  have htext : (([] : Text).take 0 ++ s₁.content.filter value ++ ([] : Text).drop 0) = s.content.filter value := by
    rw [hfilter₁]
    simp
  rw [htext, ← hcontent₂] at holds₂
  have hinsert' : s₁.insert 0 value true = .done s₂ := hinsert
  unfold setText replaceContent
  dsimp only
  rw [hdelete, Outcome.bind_done, hinsert', Outcome.bind_done]
  generalize hm : s₂.validateLength.doSelectRange _ _ = m
  have hcontent : m.content = s₂.content := by rw [← hm]; rfl
  have hchanges : m.changes = s.changes := by rw [← hm]; exact hchanges₂.trans hchanges₁
  obtain ⟨m', hreset, same, chained⟩ := resetUndoRedoState_spec (by rw [hchanges]; exact head) s.content.accepts
    (s.content.filter value)
  rw [hreset, Outcome.bind_done]
  obtain ⟨depth, id, r, at_, past, future⟩ := chained.chain
  have hcontent' : m'.markInvalid.content = s₂.content := same.content.trans hcontent
  rw [← hcontent'] at holds₂
  have htext' : m'.markInvalid.getText = s.content.filter value := holds₂.value
  have hfilter : ∀ x, m'.markInvalid.content.filter x = s.content.filter x := by
    intro x
    rw [hcontent', hcontent₂, hfilter₂, hfilter₁]
  refine ⟨m'.markInvalid, depth, id, rfl, htext', ?_, ?_, ?_, fun n hn => (nomatch hn), ⟨r, at_⟩, ?_, ?_⟩
  · rw [htext']; exact holds₂
  · intro x
    rw [hfilter, Content.filter_eq]
  · rw [htext', Content.filter_eq]
    exact valid_filter value
  · rw [htext']; exact past
  · rw [htext']; exact future

end SetText

/-! ## Runs -/

def edit (e : EditCall) (s : TextInputControl) : TextInputControl := (e.perform s).state

theorem Standing.edit {accepts : Nat → Bool} {base : Text} {s : TextInputControl} {depth id : Nat}
    (h : Standing accepts base s depth id) (e : EditCall) (good : Good e s) :
    ∃ depth' id', Standing accepts base (s.edit e) depth' id' := by
  cases e with
  | replaceText start stop text =>
    show ∃ depth' id', Standing accepts base (s.replaceText start stop text).state depth' id'
    by_cases legal : s.Legal start stop
    · obtain ⟨s', hcall, -, -, h'⟩ := h.replaceText legal (good legal)
      rw [hcall]
      exact h'
    · obtain ⟨x, s', hcall, rfl | rfl⟩ := @replaceText_illegal s start stop text legal
      · rw [hcall]
        exact ⟨depth, id, h⟩
      · rw [hcall]
        exact ⟨depth, id, h.validateLength⟩
  | undo =>
    show ∃ depth' id', Standing accepts base s.undo.state depth' id'
    cases depth with
    | zero =>
      rw [h.undo_head.1]
      exact ⟨0, id, h⟩
    | succ depth =>
      obtain ⟨s', p, hundo, -, -, h', -⟩ := h.undo
      rw [hundo]
      exact ⟨depth, p, h'⟩
  | redo =>
    show ∃ depth' id', Standing accepts base s.redo.state depth' id'
    obtain ⟨s', hredo, -, -, h'⟩ := h.redo
    rw [hredo]
    exact h'

def afterCalls (isArea : Bool) (calls : List Call) : TextInputControl :=
  exec TextInputControl.call calls (create (emptyContent isArea))

/-- From a `setText` in any state that calls reach, in every run of edits, undo
and redo whose edits are good, undo and redo do not throw, undoing leads back to
the text of the `setText`, and redoing as often as one has undone leads back to
the text before. -/
theorem good_run_reversible (isArea : Bool) (before : List Call) (value : Text) (edits : List EditCall)
    (good : Guarded Good edit edits ((afterCalls isArea before).call (.setText value))) :
    ((afterCalls isArea before).call (.setText value)).getText = (afterCalls isArea before).content.filter value ∧
      Reversible ((afterCalls isArea before).content.filter value)
        (exec edit edits ((afterCalls isArea before).call (.setText value))) := by
  have reached : Reached (afterCalls isArea before) := (reached_create isArea).run before
  obtain ⟨s₀, depth, id, hset, htext, standing⟩ := setText_spec reached.holds reached.linked.head value
  have hcall : (afterCalls isArea before).call (.setText value) = s₀ := by
    show ((afterCalls isArea before).setText value).state = s₀
    rw [hset]
    rfl
  rw [hcall] at good ⊢
  have preserved : ∀ e s, (∃ depth id, Standing (afterCalls isArea before).content.accepts
      ((afterCalls isArea before).content.filter value) s depth id) → Good e s →
      ∃ depth id, Standing (afterCalls isArea before).content.accepts
        ((afterCalls isArea before).content.filter value) (s.edit e) depth id := by
    intro e s h hgood
    obtain ⟨depth, id, h⟩ := h
    exact h.edit e hgood
  obtain ⟨depth', id', standing'⟩ := exec_invariant preserved ⟨depth, id, standing⟩ good
  exact ⟨htext, standing'.reversible⟩

/-- `x` and `y` are typed in front of `ab`, `y` is deleted, all is undone and
redone, and the last two characters are replaced. -/
theorem good_run_reversible_typing :
    (exec edit [.replaceText 0 0 [120], .replaceText 1 1 [121], .replaceText 1 2 [], .undo, .redo, .replaceText 1 3 [122]]
        ((afterCalls false []).call (.setText [97, 98]))).getText = [120, 122] ∧
      Reversible [97, 98] (exec edit
        [.replaceText 0 0 [120], .replaceText 1 1 [121], .replaceText 1 2 [], .undo, .redo, .replaceText 1 3 [122]]
        ((afterCalls false []).call (.setText [97, 98]))) :=
  ⟨by decide +kernel, (good_run_reversible false [] [97, 98]
    [.replaceText 0 0 [120], .replaceText 1 1 [121], .replaceText 1 2 [], .undo, .redo, .replaceText 1 3 [122]]
    (by decide +kernel)).2⟩

/-- `x` is typed in front of `ab` and the `a` behind it deleted: the deletion is
merged into the record of the insertion and its character is lost. -/
def forwardDeletion : TextInputControl :=
  exec edit [.replaceText 0 0 [120], .replaceText 1 2 []] ((afterCalls false []).call (.setText [97, 98]))

theorem forward_deletion_lost :
    forwardDeletion.getText = [120, 98] ∧ forwardDeletion.undoable = true ∧
      forwardDeletion.undo.state.undoable = false ∧ forwardDeletion.undo.state.getText = [98] ∧
      ¬ Reversible [97, 98] forwardDeletion := by
  have hundo : forwardDeletion.undo = .done forwardDeletion.undo.state := by decide +kernel
  refine ⟨by decide +kernel, by decide +kernel, by decide +kernel, by decide +kernel, ?_⟩
  intro reversible
  obtain ⟨depth, inverse⟩ := reversible.inverse
  obtain ⟨t₀, hrun₀, hundoable₀, -⟩ := inverse 0 (Nat.zero_le _)
  have hpos : 0 < depth := by
    have ht₀ : t₀ = forwardDeletion := (Outcome.done.inj hrun₀).symm
    rw [ht₀, show forwardDeletion.undoable = true by decide +kernel] at hundoable₀
    exact of_decide_eq_true hundoable₀.symm
  obtain ⟨t₁, hrun₁, hundoable₁, hbase₁, -⟩ := inverse 1 hpos
  have ht₁ : t₁ = forwardDeletion.undo.state := by
    have hrun : Outcome.run move [.undo] forwardDeletion = .done forwardDeletion.undo.state := by
      rw [Outcome.run_cons, show move .undo forwardDeletion = forwardDeletion.undo from rfl, hundo]
      rfl
    exact Outcome.done.inj (hrun₁.symm.trans hrun)
  have hdepth : 1 = depth := by
    rw [ht₁, show forwardDeletion.undo.state.undoable = false by decide +kernel] at hundoable₁
    have := of_decide_eq_false hundoable₁.symm
    omega
  have hbase := hbase₁ hdepth
  rw [ht₁, show forwardDeletion.undo.state.getText = [98] by decide +kernel] at hbase
  cases hbase

end TextInputControl
end OpenJfx.Controls
