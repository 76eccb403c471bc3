import OpenJfx.Controls.UndoHistory

/-! # Recording an edit

An edit gets a record of its own or is merged into the current one.  When the
records still fit the text after that. -/
set_option autoImplicit false
namespace OpenJfx.Controls

open OpenJfx.Lib

namespace TextInputControl

/-- The current record can take the edit: an insertion at its end, if nothing can
be redone or nothing is inserted; or the deletion of one character, if nothing
can be redone and the record only deletes, or the character is the last of those
it inserted and not all that is left of a replacement. -/
def GoodMerge (id : Nat) (r : UndoRedoChange) (start stop : Int) (text into : Text) : Prop :=
  (start = stop ∧ (into = [] ∨ r.next = none)) ∨
  (start ≠ stop ∧ text = [] ∧ r.next = none ∧
    (r.newText = [] ∨ endOfUndoChange id r = stop ∧ (1 < r.newText.length ∨ r.oldText = [])))

instance (id : Nat) (r : UndoRedoChange) (start stop : Int) (text into : Text) :
    Decidable (GoodMerge id r start stop text into) :=
  inferInstanceAs (Decidable (_ ∧ (_ ∨ _) ∨ _ ∧ _ ∧ _ ∧ (_ ∨ _ ∧ (_ ∨ _))))

structure SameText (s s' : TextInputControl) : Prop where
  content : s'.content = s.content
  length : s'.length = s.length
  anchor : s'.anchor = s.anchor
  caret : s'.caretPosition = s.caretPosition
  create : s'.createNewUndoRecord = s.createNewUndoRecord
  notified : s'.notified = s.notified

structure Chained (base : Text) (accepts : Nat → Bool) (s : TextInputControl) (t : Text) : Prop where
  chain : ∃ depth id r, History.At s.history id r ∧ Past s.changes base accepts depth id t ∧ Future s.changes accepts id t

section Chains
variable {changes : List UndoRedoChange} {base t : Text} {accepts : Nat → Bool} {depth id : Nat} {r : UndoRedoChange}

theorem Past.cut (h : Past changes base accepts depth id t) (hid : id ≠ undoChangeHead) (hr : changes[id]? = some r) :
    ∃ depth' p rp front back, r.prev = some p ∧ p < id ∧ changes[p]? = some rp ∧ rp.next = some id ∧
      r.start = front.length ∧ Valid accepts r.oldText ∧ Valid accepts r.newText ∧ depth = depth' + 1 ∧
      t = front ++ r.newText ++ back ∧ Past changes base accepts depth' p (front ++ r.oldText ++ back) := by
  cases h with
  | head => exact absurd rfl hid
  | @record depth' _ p r' rp front back _ hr' hprev hlt hp hnext hstart hold hnew below =>
    rw [hr] at hr'
    cases hr'
    exact ⟨depth', p, rp, front, back, hprev, hlt, hp, hnext, hstart, hold, hnew, rfl, rfl, below⟩

theorem Past.not_head (h : Past changes base accepts (depth + 1) id t) : id ≠ undoChangeHead := by
  cases h with
  | record hid _ _ _ _ _ _ _ _ _ => exact hid

theorem Past.at_head (h : Past changes base accepts 0 id t) : id = undoChangeHead ∧ t = base := by
  cases h with
  | head => exact ⟨rfl, rfl⟩

theorem Future.cut {n : Nat} (h : Future changes accepts id t) (hr : changes[id]? = some r) (hnext : r.next = some n) :
    ∃ rn front back, id < n ∧ changes[n]? = some rn ∧ rn.prev = some id ∧ rn.start = front.length ∧
      Valid accepts rn.oldText ∧ Valid accepts rn.newText ∧ t = front ++ rn.oldText ++ back ∧
      Future changes accepts n (front ++ rn.newText ++ back) := by
  cases h with
  | last hr' hnone =>
    rw [hr] at hr'
    cases hr'
    rw [hnext] at hnone
    cases hnone
  | @record _ n' r' rn front back hr' hnext' hlt hn hprev hstart hold hnew above =>
    rw [hr] at hr'
    cases hr'
    rw [hnext] at hnext'
    cases hnext'
    exact ⟨rn, front, back, hlt, hn, hprev, hstart, hold, hnew, rfl, above⟩

theorem Past.set {p : Nat} {rp r' : UndoRedoChange} {front back : Text} (hid : id ≠ undoChangeHead)
    (hr : changes[id]? = some r) (hprev : r'.prev = some p) (hlt : p < id) (hp : changes[p]? = some rp)
    (hnext : rp.next = some id) (hstart : r'.start = front.length) (hold : Valid accepts r'.oldText)
    (hnew : Valid accepts r'.newText) (below : Past changes base accepts depth p (front ++ r'.oldText ++ back)) :
    Past (changes.set id r') base accepts (depth + 1) id (front ++ r'.newText ++ back) := by
  have hin : id < changes.length := (List.getElem?_eq_some_iff.mp hr).1
  have lower : ∀ j, j < id → (changes.set id r')[j]? = changes[j]? := by
    intro j hj
    rw [List.getElem?_set, if_neg (by omega)]
  refine .record hid (List.getElem?_set_self hin) hprev hlt ((lower p hlt).trans hp) hnext hstart hold hnew ?_
  refine below.congr (fun j hj => lower j (by omega)) fun q hq => ⟨q.next, ?_⟩
  rw [lower p hlt]
  exact hq

end Chains

section Record
variable {m : TextInputControl} {base t : Text} {accepts : Nat → Bool} {depth id : Nat} {r : UndoRedoChange}
  {front out into back : Text}

theorem add_chain (at_ : History.At m.history id r) (past : Past m.changes base accepts depth id (front ++ out ++ back))
    (hout : Valid accepts out) (hinto : Valid accepts into) (head : 0 < m.changes.length) :
    ∃ m', (m.add id r front.length out into).updateUndoRedoState = .done m' ∧ SameText m m' ∧
      Chained base accepts m' (front ++ into ++ back) := by
  have hr : m.changes[id]? = some r := at_.record
  have hin : id < m.changes.length := (List.getElem?_eq_some_iff.mp hr).1
  have hlength : (m.changes.set id { r with next := some m.changes.length }).length = m.changes.length := List.length_set
  have hget : (m.add id r front.length out into).changes[m.changes.length]?
      = some ⟨front.length, out, into, some id, none⟩ := by
    show (m.changes.set id _ ++ [_])[m.changes.length]? = _
    rw [List.getElem?_append_right (by rw [hlength])]
    simp
  have hprev : (m.add id r front.length out into).changes[id]? = some { r with next := some m.changes.length } := by
    show (m.changes.set id _ ++ [_])[id]? = _
    rw [List.getElem?_append_left (by rw [hlength]; exact hin), List.getElem?_set_self hin]
  have lower : ∀ j, j < id → (m.add id r front.length out into).changes[j]? = m.changes[j]? := by
    intro j hj
    show (m.changes.set id _ ++ [_])[j]? = _
    rw [List.getElem?_append_left (by rw [hlength]; omega), List.getElem?_set, if_neg (by omega)]
  have hne : m.changes.length ≠ undoChangeHead := by
    show m.changes.length ≠ 0
    omega
  rw [updateUndoRedoState_eq rfl hget]
  refine ⟨_, rfl, ⟨rfl, rfl, rfl, rfl, rfl, rfl⟩, ⟨depth + 1, m.changes.length, _, ⟨rfl, hget, rfl, rfl⟩, ?_, ?_⟩⟩
  · refine Past.record hne hget rfl hin hprev rfl rfl hout hinto (past.congr lower fun q hq => ?_)
    rw [hr] at hq
    cases hq
    exact ⟨_, hprev⟩
  · exact .last hget rfl

theorem setRecord_chain (depth : Nat) (at_ : History.At m.history id r) {r' : UndoRedoChange} (hnext : r'.next = none)
    (past : Past (m.changes.set id r') base accepts depth id t) :
    ∃ m', (m.setRecord id r').updateUndoRedoState = .done m' ∧ SameText m m' ∧ Chained base accepts m' t := by
  have hin : id < m.changes.length := (List.getElem?_eq_some_iff.mp at_.record).1
  have hget : (m.setRecord id r').changes[id]? = some r' := List.getElem?_set_self hin
  rw [@updateUndoRedoState_eq (m.setRecord id r') id r' at_.current hget]
  exact ⟨_, rfl, ⟨rfl, rfl, rfl, rfl, rfl, rfl⟩, ⟨depth, id, r', ⟨at_.current, hget, rfl, rfl⟩, past, .last hget hnext⟩⟩

theorem setRecord_same (at_ : History.At m.history id r) (past : Past m.changes base accepts depth id t)
    (future : Future m.changes accepts id t) {r' : UndoRedoChange} (hsame : r' = r) :
    ∃ m', (m.setRecord id r').updateUndoRedoState = .done m' ∧ SameText m m' ∧ Chained base accepts m' t := by
  have hin : id < m.changes.length := (List.getElem?_eq_some_iff.mp at_.record).1
  have hrecord : m.changes[id] = r := (List.getElem?_eq_some_iff.mp at_.record).2
  have hset : m.setRecord id r' = m := by
    unfold setRecord
    rw [hsame, ← hrecord, List.set_getElem_self hin]
  rw [hset, updateUndoRedoState_eq at_.current at_.record]
  exact ⟨_, rfl, ⟨rfl, rfl, rfl, rfl, rfl, rfl⟩, ⟨depth, id, r, ⟨at_.current, at_.record, rfl, rfl⟩, past, future⟩⟩

theorem mergeInsertion_chain (at_ : History.At m.history id r) (hid : id ≠ undoChangeHead)
    (past : Past m.changes base accepts depth id (front ++ back)) (future : Future m.changes accepts id (front ++ back))
    (hend : r.start + r.newText.length = front.length) (hinto : Valid accepts into) (good : into = [] ∨ r.next = none) :
    ∃ m', (m.setRecord id { r with newText := r.newText ++ into }).updateUndoRedoState = .done m' ∧ SameText m m' ∧
      Chained base accepts m' (front ++ into ++ back) := by
  rcases good with rfl | hnext
  · rw [List.append_nil front]
    refine setRecord_same at_ past future ?_
    rw [List.append_nil]
  · obtain ⟨depth', p, rp, front₁, back₁, hprev, hlt, hp, hpnext, hstart, hold, hnew, -, htext, below⟩ :=
      past.cut hid at_.record
    have hlength : (front₁ ++ r.newText).length = front.length := by
      rw [List.length_append]
      omega
    obtain ⟨hfront, hback⟩ := List.append_inj htext hlength.symm
    have hnew' : Valid accepts (r.newText ++ into) := valid_append.mpr ⟨hnew, hinto⟩
    refine setRecord_chain (depth' + 1) at_ hnext ?_
    rw [hfront, hback, List.append_assoc front₁]
    exact @Past.set m.changes base accepts depth' id r p rp { r with newText := r.newText ++ into } front₁ back₁ hid
      at_.record hprev hlt hp hpnext hstart hold hnew' below

theorem mergeDeletion_inserted (at_ : History.At m.history id r) (hid : id ≠ undoChangeHead)
    (past : Past m.changes base accepts depth id (front ++ out ++ back)) (hout : out.length = 1) (hnext : r.next = none)
    (hnew : r.newText ≠ []) (hend : r.start + r.newText.length = front.length + 1)
    (good : 1 < r.newText.length ∨ r.oldText = []) :
    ∃ m', (m.mergeDeletion id r front.length out).bind updateUndoRedoState = .done m' ∧ SameText m m' ∧
      Chained base accepts m' (front ++ back) := by
  obtain ⟨depth', p, rp, front₁, back₁, hprev, hlt, hp, hpnext, hstart, hvold, hvnew, -, htext, below⟩ :=
    past.cut hid at_.record
  have hin : id < m.changes.length := (List.getElem?_eq_some_iff.mp at_.record).1
  have hpos : 0 < r.newText.length := List.length_pos_iff.mpr hnew
  -- the record inserted `kept` and the character that is deleted
  obtain ⟨kept, c, hsplit⟩ : ∃ kept c, r.newText = kept ++ [c] :=
    ⟨r.newText.dropLast, r.newText.getLast hnew, (List.dropLast_append_getLast hnew).symm⟩
  have hkept : (kept.length : Int) = front.length - r.start := by
    have : r.newText.length = kept.length + 1 := by rw [hsplit]; simp
    omega
  have hfront : front = front₁ ++ kept ∧ back = back₁ := by
    have htext' : front ++ (out ++ back) = (front₁ ++ kept) ++ ([c] ++ back₁) := by
      rw [← List.append_assoc, htext, hsplit]
      simp
    obtain ⟨hfront, hrest⟩ := List.append_inj htext' (by rw [List.length_append]; omega)
    exact ⟨hfront, (List.append_inj hrest (by rw [hout]; rfl)).2⟩
  have hsub : StringBuilder.subSequence r.newText 0 (front.length - r.start) = .ok kept := by
    have := @StringBuilder.subSequence_split Nat [] kept [c] 0 (front.length - r.start) rfl (by simp [hkept])
    rw [List.nil_append, ← hsplit] at this
    exact this
  have hvkept : Valid accepts kept := by
    rw [hsplit] at hvnew
    exact (valid_append.mp hvnew).1
  unfold mergeDeletion
  rw [if_pos hpos, hsub]
  dsimp only
  by_cases hempty : kept = []
  · -- nothing is left of the record: it replaced nothing, and is thrown away
    have hold : r.oldText = [] := by
      rcases good with hlong | hold
      · rw [hsplit, hempty] at hlong
        simp at hlong
      · exact hold
    have hne : id ≠ p := by omega
    have hpin : p < m.changes.length := by omega
    have hp₁ : (m.setRecord id { r with newText := kept }).changes[p]? = some rp := by
      show (m.changes.set id _)[p]? = _
      rw [List.getElem?_set, if_neg hne]
      exact hp
    rw [if_pos hempty]
    unfold discard
    dsimp only
    rw [@withRecord_eq { m.setRecord id { r with newText := kept } with undoChange := r.prev } p rp hprev hp₁,
      Outcome.bind_done]
    have hget : ((m.changes.set id { r with newText := kept }).set p { rp with next := r.next })[p]?
        = some { rp with next := r.next } := List.getElem?_set_self (by rw [List.length_set]; exact hpin)
    rw [@updateUndoRedoState_eq _ p { rp with next := r.next } hprev hget]
    refine ⟨_, rfl, ⟨rfl, rfl, rfl, rfl, rfl, rfl⟩, ⟨depth', p, { rp with next := r.next }, ⟨hprev, hget, rfl, rfl⟩, ?_,
      .last hget hnext⟩⟩
    have hbelow : front₁ ++ r.oldText ++ back₁ = front ++ back := by
      rw [hold, hfront.1, hfront.2, hempty]
    rw [← hbelow]
    refine below.congr ?_ ?_
    · intro j hj
      show ((m.changes.set id _).set p _)[j]? = _
      rw [List.getElem?_set, if_neg (by omega), List.getElem?_set, if_neg (by omega)]
    · intro q hq
      rw [hp] at hq
      cases hq
      exact ⟨r.next, hget⟩
  · rw [if_neg hempty, Outcome.bind_done]
    refine setRecord_chain (depth' + 1) at_ hnext ?_
    rw [hfront.1, hfront.2]
    exact @Past.set m.changes base accepts depth' id r p rp { r with newText := kept } front₁ back₁ hid at_.record hprev
      hlt hp hpnext hstart hvold hvkept below

theorem mergeDeletion_deleted (at_ : History.At m.history id r) (hid : id ≠ undoChangeHead)
    (past : Past m.changes base accepts depth id (front ++ out ++ back)) (hout : out.length = 1)
    (hvout : Valid accepts out) (hnext : r.next = none) (hnew : r.newText = [])
    (hend : r.start = front.length ∨ r.start = front.length + 1) :
    ∃ m', (m.mergeDeletion id r front.length out).bind updateUndoRedoState = .done m' ∧ SameText m m' ∧
      Chained base accepts m' (front ++ back) := by
  obtain ⟨depth', p, rp, front₁, back₁, hprev, hlt, hp, hpnext, hstart, hvold, hvnew, -, htext, below⟩ :=
    past.cut hid at_.record
  have hlast : endOfUndoChange id r = r.start := by
    rw [endOfUndoChange, if_neg hid, hnew]
    simp
  unfold mergeDeletion
  rw [if_neg (by rw [hnew]; simp), hlast]
  rw [hnew, List.append_nil, List.append_assoc] at htext
  by_cases hforward : (front.length : Int) = r.start
  · -- the character behind
    obtain ⟨hfront, hback⟩ := List.append_inj htext (by omega)
    rw [if_pos hforward, Outcome.bind_done]
    refine setRecord_chain (depth' + 1) at_ hnext ?_
    have hgoal : front ++ back = front₁ ++ r.newText ++ back := by rw [hnew, List.append_nil, hfront]
    rw [hgoal]
    exact @Past.set m.changes base accepts depth' id r p rp { r with oldText := r.oldText ++ out } front₁ back hid
      at_.record hprev hlt hp hpnext hstart (valid_append.mpr ⟨hvold, hvout⟩) hvnew
      (by rw [← hback] at below; simpa using below)
  · -- the character in front
    have hbefore : r.start = front.length + 1 := by
      rcases hend with hsame | hafter
      · exact absurd hsame.symm hforward
      · exact hafter
    have htext' : (front ++ out) ++ back = front₁ ++ back₁ := by rw [List.append_assoc]; exact htext
    obtain ⟨hfront, hback⟩ := List.append_inj htext' (by rw [List.length_append]; omega)
    rw [if_neg hforward, Outcome.bind_done]
    refine setRecord_chain (depth' + 1) at_ hnext ?_
    have hgoal : front ++ back = front ++ r.newText ++ back := by rw [hnew, List.append_nil]
    rw [hgoal]
    exact @Past.set m.changes base accepts depth' id r p rp
      { r with oldText := out ++ r.oldText, start := r.start - 1 } front back hid at_.record hprev hlt hp hpnext
      (by show r.start - 1 = _; omega) (valid_append.mpr ⟨hvout, hvold⟩) hvnew
      (by rw [← hfront, ← hback] at below; simpa using below)

theorem recordChange_chain (at_ : History.At m.history id r)
    (past : Past m.changes base accepts depth id (front ++ out ++ back))
    (future : Future m.changes accepts id (front ++ out ++ back)) (hvout : Valid accepts out)
    (hinto : Valid accepts into) (nonEmpty force : Bool) {start stop : Int} (hstart : start = front.length)
    (hstop : stop = front.length + out.length) {text : Text} (htext : text = [] → into = [])
    (good : m.needsRecord nonEmpty force (endOfUndoChange id r) start stop ∨ GoodMerge id r start stop text into) :
    ∃ m', m.recordChange nonEmpty force start stop text out into = .done m' ∧ SameText m m' ∧
      Chained base accepts m' (front ++ into ++ back) := by
  have head : 0 < m.changes.length := by
    have := (List.getElem?_eq_some_iff.mp at_.record).1
    exact Nat.zero_lt_of_lt this
  unfold recordChange
  rw [withRecord_eq at_.current at_.record]
  by_cases needs : m.needsRecord nonEmpty force (endOfUndoChange id r) start stop
  · rw [if_pos needs, Outcome.bind_done, hstart]
    exact add_chain at_ past hvout hinto head
  rw [if_neg needs]
  have good := good.resolve_left needs
  unfold needsRecord at needs
  push Not at needs
  obtain ⟨-, -, hlast, -, hnear, hshort⟩ := needs
  have hid : id ≠ undoChangeHead := by
    intro hhead
    apply hlast
    rw [endOfUndoChange, if_pos hhead]
  have hend : endOfUndoChange id r = r.start + r.newText.length := by rw [endOfUndoChange, if_neg hid]
  rw [hend] at hnear
  rcases good with ⟨hsame, hgood⟩ | ⟨hdiff, hempty, hnext, hgood⟩
  · have hout : out = [] := by
      apply List.length_eq_zero_iff.mp
      omega
    subst hout
    rw [List.append_nil] at past future
    rw [if_neg (by rintro ⟨hne, -⟩; exact hne hsame), Outcome.bind_done]
    refine mergeInsertion_chain at_ hid past future ?_ hinto hgood
    by_contra other
    exact other (by have := hnear (by omega); omega)
  · have hout : out.length = 1 := by omega
    rw [if_pos ⟨hdiff, hempty⟩, htext hempty, List.append_nil, hstart]
    by_cases hnew : r.newText = []
    · refine mergeDeletion_deleted at_ hid past hout hvout hnext hnew ?_
      rw [hnew] at hnear
      simp only [List.length_nil, Nat.cast_zero, Int.add_zero] at hnear
      by_cases here : r.start = start
      · exact Or.inl (by omega)
      · exact Or.inr (by have := hnear here; omega)
    · obtain ⟨hstop', hlong⟩ := hgood.resolve_left hnew
      rw [hend] at hstop'
      exact mergeDeletion_inserted at_ hid past hout hnext hnew (by omega) hlong

end Record

end TextInputControl
end OpenJfx.Controls
