import OpenJfx.Controls.UndoMachine

/-! # A history with an empty record on top

An empty record behind the current one changes no text, but it takes one `undo`
to pass it and it cuts what could be redone.  The history with the record is
simulated by the one without: the moves onto the record and off it are dropped. -/
set_option autoImplicit false
namespace OpenJfx.Controls

open OpenJfx.Lib

namespace History

structure At (h : History) (id : Nat) (r : UndoRedoChange) : Prop where
  current : h.undoChange = some id
  record : h.changes[id]? = some r
  undoable : h.undoable = decide (id ≠ TextInputControl.undoChangeHead)
  redoable : h.redoable = r.next.isSome

/-! ## Moves at a record -/

section Moves
variable {h : History} {id : Nat} {r : UndoRedoChange}

/-- `replace` on the content alone. -/
def swap (start : Int) (out into : Text) (c : Content) : Outcome Exn Content :=
  match c.delete start (start + out.length) with
  | .error x => .thrown x c
  | .ok (c, _) =>
      match c.insert start into with
      | .error x => .thrown x c
      | .ok (c, _) => .done c

theorem replace_eq (h : History) (start : Int) (out into : Text) :
    h.replace start out into = (swap start out into h.content).map fun c => { h with content := c } := by
  unfold replace swap changeContent
  cases h.content.delete start (start + out.length) with
  | error x => rfl
  | ok result =>
    obtain ⟨c, told⟩ := result
    dsimp only
    rw [Outcome.bind_done]
    dsimp only
    cases c.insert start into with
    | error x => rfl
    | ok result => rfl

theorem swap_empty (start : Int) (c : Content) : (swap start [] [] c).state = c := by
  unfold swap
  simp only [List.length_nil, Nat.cast_zero, Int.add_zero]
  cases hdelete : c.delete start start with
  | error x => rfl
  | ok result =>
    obtain ⟨c₁, told⟩ := result
    obtain ⟨rfl, -⟩ := Content.delete_empty hdelete
    dsimp only
    cases hinsert : c₁.insert start [] with
    | error x => rfl
    | ok result =>
      obtain ⟨c₂, told₂⟩ := result
      obtain ⟨rfl, -⟩ := Content.insert_nil hinsert
      rfl

theorem updateUndoRedoState_eq (hid : h.undoChange = some id) (hr : h.changes[id]? = some r) :
    h.updateUndoRedoState = .done { h with
      undoable := decide (id ≠ TextInputControl.undoChangeHead)
      redoable := r.next.isSome } := by
  simp [updateUndoRedoState, withRecord, hid, hr]

theorem At.updateUndoRedoState (at_ : At h id r) : h.updateUndoRedoState = .done h := by
  rw [updateUndoRedoState_eq at_.current at_.record, ← at_.undoable, ← at_.redoable]

theorem At.undo_head (at_ : At h id r) (hid : id = TextInputControl.undoChangeHead) : h.undo = .done h := by
  unfold undo
  rw [if_neg (by rw [at_.undoable]; simp [hid]), Outcome.bind_done, at_.updateUndoRedoState]

theorem At.undo_record (at_ : At h id r) (hid : id ≠ TextInputControl.undoChangeHead) {p : Nat} {rp : UndoRedoChange}
    (hprev : r.prev = some p) (hp : h.changes[p]? = some rp) :
    h.undo = match swap r.start r.newText r.oldText h.content with
      | .thrown x c => .thrown x { h with content := c }
      | .done c => .done { h with
          content := c
          undoChange := some p
          undoable := decide (p ≠ TextInputControl.undoChangeHead)
          redoable := rp.next.isSome } := by
  have hstep : h.undo = (h.replace r.start r.newText r.oldText).bind
      fun h => History.updateUndoRedoState { h with undoChange := r.prev } := by
    unfold undo withRecord
    rw [if_pos (by rw [at_.undoable]; simp [hid]), at_.current]
    dsimp only
    rw [at_.record]
    dsimp only
    rw [if_neg hid, Outcome.bind_assoc]
    rfl
  rw [hstep, replace_eq]
  cases swap r.start r.newText r.oldText h.content with
  | thrown x c => rfl
  | done c =>
    rw [Outcome.map_done, Outcome.bind_done, hprev]
    exact updateUndoRedoState_eq rfl hp

theorem At.redo_none (at_ : At h id r) (hnext : r.next = none) : h.redo = .done h := by
  unfold redo
  rw [if_neg (by rw [at_.redoable, hnext]; simp), Outcome.bind_done, at_.updateUndoRedoState]

theorem At.redo_next (at_ : At h id r) {n : Nat} {rn : UndoRedoChange} (hnext : r.next = some n)
    (hn : h.changes[n]? = some rn) :
    h.redo = match swap rn.start rn.oldText rn.newText h.content with
      | .thrown x c => .thrown x { h with content := c, undoChange := some n }
      | .done c => .done { h with
          content := c
          undoChange := some n
          undoable := decide (n ≠ TextInputControl.undoChangeHead)
          redoable := rn.next.isSome } := by
  have hstep : h.redo = (History.replace rn.start rn.oldText rn.newText { h with undoChange := some n }).bind
      History.updateUndoRedoState := by
    unfold redo withRecord
    rw [if_pos (by rw [at_.redoable, hnext]; rfl), at_.current]
    dsimp only
    rw [at_.record]
    dsimp only
    rw [hnext]
    dsimp only
    rw [hn]
  rw [hstep, replace_eq]
  show ((swap rn.start rn.oldText rn.newText h.content).map _).bind _ = _
  cases swap rn.start rn.oldText rn.newText h.content with
  | thrown x c => rfl
  | done c =>
    rw [Outcome.map_done, Outcome.bind_done]
    exact updateUndoRedoState_eq rfl hn

end Moves

/-! ## The record on top -/

/-- The history with an empty record at `start` behind the record `id`. -/
def mark (id : Nat) (r : UndoRedoChange) (start : Int) (h : History) : History where
  content := h.content
  changes := h.changes.set id { r with next := some h.changes.length } ++ [⟨start, [], [], some id, none⟩]
  undoChange := some h.changes.length
  undoable := true
  redoable := false

/-- `new` is `old` with an empty record at `start` behind the last record `top`. -/
structure Marked (top : Nat) (rtop : UndoRedoChange) (start : Int) (old new : History) : Prop where
  linked : TextInputControl.Linked old.changes
  record : old.changes[top]? = some rtop
  last : rtop.next = none
  notHead : top ≠ TextInputControl.undoChangeHead
  changes : new.changes
    = old.changes.set top { rtop with next := some old.changes.length } ++ [⟨start, [], [], some top, none⟩]
  content : new.content = old.content

section Marked
variable {top : Nat} {rtop : UndoRedoChange} {start : Int} {old new : History}

/-- A record of the old list, in the new one. -/
def relink (top last : Nat) (id : Nat) (r : UndoRedoChange) : UndoRedoChange :=
  if id = top then { r with next := some last } else r

theorem Marked.getElem (m : Marked top rtop start old new) {id : Nat} {r : UndoRedoChange}
    (hr : old.changes[id]? = some r) : new.changes[id]? = some (relink top old.changes.length id r) := by
  have hin : id < old.changes.length := (List.getElem?_eq_some_iff.mp hr).1
  rw [m.changes, List.getElem?_append_left (by simpa using hin), List.getElem?_set]
  unfold relink
  by_cases here : top = id
  · subst here
    rw [if_pos rfl, if_pos hin, if_pos rfl]
    rw [m.record] at hr
    cases hr
    rfl
  · rw [if_neg here, if_neg (fun same => here same.symm), hr]

theorem Marked.getElem_mark (m : Marked top rtop start old new) :
    new.changes[old.changes.length]? = some ⟨start, [], [], some top, none⟩ := by
  rw [m.changes, List.getElem?_append_right (by simp)]
  simp

theorem relink_other {id last : Nat} (hne : id ≠ top) (r : UndoRedoChange) : relink top last id r = r := by
  rw [relink, if_neg hne]

theorem relink_top {last : Nat} (r : UndoRedoChange) : relink top last top r = { r with next := some last } := by
  rw [relink, if_pos rfl]

theorem relink_fields (last id : Nat) (r : UndoRedoChange) :
    (relink top last id r).start = r.start ∧ (relink top last id r).oldText = r.oldText ∧
    (relink top last id r).newText = r.newText ∧ (relink top last id r).prev = r.prev := by
  unfold relink
  by_cases here : id = top
  · rw [if_pos here]
    exact ⟨rfl, rfl, rfl, rfl⟩
  · rw [if_neg here]
    exact ⟨rfl, rfl, rfl, rfl⟩

/-- Both histories stand at the same record, or the new one on the empty record
and the old one at the record under it. -/
inductive Placed (top : Nat) (rtop : UndoRedoChange) (start : Int) (old new : History) : Prop where
  | same (id : Nat) (r : UndoRedoChange) (hold : At old id r)
      (hnew : At new id (relink top old.changes.length id r))
  | onMark (hold : At old top rtop) (hnew : At new old.changes.length ⟨start, [], [], some top, none⟩)

/-- The new history simulates the old one with the empty record on top. -/
structure Sim (top : Nat) (rtop : UndoRedoChange) (start : Int) (old new : History) : Prop where
  marked : Marked top rtop start old new
  placed : Placed top rtop start old new

/-- A move onto the empty record or off it: the old history stays. -/
def Stutters (top : Nat) (rtop : UndoRedoChange) (start : Int) (old : History) (o : Outcome Exn History) : Prop :=
  (∃ new', o = .done new' ∧ Sim top rtop start old new') ∨ ∃ x new', o = .thrown x new' ∧ new'.content = old.content

def Follows (top : Nat) (rtop : UndoRedoChange) (start : Int) (o' o : Outcome Exn History) : Prop :=
  (∃ old' new', o' = .done old' ∧ o = .done new' ∧ Sim top rtop start old' new') ∨
  ∃ x old' new', o' = .thrown x old' ∧ o = .thrown x new' ∧ new'.content = old'.content

theorem Marked.undo_onMark (m : Marked top rtop start old new) (hold : At old top rtop)
    (hnew : At new old.changes.length ⟨start, [], [], some top, none⟩) :
    Stutters top rtop start old new.undo := by
  have hhead : old.changes.length ≠ TextInputControl.undoChangeHead := by
    have : 0 < old.changes.length := m.linked.head
    show old.changes.length ≠ 0
    omega
  have hempty := swap_empty start new.content
  rw [hnew.undo_record hhead rfl (m.getElem m.record)]
  dsimp only
  cases hswap : swap start [] [] new.content with
  | thrown x c =>
    rw [hswap] at hempty
    exact Or.inr ⟨x, _, rfl, hempty.trans m.content⟩
  | done c =>
    rw [hswap] at hempty
    refine Or.inl ⟨_, rfl, ⟨m.linked, m.record, m.last, m.notHead, m.changes, ?_⟩, ?_⟩
    · exact hempty.trans m.content
    · exact .same top rtop hold ⟨rfl, m.getElem m.record, rfl, rfl⟩

theorem Marked.redo_top (m : Marked top rtop start old new) (hold : At old top rtop)
    (hnew : At new top (relink top old.changes.length top rtop)) : Stutters top rtop start old new.redo := by
  have hempty := swap_empty start new.content
  rw [hnew.redo_next (by rw [relink_top]) m.getElem_mark]
  dsimp only
  cases hswap : swap start [] [] new.content with
  | thrown x c =>
    rw [hswap] at hempty
    exact Or.inr ⟨x, _, rfl, hempty.trans m.content⟩
  | done c =>
    rw [hswap] at hempty
    refine Or.inl ⟨_, rfl, ⟨m.linked, m.record, m.last, m.notHead, m.changes, ?_⟩, ?_⟩
    · exact hempty.trans m.content
    · exact .onMark hold ⟨rfl, m.getElem_mark, rfl, rfl⟩

theorem Marked.undo_same (m : Marked top rtop start old new) {id : Nat} {r : UndoRedoChange} (hold : At old id r)
    (hnew : At new id (relink top old.changes.length id r)) : Follows top rtop start old.undo new.undo := by
  by_cases hhead : id = TextInputControl.undoChangeHead
  · rw [hold.undo_head hhead, hnew.undo_head hhead]
    exact Or.inl ⟨old, new, rfl, rfl, m, .same id r hold hnew⟩
  obtain ⟨p, hprev, hlt⟩ := m.linked.prev id r hold.record hhead
  have hin : id < old.changes.length := (List.getElem?_eq_some_iff.mp hold.record).1
  obtain ⟨rp, hp⟩ : ∃ rp, old.changes[p]? = some rp := ⟨_, List.getElem?_eq_getElem (by omega)⟩
  obtain ⟨hstart, hout, hinto, hprev'⟩ := @relink_fields top old.changes.length id r
  rw [hold.undo_record hhead hprev hp, hnew.undo_record hhead (hprev'.trans hprev) (m.getElem hp), hstart, hout, hinto,
    m.content]
  cases swap r.start r.newText r.oldText old.content with
  | thrown x c => exact Or.inr ⟨x, _, _, rfl, rfl, rfl⟩
  | done c =>
    refine Or.inl ⟨_, _, rfl, rfl, ⟨m.linked, m.record, m.last, m.notHead, m.changes, rfl⟩, ?_⟩
    exact .same p rp ⟨rfl, hp, rfl, rfl⟩ ⟨rfl, m.getElem hp, rfl, rfl⟩

theorem Marked.redo_same (m : Marked top rtop start old new) {id : Nat} {r : UndoRedoChange} (hold : At old id r)
    (hnew : At new id (relink top old.changes.length id r)) (hne : id ≠ top) :
    Follows top rtop start old.redo new.redo := by
  have hsame : relink top old.changes.length id r = r := relink_other hne r
  cases hnext : r.next with
  | none =>
    rw [hold.redo_none hnext, hnew.redo_none (by rw [hsame, hnext])]
    exact Or.inl ⟨old, new, rfl, rfl, m, .same id r hold hnew⟩
  | some n =>
    have hin := (m.linked.next id r n hold.record hnext).2
    obtain ⟨rn, hn⟩ : ∃ rn, old.changes[n]? = some rn := ⟨_, List.getElem?_eq_getElem hin⟩
    obtain ⟨hstart, hout, hinto, -⟩ := @relink_fields top old.changes.length n rn
    rw [hold.redo_next hnext hn, hnew.redo_next (by rw [hsame, hnext]) (m.getElem hn), hstart, hout, hinto, m.content]
    cases swap rn.start rn.oldText rn.newText old.content with
    | thrown x c => exact Or.inr ⟨x, _, _, rfl, rfl, rfl⟩
    | done c =>
      refine Or.inl ⟨_, _, rfl, rfl, ⟨m.linked, m.record, m.last, m.notHead, m.changes, rfl⟩, ?_⟩
      exact .same n rn ⟨rfl, hn, rfl, rfl⟩ ⟨rfl, m.getElem hn, rfl, rfl⟩

theorem Sim.step (h : Sim top rtop start old new) (move : Move) :
    Stutters top rtop start old (step move new) ∨ Follows top rtop start (step move old) (step move new) := by
  obtain ⟨m, placed⟩ := h
  cases placed with
  | onMark hold hnew =>
    refine Or.inl ?_
    cases move with
    | undo => exact m.undo_onMark hold hnew
    | redo =>
      refine Or.inl ⟨new, hnew.redo_none rfl, m, .onMark hold hnew⟩
  | same id r hold hnew =>
    cases move with
    | undo => exact Or.inr (m.undo_same hold hnew)
    | redo =>
      by_cases here : id = top
      · subst here
        have hr : r = rtop := by
          have := m.record
          rw [hold.record] at this
          exact Option.some.inj this
        subst hr
        exact Or.inl (m.redo_top hold hnew)
      · exact Or.inr (m.redo_same hold hnew here)

theorem Sim.run (h : Sim top rtop start old new) (moves : List Move) :
    ∃ moves' : List Move, moves'.length ≤ moves.length ∧
      (Outcome.run History.step moves new).state.text = (Outcome.run History.step moves' old).state.text := by
  induction moves generalizing old new with
  | nil => exact ⟨[], le_rfl, congrArg Content.value h.marked.content⟩
  | cons move rest ih =>
    rw [Outcome.run]
    rcases h.step move with stutters | follows
    · rcases stutters with ⟨new', hstep, h'⟩ | ⟨x, new', hstep, hcontent⟩
      · obtain ⟨moves', hle, htext⟩ := ih h'
        exact ⟨moves', by rw [List.length_cons]; omega, by rw [hstep, Outcome.bind_done, htext]⟩
      · exact ⟨[], by simp, by rw [hstep]; exact congrArg Content.value hcontent⟩
    · rcases follows with ⟨old', new', hold, hnew, h'⟩ | ⟨x, old', new', hold, hnew, hcontent⟩
      · obtain ⟨moves', hle, htext⟩ := ih h'
        refine ⟨move :: moves', by simpa using hle, ?_⟩
        rw [hnew, Outcome.bind_done, htext, Outcome.run, hold, Outcome.bind_done]
      · refine ⟨[move], by simp, ?_⟩
        rw [hnew, Outcome.run, hold]
        exact congrArg Content.value hcontent

theorem Marked.run_undo (m : Marked top rtop start old new) (hold : At old top rtop)
    (hnew : At new old.changes.length ⟨start, [], [], some top, none⟩) (rest : List Move) :
    ∃ moves' : List Move, moves'.length ≤ rest.length ∧
      (Outcome.run History.step (.undo :: rest) new).state.text = (Outcome.run History.step moves' old).state.text := by
  rw [Outcome.run]
  rcases m.undo_onMark hold hnew with ⟨new', hstep, h'⟩ | ⟨x, new', hstep, hcontent⟩
  · obtain ⟨moves', hle, htext⟩ := h'.run rest
    exact ⟨moves', hle, by rw [show step .undo new = new.undo from rfl, hstep, Outcome.bind_done, htext]⟩
  · refine ⟨[], by simp, ?_⟩
    rw [show step .undo new = new.undo from rfl, hstep]
    exact congrArg Content.value hcontent

theorem mark_undisturbed_iff (linked : TextInputControl.Linked old.changes) (hold : At old top rtop)
    (last : rtop.next = none) (notHead : top ≠ TextInputControl.undoChangeHead) :
    (∀ moves, (Outcome.run History.step moves (old.mark top rtop start)).state.text
      = (Outcome.run History.step moves old).state.text) ↔
    ∀ moves, (Outcome.run History.step moves old).state.text = old.text := by
  have m : Marked top rtop start old (old.mark top rtop start) := ⟨linked, hold.record, last, notHead, rfl, rfl⟩
  have hhead : old.changes.length ≠ TextInputControl.undoChangeHead := by
    have : 0 < old.changes.length := linked.head
    show old.changes.length ≠ 0
    omega
  have hnew : At (old.mark top rtop start) old.changes.length ⟨start, [], [], some top, none⟩ :=
    ⟨rfl, m.getElem_mark, by simp [mark, hhead], rfl⟩
  constructor
  · intro same moves
    -- on the number of moves: a `redo` does nothing, an `undo` is one move less
    induction hn : moves.length using Nat.strong_induction_on generalizing moves with
    | _ n ih =>
      cases moves with
      | nil => rfl
      | cons move rest =>
        rw [List.length_cons] at hn
        cases move with
        | redo =>
          rw [Outcome.run, show History.step .redo old = old.redo from rfl, hold.redo_none last, Outcome.bind_done]
          exact ih rest.length (by omega) rest rfl
        | undo =>
          obtain ⟨moves', hle, htext⟩ := m.run_undo hold hnew rest
          rw [← same, htext]
          exact ih moves'.length (by omega) moves' rfl
  · intro constant moves
    obtain ⟨moves', -, htext⟩ := Sim.run ⟨m, .onMark hold hnew⟩ moves
    rw [htext, constant, constant]

end Marked

end History
end OpenJfx.Controls
