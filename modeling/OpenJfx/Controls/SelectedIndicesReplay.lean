import OpenJfx.Collections.BuilderRecording
import OpenJfx.Controls.SelectedIndicesList

/-! # The changes of the selected indices

When the change that a call fires, replayed on the old list of selected indices,
gives the new list. -/
set_option autoImplicit false
namespace OpenJfx.Controls

open OpenJfx.Lib OpenJfx.Collections

namespace SelectedIndicesList

/-! ## Positions -/

section Positions
variable {bitset : JavaBitSet} {s : SelectedIndicesList}

theorem nextSetBit_eq {front back : List Int} {i : Int} (cut : bitset.bits = front ++ back)
    (hfront : ∀ b ∈ front, b < i) (hback : ∀ b ∈ back, i ≤ b) :
    bitset.nextSetBit i = back.head?.getD (-1) := by
  unfold JavaBitSet.nextSetBit
  rw [cut, List.find?_append, List.find?_eq_none.mpr (by intro b hb; have := hfront b hb; simp; omega)]
  cases back with
  | nil => rfl
  | cons b back =>
    have := hback b (by simp)
    simp [this]

theorem nextSetBit_after {k : Nat} (hk : k < bitset.bits.length) :
    bitset.nextSetBit (bitset.bits[k] + 1) = bitset.bits[k + 1]?.getD (-1) := by
  have sorted := bitset.increasing
  rw [List.pairwise_iff_getElem] at sorted
  rw [nextSetBit_eq (List.take_append_drop (k + 1) bitset.bits).symm, List.head?_drop]
  · intro b hb
    obtain ⟨q, hq, rfl⟩ := List.getElem_of_mem hb
    rw [List.length_take] at hq
    rw [List.getElem_take]
    by_cases last : q = k
    · subst last
      omega
    · have := sorted q k (by omega) hk (by omega)
      omega
  · intro b hb
    obtain ⟨q, hq, rfl⟩ := List.getElem_of_mem hb
    rw [List.length_drop] at hq
    rw [List.getElem_drop]
    have := sorted k (k + 1 + q) hk (by omega) (by omega)
    omega

theorem nextSetBit_zero : bitset.nextSetBit 0 = bitset.bits[0]?.getD (-1) := by
  rw [nextSetBit_eq (List.nil_append bitset.bits).symm (by simp) bitset.nonneg, List.head?_eq_getElem?]

theorem scan_spec {index : Nat} (hindex : index < bitset.bits.length) (fuel k : Nat) (hk : k ≤ index)
    (enough : index < fuel + k) :
    scan bitset index fuel k (bitset.bits[k]?.getD (-1)) = (bitset.bits[index], (index : Int), bitset.bits[index]) := by
  induction fuel generalizing k with
  | zero => omega
  | succ fuel ih =>
    have hin : k < bitset.bits.length := by omega
    have hnonneg := bitset.nonneg bitset.bits[k] (List.getElem_mem hin)
    have hget : bitset.bits[k]?.getD (-1) = bitset.bits[k] := by simp [List.getElem?_eq_getElem hin]
    rw [hget, scan, if_pos (Or.inl hnonneg)]
    by_cases here : k = index
    · subst here
      rw [if_pos rfl]
    · rw [if_neg (by omega), nextSetBit_after hin]
      exact ih (k + 1) (by omega) (by omega)

/-- The cursor stands in front of position `k`. -/
structure Before (s : SelectedIndicesList) (k : Nat) : Prop where
  index : s.lastGetIndex = (k : Int) - 1
  value : s.lastGetValue = if k = 0 then -1 else s.bitset.bits[k - 1]?.getD (-1)

theorem get_spec {k : Nat} (hk : k < s.bitset.bits.length) (before : Before s k) :
    s.get k = .ok (s.bitset.bits[k], { s with lastGetIndex := k, lastGetValue := s.bitset.bits[k] }) := by
  have hindex := before.index
  have hvalue := before.value
  have hget : s.bitset.bits[k]?.getD (-1) = s.bitset.bits[k] := by simp [List.getElem?_eq_getElem hk]
  unfold get
  dsimp only
  rw [if_neg (by show ¬((k : Int) < 0 ∨ (s.bitset.bits.length : Int) ≤ k); omega)]
  by_cases short : s.lastGetValue < s.size
  · have hnext : s.bitset.nextSetBit (s.lastGetValue + 1) = s.bitset.bits[k] := by
      rw [hvalue]
      cases k with
      | zero => rw [if_pos rfl]; exact nextSetBit_zero.trans hget
      | succ k =>
        rw [if_neg (by omega), Nat.add_sub_cancel, List.getElem?_eq_getElem (by omega), Option.getD_some,
          nextSetBit_after (by omega), hget]
    rw [if_pos ⟨by omega, short⟩, hnext, hindex]
    simp
  · have hscan : scan s.bitset k (s.size + 1) 0 (s.bitset.nextSetBit 0)
        = (s.bitset.bits[k], (k : Int), s.bitset.bits[k]) := by
      rw [nextSetBit_zero]
      exact scan_spec hk (s.size + 1) 0 (by omega) (by show k < s.bitset.bits.length + 1 + 0; omega)
    rw [if_neg (by omega), if_neg (by omega), hscan]

def withCursor (s : SelectedIndicesList) (index value : Int) : SelectedIndicesList :=
  { s with lastGetIndex := index, lastGetValue := value }

theorem indexOfLoop_spec {obj : Int} {front back : List Int} (cut : s.bitset.bits = front ++ obj :: back)
    (fresh : obj ∉ front) (rest k : Nat) (hk : k ≤ front.length) (counted : k + rest = s.bitset.bits.length)
    (before : Before s k) :
    ∃ index value, indexOfLoop obj rest k s = .ok ((front.length : Int), s.withCursor index value) := by
  induction rest generalizing k s with
  | zero =>
    rw [cut] at counted
    simp at counted
    omega
  | succ rest ih =>
    have hin : k < s.bitset.bits.length := by omega
    unfold indexOfLoop
    rw [get_spec hin before]
    dsimp only
    by_cases here : k = front.length
    · have hvalue : s.bitset.bits[k] = obj := by simp [cut, here]
      rw [if_pos hvalue, ← here]
      exact ⟨_, _, rfl⟩
    · have hother : s.bitset.bits[k] ≠ obj := by
        intro same
        apply fresh
        have hfront : s.bitset.bits[k] = front[k] := by simp [cut, List.getElem_append_left (by omega : k < front.length)]
        rw [← same, hfront]
        exact List.getElem_mem (by omega)
      rw [if_neg hother]
      obtain ⟨index, value, hloop⟩ := @ih { s with lastGetIndex := k, lastGetValue := s.bitset.bits[k] } cut (k + 1)
        (by omega) (by show k + 1 + rest = s.bitset.bits.length; omega)
        ⟨by show (k : Int) = ((k + 1 : Nat) : Int) - 1; omega, by
          show s.bitset.bits[k] = _
          rw [if_neg (by omega), Nat.add_sub_cancel, List.getElem?_eq_getElem hin, Option.getD_some]⟩
      exact ⟨index, value, hloop⟩

theorem indexOf_spec {obj : Int} {front back : List Int} (cut : s.bitset.bits = front ++ obj :: back) :
    ∃ index value, s.indexOf obj = .ok ((front.length : Int), s.withCursor index value) := by
  have fresh : obj ∉ front := by
    intro hmem
    have sorted := s.bitset.increasing
    rw [cut] at sorted
    have := (List.pairwise_append.mp sorted).2.2 obj hmem obj (by simp)
    omega
  obtain ⟨index, value, hloop⟩ := @indexOfLoop_spec s.reset obj front back cut fresh s.size 0 (by omega)
    (by show 0 + s.bitset.bits.length = s.bitset.bits.length; omega) ⟨rfl, rfl⟩
  refine ⟨index, value, ?_⟩
  unfold indexOf
  rw [show ((0 : Int)) = ((0 : Nat) : Int) from rfl, hloop]
  rfl

theorem positionOf_spec {obj : Int} {front back : List Int} (cut : s.bitset.bits = front ++ obj :: back)
    (next : Int → SelectedIndicesList → Outcome Exn SelectedIndicesList) :
    ∃ index value, s.positionOf obj next = next front.length (s.withCursor index value) := by
  obtain ⟨index, value, hindex⟩ := indexOf_spec cut
  refine ⟨index, value, ?_⟩
  unfold positionOf
  rw [hindex]

end Positions

/-! ## Reports -/

/-- An open block of the builder `b₀` in which `cs` is recorded. -/
structure Records (b₀ b : ListChangeBuilder Int) (cs : List (SubChange Int)) : Prop where
  lock : b.changeLock = 1
  addRemove : b.addRemove = cs
  updates : b.updates = []
  permutation : b.permutationChange = none
  fired : b.fired = b₀.fired

section Records
variable {b₀ b : ListChangeBuilder Int} {cs : List (SubChange Int)}

theorem records_beginChange (idle : ListChangeBuilder.Idle b) : Records b b.beginChange [] :=
  ⟨by simp [ListChangeBuilder.beginChange, idle.lock], idle.addRemove, idle.updates, idle.permutation, rfl⟩

theorem updates_map_nil {updates : Option (List (SubChange Int))} (h : updates.getD [] = [])
    {f : List (SubChange Int) → List (SubChange Int)} (hf : f [] = []) : (updates.map f).getD [] = [] := by
  cases updates with
  | none => rfl
  | some list =>
    have hlist : list = [] := h
    rw [hlist]
    exact hf

theorem Records.nextAdd (h : Records b₀ b cs) (lo hi : Int) :
    ∃ b', b.nextAdd lo hi = .done b' ∧ Records b₀ b' (ListChangeBuilder.recordAdd lo hi cs) := by
  unfold ListChangeBuilder.nextAdd
  rw [if_neg (by rw [h.lock]; decide)]
  refine ⟨_, rfl, h.lock, ?_, ?_, h.permutation, h.fired⟩
  · show ListChangeBuilder.recordAdd lo hi b.addRemove = _
    rw [h.addRemove]
  · exact updates_map_nil h.updates rfl

theorem Records.nextRemove (h : Records b₀ b cs) {idx x : Int} {cs' : List (SubChange Int)}
    (hrecord : ListChangeBuilder.recordRemove idx x cs = .done cs') :
    ∃ b', b.nextRemove idx x = .done b' ∧ Records b₀ b' cs' := by
  unfold ListChangeBuilder.nextRemove
  rw [if_neg (by rw [h.lock]; decide), h.addRemove, hrecord]
  refine ⟨_, rfl, h.lock, rfl, ?_, h.permutation, h.fired⟩
  exact updates_map_nil h.updates rfl

theorem Records.endChange_single {c : SubChange Int} (h : Records b₀ b [c]) :
    ∃ b', b.endChange = .done b' ∧ b'.fired = b₀.fired ++ [[ListChangeBuilder.finalizeSubChange c]] ∧
      ListChangeBuilder.Idle b' := by
  have hcommit : ListChangeBuilder.commitChange { b with changeLock := b.changeLock - 1 }
      = .ok [ListChangeBuilder.finalizeSubChange c] := by
    have hadd : ListChangeBuilder.addRemove { b with changeLock := b.changeLock - 1 } = [c] := h.addRemove
    have hupd : ListChangeBuilder.updates { b with changeLock := b.changeLock - 1 } = [] := h.updates
    have hperm : ({ b with changeLock := b.changeLock - 1 } : ListChangeBuilder Int).permutationChange = none :=
      h.permutation
    unfold ListChangeBuilder.commitChange
    rw [hadd, hupd, hperm]
    rfl
  unfold ListChangeBuilder.endChange ListChangeBuilder.commit
  rw [if_neg (by rw [h.lock]; decide), if_pos ⟨by show b.changeLock - 1 = 0; rw [h.lock], Or.inl (by
    show b.addRemove ≠ []
    rw [h.addRemove]
    simp)⟩, hcommit]
  refine ⟨_, rfl, by show b.fired ++ _ = _; rw [h.fired], by show b.changeLock - 1 = 0; rw [h.lock], ?_, ?_, rfl⟩
  · show (b.addRemoveChanges.map fun _ => []).getD [] = []
    cases b.addRemoveChanges with
    | none => rfl
    | some list => rfl
  · exact updates_map_nil h.updates rfl

theorem Records.endChange_empty (h : Records b₀ b []) :
    ∃ b', b.endChange = .done b' ∧ b'.fired = b₀.fired ∧ ListChangeBuilder.Idle b' := by
  unfold ListChangeBuilder.endChange ListChangeBuilder.commit
  rw [if_neg (by rw [h.lock]; decide), if_neg (by
    rintro ⟨-, recorded | recorded | recorded⟩
    · exact recorded h.addRemove
    · exact recorded h.updates
    · change b.permutationChange.isSome = true at recorded
      rw [h.permutation] at recorded
      cases recorded)]
  exact ⟨_, rfl, h.fired, by show b.changeLock - 1 = 0; rw [h.lock], h.addRemove, h.updates, h.permutation⟩

theorem recordAdd_first (lo hi : Int) :
    ListChangeBuilder.recordAdd lo hi ([] : List (SubChange Int)) = [⟨lo, hi, some [], [], false⟩] := rfl

theorem recordAdd_next (lo mid hi : Int) :
    ListChangeBuilder.recordAdd mid hi [⟨lo, mid, some [], [], false⟩] = [⟨lo, hi, some ([] : List Int), [], false⟩] := by
  simp [ListChangeBuilder.recordAdd]

theorem recordRemove_first (idx x : Int) :
    ListChangeBuilder.recordRemove idx x [] = .done [⟨idx, idx, some [x], [], false⟩] := rfl

theorem recordRemove_next (idx x : Int) (xs : List Int) :
    ListChangeBuilder.recordRemove idx x [⟨idx, idx, some xs, [], false⟩]
      = .done [⟨idx, idx, some (xs ++ [x]), [], false⟩] := by
  simp [ListChangeBuilder.recordRemove, ListChangeBuilder.changeRemoved]

end Records

/-! ## Replaying one range -/

section Replay
variable {front old new back : List Int} {x : Int}

theorem replay_add_iff (m : Nat) :
    Change.replay (front ++ new) [⟨front.length, front.length + m, some [], [], false⟩] (front ++ old)
        = some (front ++ new) ↔ m ≤ new.length ∧ new.drop m = old := by
  rw [Change.replay_plain _ (by simp [SubChange.Plain])]
  by_cases fits : m ≤ new.length
  · have happly := Edit.apply_parts (front ++ new) front old [] (front.length + m) (by omega) (by simp; omega)
    have hadded : ((front ++ new).take (front.length + m)).drop front.length = new.take m := by
      simp [List.take_append]
    rw [hadded] at happly
    have hreplay : replay (front ++ new) [Edit.mk front.length (front.length + m : Nat) []] (front ++ old)
        = some (front ++ (new.take m ++ old)) := by
      simpa [replay] using happly
    have hcut : new = new.take m ++ new.drop m := (List.take_append_drop m new).symm
    show replay (front ++ new) [Edit.mk front.length (front.length + m : Nat) []] (front ++ old) = _ ↔ _
    rw [hreplay, Option.some_inj, List.append_right_inj]
    constructor
    · intro h
      have same : new.take m ++ old = new.take m ++ new.drop m := h.trans hcut
      exact ⟨fits, (List.append_cancel_left same).symm⟩
    · rintro ⟨-, rfl⟩
      exact hcut.symm
  · constructor
    · intro h
      simp [replay, SubChange.edit, Edit.apply] at h
      omega
    · rintro ⟨fits', -⟩
      exact absurd fits' fits

theorem replay_insert_iff {p : Int} (hle : (front.length : Int) ≤ p) (fresh : x ∉ old) :
    Change.replay (front ++ x :: old) [⟨p, p + 1, some [], [], false⟩] (front ++ old) = some (front ++ x :: old)
      ↔ p = front.length := by
  constructor
  · intro h
    rw [Change.replay_plain _ (by simp [SubChange.Plain])] at h
    obtain ⟨next, happly, hdone⟩ := Option.bind_eq_some_iff.mp h
    cases hdone
    obtain ⟨l, r, hl, hr, hlr, hfits, rest, hcur, hin, hnext⟩ := Edit.apply_eq_some happly
    have hlp : p = l := hl
    by_contra other
    have below : front.length < l := by omega
    have hget := congrArg (fun xs => xs[front.length]?) hnext
    simp only [List.getElem?_append_right (le_refl front.length), Nat.sub_self, List.getElem?_cons_zero] at hget
    rw [List.getElem?_append_left (by simp at hin ⊢; omega), List.getElem?_take_of_lt below,
      List.getElem?_append_right (le_refl _)] at hget
    exact fresh (List.mem_of_getElem? hget.symm)
  · rintro rfl
    exact (replay_add_iff 1).mpr ⟨by simp, by simp⟩

theorem replay_remove_iff {p : Int} (unique : x ∉ front ++ back) :
    Change.replay (front ++ back) [⟨p, p, some [x], [], false⟩] (front ++ x :: back) = some (front ++ back)
      ↔ p = front.length := by
  constructor
  · intro h
    rw [Change.replay_plain _ (by simp [SubChange.Plain])] at h
    obtain ⟨next, happly, hdone⟩ := Option.bind_eq_some_iff.mp h
    obtain ⟨l, r, hl, hr, hlr, hfits, rest, hcur, hin, hnext⟩ := Edit.apply_eq_some happly
    have hlp : p = l := hl
    have hget : (front ++ x :: back)[l]? = some x := by
      have hlength : ((front ++ x :: back).take l).length = l := by rw [List.length_take, Nat.min_eq_left hin]
      rw [hcur, List.getElem?_append_right (by rw [hlength]), hlength, Nat.sub_self]
      rfl
    rcases Nat.lt_trichotomy l front.length with hlt | heq | hgt
    · rw [List.getElem?_append_left hlt] at hget
      exact absurd (List.mem_append_left _ (List.mem_of_getElem? hget)) unique
    · omega
    · rw [List.getElem?_append_right hgt.le, List.getElem?_cons, if_neg (by omega)] at hget
      exact absurd (List.mem_append_right _ (List.mem_of_getElem? hget)) unique
  · rintro rfl
    rw [Change.replay_plain _ (by simp [SubChange.Plain])]
    have happly := Edit.apply_parts (front ++ back) front back [x] front.length le_rfl (by simp)
    simpa [replay, SubChange.edit, SubChange.getRemoved] using happly

end Replay

end SelectedIndicesList
end OpenJfx.Controls
