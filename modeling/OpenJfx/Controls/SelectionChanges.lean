import OpenJfx.Controls.ShiftRows

/-! # The changes that a selection reports at once

`clearAndSelect` reports what is left of the old selection in two ranges, and
`shiftSelection` reports the rows that were added and removed. -/
set_option autoImplicit false
namespace OpenJfx.Controls
open OpenJfx.Lib OpenJfx.Collections

/-! ## `MultipleAdditionAndRemovedChange` -/

/-- The list is the changed one.  `same` is `==` of the elements, which are boxed. -/
structure MultipleAdditionAndRemovedChange where
  list : List Int
  same : Int → Int → Bool
  addedElements : List Int
  removedElements : List Int
  invalid : Bool
  iteratingThroughAdded : Bool
  returnedRemovedElements : Bool
  addedIndex : Nat
  fromIdx : Int
  toIdx : Int

namespace MultipleAdditionAndRemovedChange

def new (list : List Int) (same : Int → Int → Bool) (addedElements removedElements : List Int) :
    MultipleAdditionAndRemovedChange :=
  ⟨list, same, addedElements, removedElements, true, true, false, 0, 0, 0⟩

def reset (c : MultipleAdditionAndRemovedChange) : MultipleAdditionAndRemovedChange :=
  { c with
    invalid := true
    iteratingThroughAdded := true
    returnedRemovedElements := false
    addedIndex := 0
    fromIdx := 0
    toIdx := 0 }

/-- The loop over the added elements from `addedIndex + i` on; the result is the `i` at which it
breaks off. -/
def groupLoop (c : MultipleAdditionAndRemovedChange) : Nat → Nat → Except Exn (Option Nat)
  | 0, _ => .ok none
  | rest + 1, i =>
      match c.addedElements[i + c.addedIndex]? with
      | none => .ok none
      | some nextElement =>
          match readAt c.list (c.fromIdx + i) with
          | .error x => .error x
          | .ok element => if !c.same nextElement element then .ok (some i) else groupLoop c rest (i + 1)

/-- The part of `next()` for the added rows, which are grouped. -/
def nextAdded (element : Int) (c : MultipleAdditionAndRemovedChange) :
    Except Exn (Bool × MultipleAdditionAndRemovedChange) :=
  let index : Int := if element ∈ c.list then c.list.idxOf element else -1
  let c := { c with fromIdx := index, toIdx := index + 1, addedIndex := c.addedIndex + 1 }
  match groupLoop c c.addedElements.length 0 with
  | .error x => .error x
  | .ok none => .ok (true, c)
  | .ok (some i) => .ok (true, { c with toIdx := c.fromIdx + 1 + i, addedIndex := c.addedIndex + i })

def next (c : MultipleAdditionAndRemovedChange) : Except Exn (Bool × MultipleAdditionAndRemovedChange) :=
  match c.addedElements[c.addedIndex]? with
  | some element => nextAdded element { c with invalid := false }
  | none =>
      let c := { c with invalid := false }
      if c.returnedRemovedElements then .ok (false, c)
      else
        let c := { c with returnedRemovedElements := true, iteratingThroughAdded := false, fromIdx := 0, toIdx := 0 }
        .ok (!c.removedElements.isEmpty, c)

def getRemoved (c : MultipleAdditionAndRemovedChange) : List Int :=
  if c.iteratingThroughAdded then [] else c.removedElements

def subChange (c : MultipleAdditionAndRemovedChange) : SubChange Int :=
  ⟨c.fromIdx, c.toIdx, some c.getRemoved, [], false⟩

/-- `while (c.next())` with so many turns at most. -/
def iterate : Nat → MultipleAdditionAndRemovedChange →
    Except Exn (Option (Change Int × MultipleAdditionAndRemovedChange))
  | 0, _ => .ok none
  | turns + 1, c =>
      match next c with
      | .error x => .error x
      | .ok (false, c) => .ok (some ([], c))
      | .ok (true, c) => match iterate turns c with
        | .error x => .error x
        | .ok rest => .ok (rest.map fun (change, last) => (c.subChange :: change, last))

def added (list : List Int) (row : Int) : SubChange Int := ⟨list.idxOf row, list.idxOf row + 1, some [], [], false⟩

def reported (list addedElements removedElements : List Int) : Change Int :=
  addedElements.map (added list) ++
    if removedElements = [] then [] else [⟨0, 0, some removedElements, [], false⟩]

section Iterate
variable {list addedElements removedElements : List Int} {same : Int → Int → Bool}
  {c : MultipleAdditionAndRemovedChange}

/-- The state between two calls of `next` among the added rows. -/
structure At (list : List Int) (same : Int → Int → Bool) (addedElements removedElements : List Int) (k : Nat)
    (c : MultipleAdditionAndRemovedChange) : Prop where
  list : c.list = list
  same : c.same = same
  added : c.addedElements = addedElements
  removed : c.removedElements = removedElements
  iterating : c.iteratingThroughAdded = true
  returned : c.returnedRemovedElements = false
  index : c.addedIndex = k

theorem at_new : At list same addedElements removedElements 0 (new list same addedElements removedElements) :=
  ⟨rfl, rfl, rfl, rfl, rfl, rfl, rfl⟩

theorem next_added (hsame : ∀ a b, same a b = true → a = b) (hnodup : addedElements.Nodup)
    (hsub : ∀ x ∈ addedElements, x ∈ list) {k : Nat} (hk : k < addedElements.length)
    (h : At list same addedElements removedElements k c) :
    ∃ c', next c = .ok (true, c') ∧ At list same addedElements removedElements (k + 1) c' ∧
      c'.subChange = added list addedElements[k] := by
  obtain ⟨list', same', added', removed', invalid, iterating, returned, index, lo, hi⟩ := c
  obtain ⟨rfl, rfl, rfl, rfl, rfl, rfl, rfl⟩ := h
  dsimp only at hsame hnodup hsub hk ⊢
  have hmem := hsub _ (List.getElem_mem hk)
  have hread : readAt list' (list'.idxOf added'[index] : Nat) = .ok added'[index] := by
    rw [readAt_natCast _ _ (List.idxOf_lt_length_iff.mpr hmem), List.getElem_idxOf]
  let c' : MultipleAdditionAndRemovedChange :=
    ⟨list', same', added', removed', false, true, false, index + 1, list'.idxOf added'[index],
      list'.idxOf added'[index] + 1⟩
  have hgroup : groupLoop c' added'.length 0 = .ok none ∨ groupLoop c' added'.length 0 = .ok (some 0) := by
    obtain ⟨n, hn⟩ := Nat.exists_eq_succ_of_ne_zero (by omega : added'.length ≠ 0)
    have hat : readAt c'.list (c'.fromIdx + (0 : Nat)) = .ok added'[index] := by
      rw [Int.natCast_zero, Int.add_zero]
      exact hread
    rw [hn, groupLoop, Nat.zero_add, hat]
    by_cases hlast : index + 1 < added'.length
    · right
      have hne : added'[index + 1] ≠ added'[index] := by
        intro heq
        have := hnodup.getElem_inj_iff.mp heq
        omega
      have hdiffer : same' added'[index + 1] added'[index] = false := by
        by_contra htrue
        exact hne (hsame _ _ (by simpa using htrue))
      have hget : c'.addedElements[c'.addedIndex]? = some added'[index + 1] := List.getElem?_eq_getElem hlast
      rw [hget]
      simp [c', hdiffer]
    · left
      have hget : c'.addedElements[c'.addedIndex]? = none := List.getElem?_eq_none (not_lt.mp hlast)
      rw [hget]
  have hstep : next ⟨list', same', added', removed', invalid, true, false, index, lo, hi⟩ = .ok (true, c') := by
    have hget : added'[index]? = some added'[index] := List.getElem?_eq_getElem hk
    rw [next, hget]
    dsimp only [nextAdded]
    rw [if_pos hmem]
    change (match groupLoop c' added'.length 0 with
      | .error x => Except.error x
      | .ok none => .ok (true, c')
      | .ok (some i) => .ok (true, { c' with toIdx := c'.fromIdx + 1 + i, addedIndex := c'.addedIndex + i })) = _
    rcases hgroup with hgroup | hgroup
    · rw [hgroup]
    · rw [hgroup]
      simp [c']
  exact ⟨c', hstep, ⟨rfl, rfl, rfl, rfl, rfl, rfl, rfl⟩, rfl⟩

theorem iterate_from (hsame : ∀ a b, same a b = true → a = b) (hnodup : addedElements.Nodup)
    (hsub : ∀ x ∈ addedElements, x ∈ list) (rest : Nat) {k turns : Nat} (hk : k + rest = addedElements.length)
    (hturns : rest + 2 ≤ turns) (h : At list same addedElements removedElements k c) :
    ∃ last, iterate turns c = .ok (some (reported list (addedElements.drop k) removedElements, last)) ∧
      last.reset = new list same addedElements removedElements := by
  induction rest generalizing k turns c with
  | zero =>
    obtain ⟨list', same', added', removed', invalid, iterating, returned, index, lo, hi⟩ := c
    obtain ⟨rfl, rfl, rfl, rfl, rfl, rfl, rfl⟩ := h
    obtain ⟨turns, rfl⟩ : ∃ n, turns = n + 2 := ⟨turns - 2, by omega⟩
    dsimp only at hk ⊢
    have hnone : added'[index]? = none := List.getElem?_eq_none (by omega)
    rw [List.drop_eq_nil_of_le (by omega), iterate, next, hnone]
    cases removed' with
    | nil => exact ⟨_, rfl, rfl⟩
    | cons x removed =>
      simp only [Bool.false_eq_true, if_false, List.isEmpty_cons, Bool.not_false]
      rw [iterate, next]
      dsimp only
      rw [hnone]
      exact ⟨_, rfl, rfl⟩
  | succ rest ih =>
    obtain ⟨turns, rfl⟩ : ∃ n, turns = n + 1 := ⟨turns - 1, by omega⟩
    obtain ⟨c', hnext, hat, hsubChange⟩ := next_added hsame hnodup hsub (by omega) h
    have hmore : rest + 2 ≤ turns := by omega
    have hlt : k < addedElements.length := by omega
    obtain ⟨last, hrest, hreset⟩ := ih (by omega) hmore hat
    refine ⟨last, ?_, hreset⟩
    rw [iterate, hnext]
    dsimp only
    rw [hrest, Except.ok.injEq, Option.map_some, hsubChange, List.drop_eq_getElem_cons hlt]
    rfl

end Iterate

/-! ## Replaying -/

section Replay
variable {old new front back addedElements removedElements : List Int}

theorem added_turns (keep : Int → Bool) (hnodup : (front ++ back).Nodup) :
    Turns front.length (((back.filter fun row => !keep row).map (added (front ++ back))).map SubChange.edit)
      (back.filter keep) back := by
  induction back generalizing front with
  | nil => rfl
  | cons row back ih =>
    have hassoc : front ++ row :: back = (front ++ [row]) ++ back := by simp
    have hrest := @ih (front ++ [row]) (hassoc ▸ hnodup)
    rw [List.length_append, List.length_singleton, ← hassoc] at hrest
    by_cases hkeep : keep row = true
    · rw [List.filter_cons_of_pos hkeep, List.filter_cons_of_neg (by simpa using hkeep)]
      exact turns_keep [row] (by simpa using hrest)
    · rw [List.filter_cons_of_neg hkeep, List.filter_cons_of_pos (by simpa using hkeep), List.map_cons, List.map_cons]
      have hindex : (front ++ row :: back).idxOf row = front.length := by
        have hnot : row ∉ front := fun hmem =>
          (List.nodup_append.mp hnodup).2.2 row hmem row List.mem_cons_self rfl
        rw [List.idxOf_append_of_notMem hnot, List.idxOf_cons_self, Nat.add_zero]
      refine ⟨[], [row], back.filter keep, back, rfl, rfl, ?_, ?_, ?_⟩
      · simp [added, hindex]
      · simp [added]
      · simpa [added, hindex] using hrest

theorem reported_plain (list addedElements removedElements : List Int) :
    ∀ c ∈ reported list addedElements removedElements, c.Plain := by
  intro c hc
  rcases List.mem_append.mp hc with hc | hc
  · obtain ⟨row, -, rfl⟩ := List.mem_map.mp hc
    exact ⟨rfl, rfl⟩
  · split at hc
    · cases hc
    · rw [List.mem_singleton.mp hc]
      exact ⟨rfl, rfl⟩

theorem replay_append (final : List Int) (es fs : List (Edit Int)) (cur : List Int) :
    replay final (es ++ fs) cur = (replay final es cur).bind (replay final fs) := by
  induction es generalizing cur with
  | nil => rfl
  | cons e es ih =>
    rw [List.cons_append, replay, replay, Option.bind_assoc]
    congr 1
    funext next
    exact ih next

theorem not_replay_both (hnodup : new.Nodup) (hadded : addedElements ≠ []) (hremoved : removedElements ≠ [])
    (hmem : ∀ x ∈ addedElements, x ∈ new) (hout : ∀ x ∈ removedElements, x ∉ new) :
    Change.replay new (reported new addedElements removedElements) old ≠ some new := by
  intro h
  rw [Change.replay_plain _ (reported_plain _ _ _), reported, if_neg hremoved, List.map_append, replay_append] at h
  obtain ⟨cur, hcur, hlast⟩ := Option.bind_eq_some_iff.mp h
  -- the last addition has put its row at its position in the new list
  obtain ⟨front, row, rfl⟩ := (List.eq_nil_or_concat' addedElements).resolve_left hadded
  have hrow := hmem row (by simp)
  rw [List.map_append, List.map_append, replay_append] at hcur
  obtain ⟨cur', -, hcur⟩ := Option.bind_eq_some_iff.mp hcur
  obtain ⟨next, happly, hnext⟩ := Option.bind_eq_some_iff.mp hcur
  obtain ⟨l, r, hl, hr, -, -, rest, -, hlen, hcut⟩ := Edit.apply_eq_some happly
  obtain rfl : next = cur := Option.some.inj hnext
  have hposition : l = new.idxOf row := by
    have : ((new.idxOf row : Nat) : Int) = l := hl
    omega
  have hbehind : r = l + 1 := by
    have : ((new.idxOf row : Nat) : Int) + 1 = r := hr
    omega
  have hlt : l < new.length := hposition ▸ List.idxOf_lt_length_iff.mpr hrow
  have hnew : new[l]? = some row := by
    subst hposition
    rw [List.getElem?_eq_getElem hlt, List.getElem_idxOf]
  have hput : next[l]? = some row := by
    have hslice : (new.take r).drop l = [row] := by
      rw [hbehind, List.take_add_one, hnew, List.drop_append_of_le_length (by simp; omega)]
      simp
    rw [hcut, hslice, List.getElem?_append_right (by simp)]
    simp [hlen]
  -- what is removed stands in front of the new list
  obtain ⟨result, hfinal, hresult⟩ := Option.bind_eq_some_iff.mp hlast
  obtain ⟨l', r', hl', hr', -, -, rest', hold, -, hcut'⟩ := Edit.apply_eq_some hfinal
  obtain rfl : result = new := Option.some.inj hresult
  have hzero : l' = 0 := by
    have : (0 : Int) = l' := hl'
    omega
  have hzero' : r' = 0 := by
    have : (0 : Int) = r' := hr'
    omega
  subst hzero hzero'
  have hfront : next = removedElements ++ result := by
    rw [hold, hcut']
    rfl
  rw [hfront] at hput
  by_cases hinside : l < removedElements.length
  · rw [List.getElem?_append_left hinside] at hput
    exact hout row (List.mem_of_getElem? hput) hrow
  · rw [List.getElem?_append_right (not_lt.mp hinside)] at hput
    have hsame := (List.getElem?_inj hlt hnodup).mp (hnew.trans hput.symm)
    have := List.length_pos_iff.mpr hremoved
    omega

theorem replay_front_removal (removed : List Int) :
    Change.replay new [⟨0, 0, some removed, [], false⟩] old = some new ↔ old = removed ++ new := by
  have hplain : ∀ c ∈ ([⟨0, 0, some removed, [], false⟩] : Change Int), c.Plain := by
    intro c hc
    rw [List.mem_singleton.mp hc]
    exact ⟨rfl, rfl⟩
  have hordered : Ordered Edit.lo Edit.hi 0 [(⟨0, 0, removed⟩ : Edit Int)] := ⟨le_rfl, le_rfl, trivial⟩
  rw [Change.replay_plain _ hplain]
  change replay new [⟨0, 0, removed⟩] old = some new ↔ _
  constructor
  · intro h
    obtain ⟨kept, added, rest, rest', rfl, rfl, hlo, hhi, hrest⟩ := replay_turns_zero.mp ⟨hordered, h⟩
    obtain rfl : rest = rest' := hrest
    obtain rfl : kept = [] := List.length_eq_zero_iff.mp (by dsimp only at hlo; omega)
    obtain rfl : added = [] := List.length_eq_zero_iff.mp (by dsimp only at hlo hhi; omega)
    rfl
  · rintro rfl
    have hturns : Turns 0 [(⟨0, 0, removed⟩ : Edit Int)] (removed ++ new) new :=
      ⟨[], [], new, new, rfl, rfl, rfl, rfl, rfl⟩
    exact (replay_turns_zero.mpr hturns).2

theorem replay_reported_iff (hold : old.Pairwise (· < ·)) (hnew : new.Pairwise (· < ·)) :
    Change.replay new (reported new (new.filter fun row => decide (row ∉ old))
        (old.filter fun row => decide (row ∉ new))) old = some new ↔
      (∀ row ∈ old, row ∈ new) ∨
        (∀ row ∈ new, row ∈ old) ∧ (old.filter fun row => decide (row ∉ new)) <+: old := by
  have hnodup : new.Nodup := hnew.imp fun h => ne_of_lt h
  by_cases hkept : ∀ row ∈ old, row ∈ new
  · have hremoved : old.filter (fun row => decide (row ∉ new)) = [] := by
      rw [List.filter_eq_nil_iff]
      intro row hrow
      simpa using hkept row hrow
    have hleft : old = new.filter fun row => decide (row ∈ old) := by
      refine eq_of_increasing hold (hnew.filter _) fun row => ?_
      rw [List.mem_filter, decide_eq_true_iff]
      exact ⟨fun hrow => ⟨hkept row hrow, hrow⟩, And.right⟩
    have hturns := @added_turns [] new (fun row => decide (row ∈ old)) hnodup
    rw [← hleft] at hturns
    refine iff_of_true ?_ (Or.inl hkept)
    rw [Change.replay_plain _ (reported_plain _ _ _), reported, hremoved, if_pos rfl, List.append_nil]
    simpa using (replay_turns_zero.mpr hturns).2
  · obtain ⟨gone, hgone, hout⟩ : ∃ row ∈ old, row ∉ new := by simpa using hkept
    have hremoved : old.filter (fun row => decide (row ∉ new)) ≠ [] :=
      List.ne_nil_of_mem (List.mem_filter.mpr ⟨hgone, by simpa using hout⟩)
    by_cases hfresh : ∀ row ∈ new, row ∈ old
    · have hadded : new.filter (fun row => decide (row ∉ old)) = [] := by
        rw [List.filter_eq_nil_iff]
        intro row hrow
        simpa using hfresh row hrow
      rw [hadded, reported, List.map_nil, List.nil_append, if_neg hremoved, replay_front_removal]
      constructor
      · intro h
        exact Or.inr ⟨hfresh, new, h.symm⟩
      · rintro (h | ⟨-, rest, hrest⟩)
        · exact absurd h hkept
        -- what is left behind the removed rows are the new ones
        · have hcut : (old.filter (fun row => decide (row ∉ new)) ++ rest).Pairwise (· < ·) := by
            rw [hrest]
            exact hold
          obtain ⟨-, hback, hcross⟩ := List.pairwise_append.mp hcut
          have hnew' : new = rest := by
            refine eq_of_increasing hnew hback fun row => ⟨fun hrow => ?_, fun hrow => ?_⟩
            · have hmem := hfresh row hrow
              rw [← hrest] at hmem
              refine (List.mem_append.mp hmem).resolve_left fun hfront => ?_
              simp [hrow] at hfront
            · by_contra hno
              have hmem : row ∈ old := hrest ▸ List.mem_append_right _ hrow
              have := hcross row (List.mem_filter.mpr ⟨hmem, by simpa using hno⟩) row hrow
              omega
          rw [← hnew'] at hrest
          exact hrest.symm
    · obtain ⟨fresh, hmem, hfresh'⟩ : ∃ row ∈ new, row ∉ old := by simpa using hfresh
      have hadded : new.filter (fun row => decide (row ∉ old)) ≠ [] :=
        List.ne_nil_of_mem (List.mem_filter.mpr ⟨hmem, by simpa using hfresh'⟩)
      refine iff_of_false (not_replay_both hnodup hadded hremoved ?_ ?_) ?_
      · exact fun row hrow => (List.mem_filter.mp hrow).1
      · exact fun row hrow => by simpa using (List.mem_filter.mp hrow).2
      · rintro (h | ⟨h, -⟩)
        · exact hkept h
        · exact hfresh h

end Replay

end MultipleAdditionAndRemovedChange

/-! ## `clearAndSelect` -/

namespace ItemSelection
open MultipleAdditionAndRemovedChange

section Ranges
variable {rows front back : List Int} {row : Int}

theorem replay_ranges_iff (hrows : (front ++ row :: back).Nodup) {mid : Nat} (hmid : mid ≤ (front ++ back).length) :
    Change.replay [row] (⟨0, 0, some ((front ++ back).take mid), [], false⟩ ::
        (if (front ++ back).drop mid = [] then [] else [⟨1, 1, some ((front ++ back).drop mid), [], false⟩]))
      (front ++ row :: back) = some [row] ↔ mid = front.length := by
  obtain ⟨A, hA⟩ : ∃ A, (front ++ back).take mid = A := ⟨_, rfl⟩
  obtain ⟨B, hB⟩ : ∃ B, (front ++ back).drop mid = B := ⟨_, rfl⟩
  have hcut : A ++ B = front ++ back := by rw [← hA, ← hB, List.take_append_drop]
  have hlength : A.length = mid := by rw [← hA, List.length_take, Nat.min_eq_left hmid]
  have hsplit : Change.replay [row] (⟨0, 0, some A, [], false⟩ ::
      (if B = [] then [] else [⟨1, 1, some B, [], false⟩])) (front ++ row :: back) = some [row] ↔
      front ++ row :: back = A ++ row :: B := by
    by_cases hend : B = []
    · rw [if_pos hend, replay_front_removal, hend]
    · have hplain : ∀ c ∈ ([⟨0, 0, some A, [], false⟩, ⟨1, 1, some B, [], false⟩] : Change Int), c.Plain := by
        intro c hc
        rcases List.mem_cons.mp hc with rfl | hc
        · exact ⟨rfl, rfl⟩
        · rw [List.mem_singleton.mp hc]
          exact ⟨rfl, rfl⟩
      have hordered : Ordered Edit.lo Edit.hi 0 [(⟨0, 0, A⟩ : Edit Int), ⟨1, 1, B⟩] := by
        refine ⟨le_rfl, le_rfl, ?_, le_rfl, trivial⟩
        dsimp only
        omega
      rw [if_neg hend, Change.replay_plain _ hplain]
      change replay [row] [⟨0, 0, A⟩, ⟨1, 1, B⟩] _ = _ ↔ _
      constructor
      · intro h
        obtain ⟨kept, added, rest, rest', hold, hnew, hlo, hhi, kept', added', last, last', rfl, rfl, hlo', hhi',
          rfl⟩ := replay_turns_zero.mp ⟨hordered, h⟩
        dsimp only at hlo hhi hlo' hhi' hold
        obtain rfl : kept = [] := List.length_eq_zero_iff.mp (by omega)
        obtain rfl : added = [] := List.length_eq_zero_iff.mp (by omega)
        obtain rfl : added' = [] := List.length_eq_zero_iff.mp (by omega)
        obtain ⟨x, rfl⟩ := List.length_eq_one_iff.mp (by omega : kept'.length = 1)
        simp only [List.nil_append, List.singleton_append, List.cons.injEq] at hnew hold
        rw [hold, ← hnew.1, ← hnew.2, List.append_nil]
      · intro h
        have hturns : Turns 0 [(⟨0, 0, A⟩ : Edit Int), ⟨1, 1, B⟩] (A ++ row :: B) [row] :=
          ⟨[], [], row :: B, [row], rfl, rfl, rfl, rfl, [row], [], [], [], by simp, rfl, rfl, rfl, rfl⟩
        rw [h]
        exact (replay_turns_zero.mpr hturns).2
  rw [hA, hB, hsplit, ← hlength]
  constructor
  · intro h
    have hfront : row ∉ front := by
      rw [List.nodup_append] at hrows
      exact fun hmem => hrows.2.2 row hmem row List.mem_cons_self rfl
    have hA' : row ∉ A := by
      rw [h, List.nodup_append] at hrows
      exact fun hmem => hrows.2.2 row hmem row List.mem_cons_self rfl
    have hindex := congrArg (List.idxOf row) h
    rw [List.idxOf_append_of_notMem hfront, List.idxOf_append_of_notMem hA', List.idxOf_cons_self,
      List.idxOf_cons_self] at hindex
    omega
  · intro h
    obtain ⟨rfl, rfl⟩ := List.append_inj hcut h
    rfl

theorem clearAndSelectChange_replay_iff (hrows : rows.Pairwise (· < ·)) (nonneg : ∀ z ∈ rows, 0 ≤ z)
    (hrow : row ∈ rows) :
    Change.replay [row] (buildClearAndSelectChange (rows.filter (· ≠ row)) row) rows = some [row] ↔
      (∀ z, 0 ≤ z → z < row → z ∈ rows) ∨ ∀ z ∈ rows, z ≤ row := by
  have hrow0 := nonneg row hrow
  obtain ⟨front, back, rfl, hfront, hback⟩ := exists_cut hrows hrow
  obtain ⟨n, rfl⟩ : ∃ n : Nat, row = n := ⟨row.toNat, by omega⟩
  have hleft : (front ++ (n : Int) :: back).filter (· ≠ (n : Int)) = front ++ back := by
    rw [List.filter_append, List.filter_cons_of_neg (by simp), List.filter_eq_self.mpr, List.filter_eq_self.mpr]
    · exact fun z hz => by simpa using (ne_of_lt (hback z hz)).symm
    · exact fun z hz => by simpa using ne_of_lt (hfront z hz)
  have hsorted : front.Pairwise (· < ·) := (List.pairwise_append.mp hrows).1
  obtain ⟨hle, hfull⟩ := length_eq_iff_full hsorted (n := n) fun z hz => ⟨nonneg z (by simp [hz]), hfront z hz⟩
  -- the cut is the row number, or the end
  obtain ⟨mid, hmid, hmidle, hplace⟩ : ∃ mid : Nat,
      (if ((front ++ back).length : Int) ≤ n then ((front ++ back).length : Int)
        else if (n : Int) < 0 then 0 else n) = mid ∧
      mid ≤ (front ++ back).length ∧ (mid = front.length ↔ front.length = n ∨ back = []) := by
    have hlength : (front ++ back).length = front.length + back.length := List.length_append
    by_cases hall : (front ++ back).length ≤ n
    · refine ⟨_, if_pos (by omega), le_rfl, ?_⟩
      rw [← List.length_eq_zero_iff]
      omega
    · refine ⟨n, ?_, by omega, ?_⟩
      · rw [if_neg (by omega), if_neg (by omega)]
      · rw [← List.length_eq_zero_iff]
        omega
  rw [hleft, buildClearAndSelectChange]
  rw [hmid, Int.toNat_natCast, replay_ranges_iff (hrows.imp fun h => ne_of_lt h) hmidle, hplace, hfull]
  refine or_congr ⟨fun h z h0 hz => List.mem_append_left _ (h z h0 hz), fun h z h0 hz => ?_⟩ ⟨?_, fun h => ?_⟩
  · refine (List.mem_append.mp (h z h0 hz)).resolve_right fun hmem => ?_
    rcases List.mem_cons.mp hmem with rfl | hmem
    · omega
    · have := hback z hmem
      omega
  · rintro rfl z hz
    rcases List.mem_append.mp hz with hz | hz
    · exact (hfront z hz).le
    · rw [List.mem_singleton.mp hz]
  · refine List.eq_nil_iff_forall_not_mem.mpr fun z hz => ?_
    have := hback z hz
    have := h z (by simp [hz])
    omega

end Ranges

section Calls
variable {T : Type} {equals : T → T → Bool} {items : List (Option T)} {row : Int} {m : ItemSelection T}

theorem quietClearSelection_atomic (h : m.selectedIndices.isAtomic = true) : m.quietClearSelection =
    .done { m with selectedIndices := { m.selectedIndices with bitset := m.selectedIndices.bitset.clearAll } } := by
  rw [quietClearSelection, onIndices, SelectedIndicesList.clearAll_atomic h]
  rfl

theorem select_atomic (h : m.selectedIndices.isAtomic = true) (hnone : m.selectedIndices.bitset.bits = [])
    (hrow : 0 ≤ row) (hitems : row < getItemCount items) :
    ∃ t, select equals items row m = .done t ∧ t.observed = m.observed ∧
      ∀ z, z ∈ t.selectedIndices.bitset.bits ↔ z = row := by
  have valid : SelectedIndicesList.isValidIndex (getItemCount items) row = true := by
    simp [SelectedIndicesList.isValidIndex, hrow, hitems]
  have hfree : (m.focus row).selectedIndices.isSelected row = false := by
    simp [focus, SelectedIndicesList.isSelected, JavaBitSet.get, hnone]
  -- in the single mode there is nothing to clear
  obtain ⟨u, hcleared, hu, hnone', hobserved⟩ : ∃ u : ItemSelection T,
      (if (m.focus row).selectionMode = .single then (m.focus row).startAtomic.quietClearSelection.map stopAtomic
        else .done (m.focus row)) = .done u ∧
      u.selectedIndices.isAtomic = true ∧ u.selectedIndices.bitset.bits = [] ∧ u.observed = m.observed := by
    by_cases single : (m.focus row).selectionMode = .single
    · have atomic' : (m.focus row).startAtomic.selectedIndices.isAtomic = true := by
        simp [startAtomic, SelectedIndicesList.startAtomic, SelectedIndicesList.isAtomic]
      rw [if_pos single, quietClearSelection_atomic atomic']
      refine ⟨_, rfl, ?_, rfl, rfl⟩
      simpa [stopAtomic, startAtomic, focus, SelectedIndicesList.startAtomic, SelectedIndicesList.stopAtomic,
        SelectedIndicesList.isAtomic] using h
    · rw [if_neg single]
      exact ⟨_, rfl, h, hnone, rfl⟩
  obtain ⟨s, hset, -, -, -, hmem⟩ := SelectedIndicesList.set_atomic hu valid
  have hrows : ∀ z, z ∈ s.bitset.bits ↔ z = row := by
    intro z
    rw [hmem, hnone']
    simp
  have hchosen : u.onIndices (SelectedIndicesList.set (getItemCount items) row)
      = .done { u with selectedIndices := s } := by
    rw [onIndices, hset]
    rfl
  rw [select, if_neg (by omega), if_neg (by omega)]
  dsimp only
  rw [if_pos hfree, hcleared, Outcome.bind_done, hchosen, Outcome.map_done]
  refine ⟨_, rfl, ?_, ?_⟩
  · split
    · simpa using hobserved
    · simpa using hobserved
  · split
    · simpa using hrows
    · simpa using hrows

theorem clearAndSelect_fires [DecidableEq T] (hitems : row < getItemCount items)
    (hrow : row ∈ m.selectedIndices.bitset.bits) (hsize : 2 ≤ m.selectedIndices.size) :
    ∃ t, clearAndSelect equals items row m = .done t ∧ t.selectedIndices.bitset.bits = [row] ∧
      t.observed = m.observed ++
        [buildClearAndSelectChange (m.selectedIndices.bitset.bits.filter (· ≠ row)) row] := by
  have hrow0 := m.selectedIndices.bitset.nonneg row hrow
  have hselected : m.isSelected row = true := by
    have hroom : row < m.selectedIndices.bitsetSize := by
      have := m.selectedIndices.bitset.bounded row hrow
      rw [SelectedIndicesList.bitsetSize, JavaBitSet.size]
      push_cast
      exact this
    rw [isSelected, if_pos ⟨hrow0, hroom⟩, SelectedIndicesList.isSelected]
    simpa [JavaBitSet.get] using hrow
  have atomic : m.startAtomic.selectedIndices.isAtomic = true := by
    simp [startAtomic, SelectedIndicesList.startAtomic, SelectedIndicesList.isAtomic]
  obtain ⟨u, hu⟩ : ∃ u : ItemSelection T, u = { m.startAtomic with selectedIndices :=
    { m.startAtomic.selectedIndices with bitset := m.startAtomic.selectedIndices.bitset.clearAll } } := ⟨_, rfl⟩
  have hatomic : u.selectedIndices.isAtomic = true := hu ▸ atomic
  have hclear : m.startAtomic.clearSelection items = .done u := by
    rw [clearSelection, quietClearSelection_atomic atomic, Outcome.map_done, ← hu, if_pos hatomic]
  obtain ⟨t, hselect, hobserved, hrows⟩ := @select_atomic T equals items row u hatomic (by rw [hu]; rfl) hrow0 hitems
  have honly : t.selectedIndices.bitset.bits = [row] :=
    eq_of_increasing t.selectedIndices.bitset.increasing (List.pairwise_singleton _ _) fun z => by simp [hrows]
  have hkept : u.observed = m.observed := by rw [hu]; rfl
  rw [clearAndSelect, if_neg (by omega)]
  dsimp only
  rw [if_neg (fun h => by omega), hclear, Outcome.bind_done, hselect, Outcome.bind_done, hselected]
  refine ⟨_, rfl, honly, ?_⟩
  show t.observed ++ _ = _
  rw [hobserved, hkept]
  rfl

end Calls
end ItemSelection

/-! ## Both changes -/

namespace ItemSelection
variable {T : Type}

/-- The added rows in front of the removed ones lead to the new selection:
nothing is removed, or nothing added and the first rows removed. -/
def Replayable (items : List (Option T)) (shifts : List Shift) (m : ItemSelection T) : Prop :=
  (∀ z ∈ m.selectedIndices.bitset.bits, m.RowAfter items shifts z) ∨
    (∀ z, m.RowAfter items shifts z → z ∈ m.selectedIndices.bitset.bits) ∧
      (m.selectedIndices.bitset.bits.filter fun z => decide (¬ m.RowAfter items shifts z))
        <+: m.selectedIndices.bitset.bits

end ItemSelection

open ItemSelection MultipleAdditionAndRemovedChange in
/-- The change of `clearAndSelect` leads to the selected row exactly if all rows before it were
selected or none behind it.  `shiftSelection` throws exactly if its shifts note more rows than the
bit set has bits, and fires exactly if they note one.  Its change has each added row once, at its
position, in each iteration, and leads to the new selection exactly if that can be replayed. -/
theorem selection_changes_iff {T : Type} [DecidableEq T] (equals : T → T → Bool) (items : List (Option T))
    (same : Int → Int → Bool) (hsame : ∀ a b, same a b = true → a = b) :
    (∀ (m : ItemSelection T) (row : Int), row ∈ m.selectedIndices.bitset.bits → row < getItemCount items →
      2 ≤ m.selectedIndices.size →
      ∃ t change, clearAndSelect equals items row m = .done t ∧ t.observed = m.observed ++ [change] ∧
        t.selectedIndices.bitset.bits = [row] ∧
        (Change.replay [row] change m.selectedIndices.bitset.bits = some [row] ↔
          (∀ z, 0 ≤ z → z < row → z ∈ m.selectedIndices.bitset.bits) ∨
            ∀ z ∈ m.selectedIndices.bitset.bits, z ≤ row)) ∧
    ∀ (m : ItemSelection T) (shifts : List Shift), ListChangeBuilder.Idle m.selectedIndices.builder →
      m.selectedIndices.size ≠ 0 → shifts ≠ [] →
      (m.selectedIndices.bitsetSize < (m.shifted items shifts).noted →
        ∃ x t, shiftSelection equals items shifts m = .thrown x t) ∧
      ((m.shifted items shifts).noted ≤ m.selectedIndices.bitsetSize →
        ∃ t, shiftSelection equals items shifts m = .done t ∧
          (t.change.isSome = true ↔ 0 < (m.shifted items shifts).noted) ∧
          ∀ addedElements removedElements, t.change = some (addedElements, removedElements) →
            (∀ z, z ∈ t.model.selectedIndices.bitset.bits ↔ m.RowAfter items shifts z) ∧ addedElements.Nodup ∧
            (∀ z, z ∈ addedElements ↔ m.RowAfter items shifts z ∧ z ∉ m.selectedIndices.bitset.bits) ∧
            (∀ turns, addedElements.length + 2 ≤ turns → ∃ last again,
              iterate turns (new t.model.selectedIndices.bitset.bits same addedElements removedElements)
                = .ok (some (reported t.model.selectedIndices.bitset.bits addedElements removedElements, last)) ∧
              iterate turns last.reset
                = .ok (some (reported t.model.selectedIndices.bitset.bits addedElements removedElements, again))) ∧
            (Change.replay t.model.selectedIndices.bitset.bits
                (reported t.model.selectedIndices.bitset.bits addedElements removedElements)
                m.selectedIndices.bitset.bits = some t.model.selectedIndices.bitset.bits ↔
              m.Replayable items shifts)) := by
  refine ⟨fun m row hrow hitems hsize => ?_, fun m shifts idle hsize hshifts => ?_⟩
  · obtain ⟨t, hdone, hbits, hobserved⟩ := @clearAndSelect_fires _ equals _ _ _ _ hitems hrow hsize
    exact ⟨t, _, hdone, hobserved, hbits, clearAndSelectChange_replay_iff m.selectedIndices.bitset.increasing
      m.selectedIndices.bitset.nonneg hrow⟩
  · have hspec := @shiftSelection_spec T equals items m idle hsize shifts hshifts
    refine ⟨fun full => ?_, fun fits => ?_⟩
    · rcases hspec with ⟨-, hthrown⟩ | ⟨fits, -⟩
      · exact hthrown
      · omega
    rcases hspec with ⟨full, -⟩ | ⟨-, t, hdone, hnone, hfired⟩
    · omega
    refine ⟨t, hdone, ?_, ?_⟩
    · by_cases changed : 0 < (m.shifted items shifts).noted
      · rw [(hfired changed).2]
        simpa using changed
      · rw [hnone (by omega)]
        simpa using changed
    intro addedElements removedElements hchange
    have changed : 0 < (m.shifted items shifts).noted := by
      by_contra still
      rw [hnone (by omega)] at hchange
      cases hchange
    obtain ⟨hrows, hrest⟩ := hfired changed
    rw [hrest] at hchange
    obtain ⟨hadded, hremoved⟩ := Prod.mk.inj (Option.some.inj hchange)
    subst hadded hremoved
    have hnodup : t.model.selectedIndices.bitset.bits.Nodup :=
      t.model.selectedIndices.bitset.increasing.imp fun h => ne_of_lt h
    have honce := hnodup.filter fun row => decide (row ∉ m.selectedIndices.bitset.bits)
    have hsub : ∀ z ∈ t.model.selectedIndices.bitset.bits.filter fun row =>
        decide (row ∉ m.selectedIndices.bitset.bits), z ∈ t.model.selectedIndices.bitset.bits :=
      fun z hz => (List.mem_filter.mp hz).1
    refine ⟨hrows, honce, fun z => by simp [List.mem_filter, hrows], fun turns hturns => ?_, ?_⟩
    · obtain ⟨last, hfirst, hreset⟩ := iterate_from hsame honce hsub _ (Nat.zero_add _) hturns at_new
      obtain ⟨again, hagain, -⟩ := iterate_from hsame honce hsub _ (Nat.zero_add _) hturns at_new
      exact ⟨last, again, hfirst, hreset ▸ hagain⟩
    · rw [replay_reported_iff m.selectedIndices.bitset.increasing t.model.selectedIndices.bitset.increasing]
      unfold Replayable
      simp only [hrows]

def tenItems : List (Option Nat) := List.replicate 10 (some 0)

def withRows (rows : List Int) : ItemSelection Nat :=
  (Outcome.run (ItemSelection.select (fun a b => a == b) tenItems) rows (.create .multiple (-1))).state

/-- A list of so many items, which an item was inserted into. -/
def moreItems (n : Nat) : List (Option Nat) := List.replicate n (some 0)

def shiftable (rows : List Int) (lead : Int) : ItemSelection Nat :=
  { ItemSelection.create .multiple (-1) with
    selectedIndices := (Outcome.run (SelectedIndicesList.set 80) rows .create).state
    selectedIndex := lead }

open ItemSelection MultipleAdditionAndRemovedChange in
theorem selection_changes_replayed :
    (∃ t change, clearAndSelect (fun a b => a == b) tenItems 1 (withRows [0, 1, 3]) = .done t ∧
      t.observed = (withRows [0, 1, 3]).observed ++ [change] ∧ Change.replay [1] change [0, 1, 3] = some [1]) ∧
    ∃ t, shiftSelection (fun a b => a == b) (moreItems 11) [(1, 1)] (shiftable [3] 2) = .done t ∧
      t.change = some ([4], []) ∧ Change.replay t.model.selectedIndices.bitset.bits
        (reported t.model.selectedIndices.bitset.bits [4] []) [3] = some t.model.selectedIndices.bitset.bits := by
  have h := selection_changes_iff (fun a b : Nat => a == b) tenItems (fun a b => a == b) (fun a b hab => by simpa using hab)
  have h' := selection_changes_iff (fun a b : Nat => a == b) (moreItems 11) (fun a b => a == b)
    (fun a b hab => by simpa using hab)
  obtain ⟨t, change, hdone, hobserved, -, hiff⟩ := h.1 (withRows [0, 1, 3]) 1 (by decide +kernel) (by decide +kernel)
    (by decide +kernel)
  have hbits : (withRows [0, 1, 3]).selectedIndices.bitset.bits = [0, 1, 3] := by decide +kernel
  rw [hbits] at hiff
  refine ⟨⟨t, change, hdone, hobserved, hiff.mpr (Or.inl fun z h0 hz => ?_)⟩, ?_⟩
  · rw [(by omega : z = 0)]
    exact List.mem_cons_self
  · obtain ⟨u, hshifted, -, hreport⟩ := (h'.2 (shiftable [3] 2) [(1, 1)]
      ⟨by decide +kernel, by decide +kernel, by decide +kernel, by decide +kernel⟩ (by decide +kernel) (by decide)).2
      (by decide +kernel)
    have hchange : u.change = some ([4], []) := by
      have hstate : (shiftSelection (fun a b => a == b) (moreItems 11) [(1, 1)] (shiftable [3] 2)).state.change
          = some ([4], []) := by decide +kernel
      rw [hshifted] at hstate
      exact hstate
    have hold : (shiftable [3] 2).selectedIndices.bitset.bits = [3] := by decide +kernel
    obtain ⟨-, -, -, -, hreplay⟩ := hreport _ _ hchange
    rw [hold] at hreplay
    refine ⟨u, hshifted, hchange, hreplay.mpr (Or.inl ?_)⟩
    rw [hold]
    decide +kernel

open ItemSelection MultipleAdditionAndRemovedChange in
/-- Of the rows 2, 5 and 7 the two removed ones are reported in front of row 5.  When row 2 moves
to 3, the change adds row 3 at position 0 and removes row 2 there, which is behind it by then.  And
five insertions in front of 13 rows at the end of the bit set note 65 rows in 64 places. -/
theorem selection_changes_misreport :
    ((clearAndSelect (fun a b => a == b) tenItems 5 (withRows [2, 5, 7])).state.observed
        = (withRows [2, 5, 7]).observed ++ [[⟨0, 0, some [2, 7], [], false⟩]] ∧
      Change.replay [5] [⟨0, 0, some [2, 7], [], false⟩] [2, 5, 7] ≠ some [5]) ∧
    ((shiftSelection (fun a b => a == b) (moreItems 11) [(0, 1)] (shiftable [2] 2)).state.change = some ([3], [2]) ∧
      (shiftSelection (fun a b => a == b) (moreItems 11) [(0, 1)]
        (shiftable [2] 2)).state.model.selectedIndices.bitset.bits = [3] ∧
      iterate 3 (new [3] (fun a b => a == b) [3] [2]) = .ok (some
        ([⟨0, 1, some [], [], false⟩, ⟨0, 0, some [2], [], false⟩],
          ⟨[3], fun a b => a == b, [3], [2], false, false, true, 1, 0, 0⟩)) ∧
      Change.replay [3] [⟨0, 1, some [], [], false⟩, ⟨0, 0, some [2], [], false⟩] [2] ≠ some [3]) ∧
    ∃ t, shiftSelection (fun a b => a == b) (moreItems 80) [(0, 1), (2, 1), (4, 1), (6, 1), (8, 1)]
      (shiftable (intRange 51 64) 51) = .thrown .arrayIndexOutOfBounds t :=
  ⟨⟨by decide +kernel, by decide +kernel⟩, ⟨by decide +kernel, by decide +kernel, rfl, by decide +kernel⟩,
    (shiftSelection (fun a b => a == b) (moreItems 80) [(0, 1), (2, 1), (4, 1), (6, 1), (8, 1)]
      (shiftable (intRange 51 64) 51)).state, by decide +kernel⟩

end OpenJfx.Controls
