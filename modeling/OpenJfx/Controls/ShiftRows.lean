import OpenJfx.Controls.SelectedIndicesCalls
import OpenJfx.Lib.Arrays
import OpenJfx.Controls.ShiftSelection

/-! # The rows behind a shift

What the loops of `doShift` do, as a rule on sets of rows: the rows that a shift
visits move together, and a row that nothing moves to is left empty.  The loops
throw exactly when all shifts together note more rows than `perm` has room for. -/
set_option autoImplicit false
namespace OpenJfx.Controls

open OpenJfx.Lib OpenJfx.Collections

/-- The selected rows, the words of their bit set and the number of rows noted. -/
structure ShiftRows where
  selected : Int → Bool
  words : Nat
  noted : Nat

namespace ShiftRows

/-- The rows whose selection the shift moves, in the order of the loop. -/
def visited (shift : Shift) (r : ShiftRows) : List Int :=
  let size : Int := 64 * r.words - r.noted
  if 0 < shift.2 then (intRange shift.1 size).reverse else intRange (max shift.1 1 - shift.2) (size + 1)

/-- All of `rows` move by `k`.  A row behind the last item is not selected, nor
is it cleared if it would have been. -/
def move (itemCount k : Int) (rows : List Int) (r : ShiftRows) : ShiftRows where
  selected z :=
    (r.selected z && decide (z ∉ rows) && (decide (z - k ∉ rows) || r.selected (z - k))) ||
      (decide (z - k ∈ rows) && r.selected (z - k) && decide (z < itemCount))
  words := (rows.filter fun z => r.selected z && decide (z + k < itemCount)).foldl
    (fun words z => JavaBitSet.expandTo words (z + k).toNat) r.words
  noted := r.noted + (rows.filter r.selected).length

def shift (itemCount : Int) (r : ShiftRows) (shift : Shift) : ShiftRows :=
  if shift.1 < 0 ∨ shift.2 = 0 then r
  else
    let moved := r.move itemCount shift.2 (r.visited shift)
    if 0 < shift.2 then { moved with selected := fun z => moved.selected z && decide (z ≠ shift.1) } else moved

/-- All shifts, from the rows of a bit set that has just been cloned. -/
def shiftAll (itemCount : Int) (shifts : List Shift) (bitset : JavaBitSet) : ShiftRows :=
  (sortShifts shifts).foldl (shift itemCount) ⟨bitset.get, bitset.wordsInUse, 0⟩

section Move
variable {itemCount k a : Int} {rows : List Int} {r : ShiftRows}

theorem ext {r r' : ShiftRows} (hselected : ∀ z, r.selected z = r'.selected z) (hwords : r.words = r'.words)
    (hnoted : r.noted = r'.noted) : r = r' := by
  cases r
  cases r'
  have hfun := funext hselected
  simp_all

@[simp] theorem move_nil : r.move itemCount k [] = r := by
  refine ext ?_ rfl rfl
  intro z
  simp [move]

theorem move_one (hk : k ≠ 0) (z : Int) :
    (r.move itemCount k [a]).selected z = if z = a then false
      else if z = a + k then r.selected a && (r.selected z || decide (z < itemCount)) else r.selected z := by
  by_cases row : z = a
  · have hback : ¬ z - k = a := by omega
    simp [move, row]
    omega
  by_cases target : z = a + k
  · have hback : z - k = a := by omega
    rw [if_neg row, if_pos target]
    simp only [move, List.mem_singleton, hback, row, not_true_eq_false, not_false_eq_true, decide_true, decide_false,
      Bool.and_true, Bool.false_or, Bool.true_and]
    cases r.selected a with
    | true => simp
    | false => simp
  · have hback : z - k ≠ a := by omega
    rw [if_neg row, if_neg target]
    simp [move, row, hback]

/-- One row after the other, each target before its row. -/
theorem move_cons (hk : k ≠ 0) (order : (a :: rows).Pairwise fun a b => b ≠ a ∧ b ≠ a + k) :
    (r.move itemCount k [a]).move itemCount k rows = r.move itemCount k (a :: rows) := by
  have hrest := (List.pairwise_cons.mp order).1
  have hnot : a ∉ rows := fun h => (hrest a h).1 rfl
  have hnot' : a + k ∉ rows := fun h => (hrest (a + k) h).2 rfl
  have hsame : ∀ z ∈ rows, (r.move itemCount k [a]).selected z = r.selected z := by
    intro z hz
    rw [move_one hk, if_neg (hrest z hz).1, if_neg (hrest z hz).2]
  refine ext ?_ ?_ ?_
  · intro z
    show (((r.move itemCount k [a]).selected z && decide (z ∉ rows) &&
        (decide (z - k ∉ rows) || (r.move itemCount k [a]).selected (z - k))) ||
      (decide (z - k ∈ rows) && (r.move itemCount k [a]).selected (z - k) && decide (z < itemCount))) =
      ((r.selected z && decide (z ∉ a :: rows) && (decide (z - k ∉ a :: rows) || r.selected (z - k))) ||
        (decide (z - k ∈ a :: rows) && r.selected (z - k) && decide (z < itemCount)))
    have hmem : ∀ y, y ∈ a :: rows ↔ y = a ∨ y ∈ rows := fun y => List.mem_cons
    by_cases source : z - k ∈ rows
    · have hother : z - k ≠ a := (hrest _ source).1
      have hz : z ≠ a + k := by omega
      rw [hsame _ source, move_one hk, if_neg hz]
      by_cases row : z = a
      · simp [hmem, hk, row]
      · simp [hmem, source, row]
    · by_cases target : z = a + k
      · have hback : z - k = a := by omega
        have hz : z ∉ rows := target ▸ hnot'
        have hrow : z ≠ a := by omega
        rw [move_one hk, if_neg hrow, if_pos target]
        simp only [hmem, hback, hz, hnot, hrow, or_false, not_true_eq_false, not_false_eq_true, decide_true,
          decide_false, Bool.and_true, Bool.true_or, Bool.false_and, Bool.or_false, Bool.false_or, Bool.true_and]
        cases r.selected a with
        | true => simp
        | false => simp
      · have hback : z - k ≠ a := by omega
        rw [move_one hk, if_neg target]
        by_cases row : z = a
        · subst row
          simp [hmem, source, hk]
        · simp [hmem, source, hback, row]
  · have hfilter : (rows.filter fun z => (r.move itemCount k [a]).selected z && decide (z + k < itemCount))
        = rows.filter fun z => r.selected z && decide (z + k < itemCount) :=
      List.filter_congr fun z hz => by rw [hsame z hz]
    show List.foldl _ (r.move itemCount k [a]).words (rows.filter fun z =>
      (r.move itemCount k [a]).selected z && decide (z + k < itemCount)) = List.foldl _ r.words _
    rw [hfilter]
    simp only [move, List.filter_cons]
    split <;> rfl
  · have hfilter : rows.filter (r.move itemCount k [a]).selected = rows.filter r.selected :=
      List.filter_congr fun z hz => hsame z hz
    show r.noted + ([a].filter r.selected).length + (rows.filter (r.move itemCount k [a]).selected).length
      = r.noted + ((a :: rows).filter r.selected).length
    rw [hfilter, Nat.add_assoc, ← List.length_append, ← List.filter_append, List.singleton_append]

end Move

/-! ## The loops -/

/-- The first `n` entries of `perm` are noted, the others are free. -/
def Noted (room n : Nat) (perm : List Int) : Prop :=
  n ≤ room ∧ ∃ values, values.length = n ∧ (∀ v ∈ values, -1 < v) ∧ perm = values ++ List.replicate (room - n) (-1)

/-- Inside the atomic block that was begun in `start`, the bit set and `perm` are
those of `r`. -/
structure Represents (room : Nat) (start : SelectedIndicesList) (r : ShiftRows) (s : SelectedIndicesList)
    (perm : List Int) : Prop where
  builder : s.builder = start.builder
  atomicity : s.atomicityCount = start.atomicityCount
  selected : ∀ z, s.isSelected z = r.selected z
  words : s.bitset.words = r.words
  perm : Noted room r.noted perm

/-- A computation that leaves what `r` says, or throws because `perm` is full. -/
def Yields {σ : Type} (room : Nat) (r : ShiftRows) (holds : σ → Prop) (o : Outcome Exn σ) : Prop :=
  (r.noted ≤ room ∧ ∃ w, o = .done w ∧ holds w) ∨ (room < r.noted ∧ ∃ x w, o = .thrown x w)

theorem Yields.bind {σ : Type} {room : Nat} {r r' : ShiftRows} {holds holds' : σ → Prop} {o : Outcome Exn σ}
    {next : σ → Outcome Exn σ} (h : Yields room r holds o) (more : r.noted ≤ r'.noted)
    (rest : ∀ w, holds w → Yields room r' holds' (next w)) : Yields room r' holds' (o.bind next) := by
  rcases h with ⟨-, w, rfl, hw⟩ | ⟨full, x, w, rfl⟩
  · exact rest w hw
  · exact Or.inr ⟨by omega, x, w, rfl⟩

theorem Yields.map {σ τ : Type} {room : Nat} {r : ShiftRows} {holds : σ → Prop} {holds' : τ → Prop} {o : Outcome Exn σ}
    (h : Yields room r holds o) {g : σ → τ} (hg : ∀ w, holds w → holds' (g w)) : Yields room r holds' (o.map g) := by
  rcases h with ⟨fits, w, rfl, hw⟩ | ⟨full, x, w, rfl⟩
  · exact Or.inl ⟨fits, g w, rfl, hg w hw⟩
  · exact Or.inr ⟨full, x, g w, rfl⟩

section Loops
variable {itemCount k row value : Int} {rows : List Int} {room n : Nat} {start : SelectedIndicesList} {r : ShiftRows}
  {w : Shifting} {perm : List Int}

theorem noted_eq (h : Noted room n perm) : OpenJfx.Controls.noted perm = n := by
  obtain ⟨-, values, hlength, hvalues, rfl⟩ := h
  unfold OpenJfx.Controls.noted
  rw [List.filter_append, List.filter_eq_self.mpr fun v hv => by simpa using hvalues v hv, List.filter_eq_nil_iff.mpr,
    List.append_nil, hlength]
  intro v hv
  rw [List.eq_of_mem_replicate hv]
  simp

theorem writeAt_noted (h : Noted room n perm) (hvalue : -1 < value) :
    (n < room ∧ ∃ perm', writeAt perm n value = .ok perm' ∧ Noted room (n + 1) perm') ∨
      (n = room ∧ ∃ x, writeAt perm n value = .error x) := by
  obtain ⟨fits, values, hlength, hvalues, rfl⟩ := h
  by_cases free : n < room
  · obtain ⟨m, hm⟩ : ∃ m, room - n = m + 1 := ⟨room - n - 1, by omega⟩
    refine Or.inl ⟨free, values ++ value :: List.replicate m (-1), ?_, free, values ++ [value], ?_, ?_, ?_⟩
    · rw [hm, List.replicate_succ]
      exact writeAt_split (by rw [hlength])
    · rw [List.length_append, hlength, List.length_singleton]
    · intro v hv
      rcases List.mem_append.mp hv with hv | hv
      · exact hvalues v hv
      · rw [List.mem_singleton.mp hv]
        exact hvalue
    · rw [show room - (n + 1) = m by omega, List.append_assoc, List.singleton_append]
  · refine Or.inr ⟨by omega, .arrayIndexOutOfBounds, ?_⟩
    rw [show room - n = 0 by omega, List.replicate_zero, List.append_nil]
    show (if n < values.length then _ else _) = _
    rw [if_neg (by omega)]

theorem Represents.isAtomic {s : SelectedIndicesList} (h : Represents room start r s perm)
    (atomic : start.isAtomic = true) : s.isAtomic = true := by
  unfold SelectedIndicesList.isAtomic
  rw [h.atomicity]
  exact atomic

/-- `clear(row)` in the loops. -/
theorem clear_represents (atomic : start.isAtomic = true) (h : Represents room start r w.selectedIndices w.perm)
    (hrow : 0 ≤ row) : ∃ s, w.clear row = .done { w with selectedIndices := s } ∧
      Represents room start { r with selected := fun z => r.selected z && decide (z ≠ row) } s w.perm := by
  obtain ⟨s, hclear, hbuilder, hcount, hwords, hmem⟩ := SelectedIndicesList.clear_atomic (h.isAtomic atomic) hrow
  refine ⟨s, ?_, hbuilder.trans h.builder, hcount.trans h.atomicity, ?_, hwords.trans h.words, h.perm⟩
  · unfold Shifting.clear
    rw [hclear]
    rfl
  · intro z
    show s.isSelected z = (r.selected z && decide (z ≠ row))
    rw [← h.selected]
    simp only [SelectedIndicesList.isSelected, JavaBitSet.get, hmem, Bool.decide_and]

/-- `set(row, true)` in the loops. -/
theorem set_represents (atomic : start.isAtomic = true) (h : Represents room start r w.selectedIndices w.perm)
    (hrow : 0 ≤ row) : ∃ s, w.set itemCount row true = .done { w with selectedIndices := s } ∧
      Represents room start
        { r with
          selected := fun z => r.selected z || (decide (z = row) && decide (z < itemCount))
          words := if row < itemCount then JavaBitSet.expandTo r.words row.toNat else r.words } s w.perm := by
  by_cases inside : row < itemCount
  · have valid : SelectedIndicesList.isValidIndex itemCount row = true := by
      simp [SelectedIndicesList.isValidIndex, hrow, inside]
    obtain ⟨s, hset, hbuilder, hcount, hwords, hmem⟩ := SelectedIndicesList.set_atomic (h.isAtomic atomic) valid
    refine ⟨s, ?_, hbuilder.trans h.builder, hcount.trans h.atomicity, ?_, ?_, h.perm⟩
    · unfold Shifting.set
      rw [if_pos rfl, hset]
      rfl
    · intro z
      show s.isSelected z = (r.selected z || (decide (z = row) && decide (z < itemCount)))
      rw [← h.selected]
      simp only [SelectedIndicesList.isSelected, JavaBitSet.get, hmem, Bool.decide_or]
      by_cases same : z = row
      · simp [same, inside]
      · simp [same]
    · show s.bitset.words = if row < itemCount then _ else _
      rw [if_pos inside, hwords, h.words]
  · refine ⟨w.selectedIndices, ?_, h.builder, h.atomicity, ?_, ?_, h.perm⟩
    · unfold Shifting.set SelectedIndicesList.set
      rw [if_pos rfl, if_pos (Or.inl (by simp [SelectedIndicesList.isValidIndex, inside]))]
      rfl
    · intro z
      show w.selectedIndices.isSelected z = (r.selected z || (decide (z = row) && decide (z < itemCount)))
      rw [h.selected]
      by_cases same : z = row
      · simp [same, inside]
      · simp [same]
    · show w.selectedIndices.bitset.words = if row < itemCount then _ else _
      rw [if_neg inside, h.words]

/-- The counter of the loops is the number of rows noted. -/
def Loops (room : Nat) (start : SelectedIndicesList) (r : ShiftRows) (w : Shifting) : Prop :=
  Represents room start r w.selectedIndices w.perm ∧ w.idx = r.noted

theorem move_one_free (hk : k ≠ 0) (free : r.selected row = false) : r.move itemCount k [row] =
    { r with selected := fun z => (r.selected z && decide (z ≠ row)) && decide (z ≠ row + k) } := by
  refine ext ?_ ?_ ?_
  · intro z
    rw [move_one hk, free]
    by_cases here : z = row
    · simp [here]
    · by_cases target : z = row + k
      · simp [target]
      · simp [here, target]
  · simp [move, free]
  · simp [move, free]

theorem move_one_selected (hk : k ≠ 0) (hselected : r.selected row = true) : r.move itemCount k [row] =
    ⟨fun z => (r.selected z && decide (z ≠ row)) || (decide (z = row + k) && decide (z < itemCount)),
      if row + k < itemCount then JavaBitSet.expandTo r.words (row + k).toNat else r.words, r.noted + 1⟩ := by
  refine ext ?_ ?_ ?_
  · intro z
    rw [move_one hk, hselected]
    by_cases here : z = row
    · have hother : row ≠ row + k := by omega
      simp [here, hk]
    · by_cases target : z = row + k
      · simp [target, hk]
      · simp [here, target]
  · by_cases inside : row + k < itemCount
    · simp [move, hselected, inside]
    · simp [move, hselected, inside]
  · simp [move, hselected]

theorem moveRow_yields (atomic : start.isAtomic = true) (h : Loops room start r w) (hk : k ≠ 0) (hrow : 0 ≤ row)
    (htarget : 0 ≤ row + k) (hvalue : -1 < value) :
    Yields room (r.move itemCount k [row]) (Loops room start (r.move itemCount k [row]))
      (w.moveRow itemCount row (row + k) value) := by
  obtain ⟨represents, counter⟩ := h
  obtain ⟨s₁, hclear, cleared⟩ := clear_represents atomic represents hrow
  unfold Shifting.moveRow
  dsimp only
  rw [hclear, Outcome.bind_done, represents.selected]
  cases hselected : r.selected row with
  | false =>
    obtain ⟨s₂, hclear', cleared'⟩ := @clear_represents _ room start _ { w with selectedIndices := s₁ } atomic cleared
      htarget
    rw [move_one_free hk hselected, Shifting.set, if_neg Bool.false_ne_true, hclear', Outcome.bind_done,
      if_neg Bool.false_ne_true]
    exact Or.inl ⟨represents.perm.1, _, rfl, cleared', counter⟩
  | true =>
    obtain ⟨s₂, hset, moved⟩ := @set_represents itemCount _ room start _ { w with selectedIndices := s₁ } atomic cleared
      htarget
    rw [move_one_selected hk hselected, hset, Outcome.bind_done, if_pos rfl]
    unfold Shifting.note
    dsimp only
    rw [counter]
    rcases writeAt_noted represents.perm hvalue with ⟨free, perm, hwrite, hnoted⟩ | ⟨full, x, hwrite⟩
    · rw [hwrite]
      exact Or.inl ⟨free, _, rfl, ⟨moved.builder, moved.atomicity, moved.selected, moved.words, hnoted⟩, rfl⟩
    · rw [hwrite]
      refine Or.inr ⟨?_, x, _, rfl⟩
      show room < r.noted + 1
      omega

/-- The rows of a loop, each after the one that it moves to. -/
theorem run_moveRow (atomic : start.isAtomic = true) (hk : k ≠ 0) (value : Int → Int)
    (order : rows.Pairwise fun a b => b ≠ a ∧ b ≠ a + k) (legal : ∀ z ∈ rows, 0 ≤ z ∧ 0 ≤ z + k ∧ -1 < value z)
    (h : Loops room start r w) :
    Yields room (r.move itemCount k rows) (Loops room start (r.move itemCount k rows))
      (Outcome.run (fun z => Shifting.moveRow itemCount z (z + k) (value z)) rows w) := by
  induction rows generalizing r w with
  | nil =>
    rw [move_nil]
    exact Or.inl ⟨h.1.perm.1, w, rfl, h⟩
  | cons a rows ih =>
    obtain ⟨hrow, htarget, hvalue⟩ := legal a List.mem_cons_self
    rw [Outcome.run_cons, ← move_cons hk order]
    refine (moveRow_yields atomic h hk hrow htarget hvalue).bind (Nat.le_add_right _ _) fun w' hw' => ?_
    exact ih (List.pairwise_cons.mp order).2 (fun z hz => legal z (List.mem_cons_of_mem a hz)) hw'

theorem intRange_increasing (lo hi : Int) : (intRange lo hi).Pairwise (· < ·) := by
  unfold intRange
  rw [List.pairwise_map]
  exact List.pairwise_lt_range.imp fun h => by omega

/-- The loop for `shift < 0` visits the rows behind the ones it passes over. -/
theorem removeLoop_eq {position : Int} (hposition : 0 ≤ position) (hk : k < 0) (size : Int) (w : Shifting) :
    w.removeLoop itemCount position k size
      = Outcome.run (fun z => Shifting.moveRow itemCount z (z + k) (z - 1)) (intRange (max position 1 - k) (size + 1)) w := by
  unfold Shifting.removeLoop
  have hskip : ∀ hi : Int, hi ≤ max position 1 - k - 1 → ∀ w : Shifting, Outcome.run (fun i w =>
      if i + k < 0 then .done w else if i + 1 + k < position then .done w
      else Shifting.moveRow itemCount (i + 1) (i + 1 + k) i w) (intRange position hi) w = .done w := by
    intro hi low w
    refine Outcome.run_skip fun i hi' => ?_
    have hrange := mem_intRange.mp hi'
    by_cases below : i + k < 0
    · rw [if_pos below]
    · rw [if_neg below, if_pos (by omega)]
  by_cases some : max position 1 - k - 1 ≤ size
  · have hmove : ∀ (is : List Int), (∀ i ∈ is, max position 1 - k - 1 ≤ i) → ∀ w : Shifting, Outcome.run (fun i w =>
        if i + k < 0 then .done w else if i + 1 + k < position then .done w
        else Shifting.moveRow itemCount (i + 1) (i + 1 + k) i w) is w
          = Outcome.run (fun z => Shifting.moveRow itemCount z (z + k) (z - 1)) (is.map (· + 1)) w := by
      intro is hall w
      induction is generalizing w with
      | nil => rfl
      | cons i is ih =>
        have hi := hall i List.mem_cons_self
        rw [List.map_cons, Outcome.run_cons, Outcome.run_cons, if_neg (by omega), if_neg (by omega), Int.add_sub_cancel]
        exact congrArg _ (funext fun w => ih (fun j hj => hall j (List.mem_cons_of_mem i hj)) w)
    have hmap : (intRange (max position 1 - k - 1) size).map (· + 1) = intRange (max position 1 - k) (size + 1) := by
      unfold intRange
      rw [List.map_map, show size + 1 - (max position 1 - k) = size - (max position 1 - k - 1) by omega]
      apply List.map_congr_left
      intro j _
      show max position 1 - k - 1 + (j : Int) + 1 = max position 1 - k + j
      omega
    rw [intRange_append (show position ≤ max position 1 - k - 1 by omega) some, Outcome.run_append,
      hskip _ le_rfl, Outcome.bind_done, hmove _ (fun i hi => (mem_intRange.mp hi).1), hmap]
  · rw [hskip size (by omega), intRange_of_ge (by omega), Outcome.run_nil]

theorem doShift_yields (atomic : start.isAtomic = true) (shift : Shift) {s : SelectedIndicesList}
    (h : Represents room start r s perm) :
    Yields room (r.shift itemCount shift) (fun w => Represents room start (r.shift itemCount shift) w.1 w.2)
      (doShift itemCount shift (s, perm)) := by
  obtain ⟨position, k⟩ := shift
  have hsize : (s.bitsetSize : Int) - OpenJfx.Controls.noted perm = 64 * r.words - r.noted := by
    rw [noted_eq h.perm, ← h.words]
    show ((64 * s.bitset.words : Nat) : Int) - r.noted = _
    omega
  have hloops : Loops room start r ⟨s, perm, OpenJfx.Controls.noted perm⟩ := ⟨h, noted_eq h.perm⟩
  unfold doShift ShiftRows.shift
  dsimp only
  by_cases outside : position < 0
  · rw [if_pos outside, if_pos (Or.inl outside)]
    exact Or.inl ⟨h.perm.1, _, rfl, h⟩
  by_cases still : k = 0
  · rw [if_neg outside, if_pos still, if_pos (Or.inr still)]
    exact Or.inl ⟨h.perm.1, _, rfl, h⟩
  rw [if_neg outside, if_neg still, if_neg (by omega), hsize]
  by_cases inserts : 0 < k
  · rw [if_pos inserts, if_pos inserts]
    have hrows : r.visited (position, k) = (intRange (max position 0) (64 * r.words - r.noted)).reverse := by
      unfold visited
      dsimp only
      rw [if_pos inserts, max_eq_left (by omega)]
    have hrun := @run_moveRow itemCount k (r.visited (position, k)) room start r _ atomic still (· + 1) (by
      rw [hrows, List.pairwise_reverse]
      exact (intRange_increasing _ _).imp fun h => by omega) (by
      intro z hz
      rw [hrows, List.mem_reverse, mem_intRange] at hz
      omega) hloops
    have hcleared : Yields room { r.move itemCount k (r.visited (position, k)) with
        selected := fun z => (r.move itemCount k (r.visited (position, k))).selected z && decide (z ≠ position) }
        (fun w => Represents room start { r.move itemCount k (r.visited (position, k)) with
          selected := fun z => (r.move itemCount k (r.visited (position, k))).selected z && decide (z ≠ position) }
          w.selectedIndices w.perm)
        ((Shifting.insertLoop itemCount position k (64 * r.words - r.noted)
          ⟨s, perm, OpenJfx.Controls.noted perm⟩).bind (Shifting.clear position)) := by
      unfold Shifting.insertLoop
      rw [← hrows]
      refine hrun.bind le_rfl fun w hw => ?_
      obtain ⟨s', hclear, hs'⟩ := clear_represents atomic hw.1 (not_lt.mp outside)
      exact Or.inl ⟨hs'.perm.1, _, hclear, hs'⟩
    exact hcleared.map fun w hw => hw
  · rw [if_neg inserts, if_neg inserts, removeLoop_eq (by omega) (by omega)]
    have hrows : r.visited (position, k) = intRange (max position 1 - k) (64 * r.words - r.noted + 1) := by
      unfold visited
      dsimp only
      rw [if_neg inserts]
    have hrun := @run_moveRow itemCount k (r.visited (position, k)) room start r _ atomic still (· - 1) (by
      rw [hrows]
      exact (intRange_increasing _ _).imp fun h => by omega) (by
      intro z hz
      rw [hrows, mem_intRange] at hz
      omega) hloops
    rw [← hrows]
    exact hrun.map fun w hw => hw.1

theorem noted_le_shift (r : ShiftRows) (shift : Shift) : r.noted ≤ (r.shift itemCount shift).noted := by
  unfold ShiftRows.shift
  by_cases nothing : shift.1 < 0 ∨ shift.2 = 0
  · rw [if_pos nothing]
  · rw [if_neg nothing]
    dsimp only
    split
    · exact Nat.le_add_right _ _
    · exact Nat.le_add_right _ _

theorem noted_le_foldl (shifts : List Shift) (r : ShiftRows) : r.noted ≤ (shifts.foldl (shift itemCount) r).noted := by
  induction shifts generalizing r with
  | nil => exact le_rfl
  | cons shift shifts ih => exact (noted_le_shift r shift).trans (ih _)

/-- All shifts, one after the other. -/
theorem run_doShift (atomic : start.isAtomic = true) (shifts : List Shift) {s : SelectedIndicesList}
    (h : Represents room start r s perm) :
    Yields room (shifts.foldl (shift itemCount) r)
      (fun w => Represents room start (shifts.foldl (shift itemCount) r) w.1 w.2)
      (Outcome.run (doShift itemCount) shifts (s, perm)) := by
  induction shifts generalizing r s perm with
  | nil => exact Or.inl ⟨h.perm.1, _, rfl, h⟩
  | cons shift shifts ih =>
    rw [List.foldl_cons, Outcome.run_cons]
    exact (doShift_yields atomic shift h).bind (noted_le_foldl shifts _) fun w hw => ih hw

end Loops

end ShiftRows

/-! ## The call -/

/-- The row that `shiftSelection` makes the lead, if the lead moves. -/
def leadRow (shifts : List Shift) (selectedIndex : Int) : Option Int :=
  match (sortShifts shifts).getLast? with
  | none => none
  | some (lowestShiftPosition, _) =>
      if lowestShiftPosition ≤ selectedIndex ∧ -1 < selectedIndex then
        some (newSelectionLead (sortShifts shifts) selectedIndex)
      else none

namespace ItemSelection
variable {T : Type} {equals : T → T → Bool} {items : List (Option T)} {m : ItemSelection T} {row : Int}

/-- What the shifts make of the selection, before the lead takes part. -/
def shifted (items : List (Option T)) (shifts : List Shift) (m : ItemSelection T) : ShiftRows :=
  ShiftRows.shiftAll (getItemCount items) shifts m.selectedIndices.bitset

/-- The rows selected after `shiftSelection`, when a selected row was shifted. -/
def RowAfter (items : List (Option T)) (shifts : List Shift) (m : ItemSelection T) (z : Int) : Prop :=
  (m.shifted items shifts).selected z = true ∨ (leadRow shifts m.selectedIndex = some z ∧ z < getItemCount items)

instance (items : List (Option T)) (shifts : List Shift) (m : ItemSelection T) (z : Int) :
    Decidable (m.RowAfter items shifts z) := inferInstanceAs (Decidable (_ ∨ _))

theorem onIndices_set (idle : ListChangeBuilder.Idle m.selectedIndices.builder) (hrow : 0 ≤ row) :
    ∃ s, m.onIndices (SelectedIndicesList.set (getItemCount items) row) = .done { m with selectedIndices := s } ∧
      ∀ z, z ∈ s.bitset.bits ↔ z ∈ m.selectedIndices.bitset.bits ∨ (z = row ∧ z < getItemCount items) := by
  by_cases inside : row < getItemCount items
  · obtain ⟨s, hset, -, -, hmem⟩ := SelectedIndicesList.set_leaves idle hrow inside
    refine ⟨s, by rw [onIndices, hset, Outcome.map_done], fun z => ?_⟩
    rw [hmem]
    refine or_congr_right ⟨?_, And.left⟩
    rintro rfl
    exact ⟨rfl, inside⟩
  · refine ⟨m.selectedIndices, ?_, fun z => ⟨Or.inl, ?_⟩⟩
    · unfold onIndices SelectedIndicesList.set
      rw [if_pos (Or.inl (by simp [SelectedIndicesList.isValidIndex, inside]))]
      rfl
    · rintro (hz | ⟨rfl, hlt⟩)
      · exact hz
      · exact absurd hlt inside

theorem select_returns (idle : ListChangeBuilder.Idle m.selectedIndices.builder) (hrow : 0 ≤ row) :
    ∃ t, m.select equals items row = .done t := by
  unfold select
  rw [if_neg (by omega)]
  by_cases outside : row < 0 ∨ getItemCount items ≤ row
  · rw [if_pos outside]
    exact ⟨m, rfl⟩
  rw [if_neg outside]
  dsimp only
  by_cases free : (m.focus row).selectedIndices.isSelected row = false
  · rw [if_pos free]
    obtain ⟨u, hcleared, hidle⟩ : ∃ u : ItemSelection T,
        (if (m.focus row).selectionMode = .single then (m.focus row).startAtomic.quietClearSelection.map stopAtomic
          else .done (m.focus row)) = .done u ∧ ListChangeBuilder.Idle u.selectedIndices.builder := by
      by_cases single : (m.focus row).selectionMode = .single
      · obtain ⟨s, hclear, hidle, -, -⟩ := @SelectedIndicesList.clearAll_leaves
          (m.focus row).startAtomic.selectedIndices idle
        rw [if_pos single, quietClearSelection, onIndices, hclear]
        exact ⟨_, rfl, hidle⟩
      · rw [if_neg single]
        exact ⟨_, rfl, idle⟩
    obtain ⟨s, hset, -⟩ := @onIndices_set T items u row hidle hrow
    rw [hcleared, Outcome.bind_done, hset]
    exact ⟨_, rfl⟩
  · rw [if_neg free]
    exact ⟨_, rfl⟩

/-- The lead is selected when rows were shifted. -/
theorem shiftLead_spec (idle : ListChangeBuilder.Idle m.selectedIndices.builder) (shifts : List Shift) :
    (∃ t, m.shiftLead equals items shifts false = .done t) ∧
      ∃ t, m.shiftLead equals items shifts true = .done t ∧
        ∀ z, z ∈ t.selectedIndices.bitset.bits ↔ z ∈ m.selectedIndices.bitset.bits ∨
          (z = newSelectionLead shifts m.selectedIndex ∧ z < getItemCount items) := by
  have hlead : 0 ≤ newSelectionLead shifts m.selectedIndex := le_max_left _ _
  have idle' : ListChangeBuilder.Idle
      (m.setSelectedIndex items (newSelectionLead shifts m.selectedIndex)).selectedIndices.builder := by
    simpa using idle
  unfold shiftLead
  dsimp only
  constructor
  · rw [if_neg Bool.false_ne_true]
    exact select_returns idle' hlead
  · obtain ⟨s, hset, hmem⟩ := @onIndices_set T items _ _ idle' hlead
    rw [if_pos rfl, hset]
    refine ⟨_, rfl, fun z => ?_⟩
    show z ∈ s.bitset.bits ↔ _
    rw [hmem, setSelectedIndex_selectedIndices]

/-- What a call leaves: an exception, when the shifts note more rows than there
are bits; else a change exactly when they note a row. -/
theorem shiftSelection_spec (idle : ListChangeBuilder.Idle m.selectedIndices.builder) (hsome : m.selectedIndices.size ≠ 0)
    {shifts : List Shift} (hshifts : shifts ≠ []) :
    (m.selectedIndices.bitsetSize < (m.shifted items shifts).noted ∧
        ∃ x t, m.shiftSelection equals items shifts = .thrown x t) ∨
      ((m.shifted items shifts).noted ≤ m.selectedIndices.bitsetSize ∧
        ∃ t, m.shiftSelection equals items shifts = .done t ∧
          ((m.shifted items shifts).noted = 0 → t.change = none) ∧
          (0 < (m.shifted items shifts).noted →
            (∀ z, z ∈ t.model.selectedIndices.bitset.bits ↔ m.RowAfter items shifts z) ∧
            t.change = some (t.model.selectedIndices.bitset.bits.filter fun z =>
                decide (z ∉ m.selectedIndices.bitset.bits),
              m.selectedIndices.bitset.bits.filter fun z => decide (z ∉ t.model.selectedIndices.bitset.bits)))) := by
  obtain ⟨lowest, hlast⟩ : ∃ lowest, (sortShifts shifts).getLast? = some lowest := by
    rw [← Option.isSome_iff_exists, List.getLast?_isSome]
    unfold sortShifts
    intro hnil
    have hlength := List.length_insertionSort (fun s1 s2 : Shift => s2.1 ≤ s1.1) shifts
    rw [hnil] at hlength
    exact hshifts (List.length_eq_zero_iff.mp hlength.symm)
  have atomic : m.selectedIndices.cloned.startAtomic.isAtomic = true := by
    simp [SelectedIndicesList.startAtomic, SelectedIndicesList.isAtomic]
  have hstart : ShiftRows.Represents m.selectedIndices.bitsetSize m.selectedIndices.cloned.startAtomic
      ⟨m.selectedIndices.bitset.get, m.selectedIndices.bitset.wordsInUse, 0⟩ m.selectedIndices.cloned.startAtomic
      (List.replicate m.selectedIndices.bitsetSize (-1)) :=
    ⟨rfl, rfl, fun _ => rfl, rfl, Nat.zero_le _, [], rfl, by simp, rfl⟩
  have hrun := @ShiftRows.run_doShift (getItemCount items) _ _ _ _ atomic (sortShifts shifts) _ hstart
  unfold shiftSelection
  rw [if_neg hsome]
  dsimp only
  rw [hlast]
  dsimp only
  rcases hrun with ⟨fits, ⟨s, perm⟩, hdone, hs⟩ | ⟨full, x, ⟨s, perm⟩, hthrown⟩
  · have hnoted := ShiftRows.noted_eq hs.perm
    change noted perm = (m.shifted items shifts).noted at hnoted
    have hselected : ∀ z, s.isSelected z = (m.shifted items shifts).selected z := hs.selected
    have hrows : ∀ z, z ∈ s.bitset.bits ↔ (m.shifted items shifts).selected z = true := by
      intro z
      rw [← hselected, SelectedIndicesList.isSelected_iff]
    have hidle : ListChangeBuilder.Idle s.stopAtomic.builder := by
      show ListChangeBuilder.Idle s.builder
      rw [hs.builder]
      exact idle
    obtain ⟨⟨t, hquiet⟩, u, hled, hmem⟩ := @shiftLead_spec T equals items { m with selectedIndices := s.stopAtomic } hidle
      (sortShifts shifts)
    have hlead : leadRow shifts m.selectedIndex = if lowest.1 ≤ m.selectedIndex ∧ -1 < m.selectedIndex then
        some (newSelectionLead (sortShifts shifts) m.selectedIndex) else none := by
      unfold leadRow
      rw [hlast]
    rw [hdone]
    dsimp only
    rw [hnoted]
    refine Or.inr ⟨fits, ?_⟩
    by_cases changed : 0 < (m.shifted items shifts).noted
    · rw [show decide ((0 : Int) < (m.shifted items shifts).noted) = true by simpa using changed]
      simp only [if_true]
      by_cases leads : lowest.1 ≤ m.selectedIndex ∧ -1 < m.selectedIndex
      · rw [if_pos leads, hled]
        refine ⟨_, rfl, fun hnone => by omega, fun _ => ⟨fun z => ?_, rfl⟩⟩
        show z ∈ u.selectedIndices.bitset.bits ↔ _
        rw [hmem]
        unfold RowAfter
        rw [hlead, if_pos leads, Option.some_inj]
        exact or_congr (hrows z) (and_congr_left fun _ => eq_comm)
      · rw [if_neg leads]
        refine ⟨_, rfl, fun hnone => by omega, fun _ => ⟨fun z => ?_, rfl⟩⟩
        show z ∈ s.bitset.bits ↔ _
        unfold RowAfter
        rw [hlead, if_neg leads, hrows]
        simp
    · rw [show decide ((0 : Int) < (m.shifted items shifts).noted) = false by simpa using changed]
      simp only [Bool.false_eq_true, if_false]
      by_cases leads : lowest.1 ≤ m.selectedIndex ∧ -1 < m.selectedIndex
      · rw [if_pos leads, hquiet]
        exact ⟨_, rfl, fun _ => rfl, fun h => absurd h changed⟩
      · rw [if_neg leads]
        exact ⟨_, rfl, fun _ => rfl, fun h => absurd h changed⟩
  · rw [hthrown]
    exact Or.inl ⟨full, x, _, rfl⟩

end ItemSelection
end OpenJfx.Controls
