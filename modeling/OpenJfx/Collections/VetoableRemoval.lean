import OpenJfx.Collections.VetoableIterator
import OpenJfx.Lib.Positions

/-! # Bulk removal from a `VetoableListDecorator`

`removeFromList` collects the indices that `removeAll` and `retainAll` propose, in an
array of pairs that it extends as it goes. -/
set_option autoImplicit false
namespace OpenJfx.Collections
open OpenJfx.Lib

/-- The local variables of `removeFromList`: `pointer` is the index of the last entry that
is in use. -/
structure RemovedRanges where
  toBeRemoved : List Int
  pointer : Int
deriving DecidableEq, Repr

namespace RemovedRanges

def new : RemovedRanges := ⟨[0, 0], -1⟩

def put (index : Int) (r : RemovedRanges) : Except Exn RemovedRanges := do
  let a ← writeAt r.toBeRemoved (r.pointer + 1) index
  let a ← writeAt a (r.pointer + 2) (index + 1)
  .ok ⟨a, r.pointer + 2⟩

def grow (r : RemovedRanges) : RemovedRanges := { r with toBeRemoved := r.toBeRemoved ++ [0, 0] }

def cover (index : Int) (r : RemovedRanges) : Except Exn RemovedRanges :=
  if r.pointer = -1 then r.put index
  else do
    let last ← readAt r.toBeRemoved (r.pointer - 1)
    if last = index then do
      let a ← writeAt r.toBeRemoved (r.pointer - 1) (index + 1)
      .ok { r with toBeRemoved := a }
    else r.grow.put index

/-- The loop, from the index of the first element of the list on. -/
def coverAll {E : Type} (gone : E → Bool) : Int → List E → RemovedRanges → Except Exn RemovedRanges
  | _, [], r => .ok r
  | index, el :: rest, r =>
      if gone el then (r.cover index).bind (coverAll gone (index + 1) rest) else coverAll gone (index + 1) rest r

end RemovedRanges

namespace VetoableList
variable {E : Type}

/-- The test `col.contains(el) ^ complement`. -/
def goes (contains : E → Bool) (complement : Bool) (el : E) : Bool := contains el ^^ complement

/-- `removeFromList`: the indices that are proposed, and `none` when nothing is.  It is
called by `removeAll` without and by `retainAll` with `complement`. -/
def removeFromList (contains : E → Bool) (complement : Bool) (l : VetoableList E) : Except Exn (Option (List Int)) :=
  (RemovedRanges.coverAll (goes contains complement) l.offset l.elements .new).map fun r =>
    if r.pointer ≠ -1 then some r.toBeRemoved else none

/-- The index, in the decorated list, of an element that the call removes. -/
def Goes (contains : E → Bool) (complement : Bool) (l : VetoableList E) (i : Int) : Prop :=
  ∃ (k : Nat) (el : E), i = l.offset + k ∧ l.elements[k]? = some el ∧ goes contains complement el = true

/-- The pairs `indexes` are maximal ranges, from the first index to the one behind the last,
and cover the indices with `gone`. -/
def MaximalRanges (gone : Int → Prop) (indexes : List Int) : Prop :=
  ∃ ranges : List (Int × Int), indexes = ranges.flatMap (fun r => [r.1, r.2]) ∧ (∀ r ∈ ranges, r.1 < r.2) ∧
    ranges.Pairwise (fun r r' => r.2 < r'.1) ∧ ∀ i, gone i ↔ ∃ r ∈ ranges, r.1 ≤ i ∧ i < r.2

/-- The call proposes the maximal ranges of what it removes, and nothing when it removes
nothing. -/
def ProposesRanges (contains : E → Bool) (complement : Bool) (l : VetoableList E) : Prop :=
  ∃ proposed, removeFromList contains complement l = .ok proposed ∧
    (proposed = none ↔ ∀ i, ¬ Goes contains complement l i) ∧
    ∀ indexes, proposed = some indexes → MaximalRanges (Goes contains complement l) indexes

/-! ## The array of pairs -/

def pair (i : Int) : Int × Int := (i, i + 1)

def flat (ranges : List (Int × Int)) : List Int := ranges.flatMap fun r => [r.1, r.2]

theorem flat_append (as bs : List (Int × Int)) : flat (as ++ bs) = flat as ++ flat bs := List.flatMap_append

theorem flat_length (ranges : List (Int × Int)) : (flat ranges).length = 2 * ranges.length := by
  induction ranges with
  | nil => rfl
  | cons r ranges ih =>
    rw [flat, List.flatMap_cons, List.length_append, ← flat, ih]
    simp only [List.length_cons, List.length_nil]
    omega

theorem flat_injective {as bs : List (Int × Int)} (h : flat as = flat bs) : as = bs := by
  induction as generalizing bs with
  | nil =>
    cases bs with
    | nil => rfl
    | cons b bs => cases h
  | cons a as ih =>
    cases bs with
    | nil => cases h
    | cons b bs =>
      have hcons : a.1 :: a.2 :: flat as = b.1 :: b.2 :: flat bs := h
      obtain ⟨h1, h2, hrest⟩ : a.1 = b.1 ∧ a.2 = b.2 ∧ flat as = flat bs := by simpa using hcons
      rw [ih hrest, Prod.ext h1 h2]

/-- The array after the elements at `js` have been covered. -/
structure Covers (js : List Int) (r : RemovedRanges) : Prop where
  pointer : r.pointer = 2 * js.length - 1
  array : r.toBeRemoved = if js = [] then [0, 0] else flat (js.map pair)

theorem covers_new : Covers [] .new := ⟨rfl, rfl⟩

theorem Covers.cover {js : List Int} {r : RemovedRanges} (h : Covers js r) {index : Int} (behind : ∀ j ∈ js, j < index) :
    ∃ r', r.cover index = .ok r' ∧ Covers (js ++ [index]) r' := by
  have hpointer := h.pointer
  rcases List.eq_nil_or_concat' js with rfl | ⟨init, last, rfl⟩
  · have hr : r = .new := by
      cases r
      exact congrArg₂ RemovedRanges.mk h.array hpointer
    subst hr
    exact ⟨⟨[index, index + 1], 1⟩, rfl, rfl, rfl⟩
  · have harray : r.toBeRemoved = flat (init.map pair) ++ last :: [last + 1] := by
      rw [h.array, if_neg (by simp), List.map_append, flat_append]
      rfl
    have hlength : (flat (init.map pair)).length = 2 * init.length := by rw [flat_length, List.length_map]
    rw [List.length_append, List.length_singleton] at hpointer
    have hread : readAt r.toBeRemoved (r.pointer - 1) = .ok last := by
      rw [harray]
      exact readAt_split (by omega)
    have hne : last ≠ index := by
      have := behind last (by simp)
      omega
    have hfirst : writeAt (r.toBeRemoved ++ [0, 0]) (r.pointer + 1) index = .ok (r.toBeRemoved ++ index :: [0]) := by
      apply writeAt_split
      rw [harray, List.length_append, hlength, List.length_cons, List.length_singleton]
      omega
    have hsecond : writeAt (r.toBeRemoved ++ index :: [0]) (r.pointer + 2) (index + 1)
        = .ok (r.toBeRemoved ++ index :: [index + 1]) := by
      rw [List.append_cons, List.append_cons r.toBeRemoved index [index + 1]]
      apply writeAt_split
      rw [harray, List.length_append, List.length_append, hlength, List.length_cons, List.length_singleton,
        List.length_singleton]
      omega
    refine ⟨⟨r.toBeRemoved ++ index :: [index + 1], r.pointer + 2⟩, ?_, ?_, ?_⟩
    · rw [RemovedRanges.cover, if_neg (by omega), hread]
      simp only [bind, Except.bind, if_neg hne, RemovedRanges.put, RemovedRanges.grow, hfirst, hsecond]
    · change r.pointer + 2 = _
      rw [hpointer, List.length_append, List.length_append, List.length_singleton, List.length_singleton]
      omega
    · rw [if_neg (by simp), List.map_append, flat_append, harray, List.map_append, flat_append]
      rfl

theorem Covers.coverAll {gone : E → Bool} {elements : List E} {index : Int} {js : List Int} {r : RemovedRanges}
    (h : Covers js r) (behind : ∀ j ∈ js, j < index) :
    ∃ r', RemovedRanges.coverAll gone index elements r = .ok r' ∧
      Covers (js ++ positions index (elements.map gone)) r' := by
  induction elements generalizing index js r with
  | nil =>
    rw [List.map_nil, positions, List.append_nil]
    exact ⟨r, rfl, h⟩
  | cons el rest ih =>
    have hnext : ∀ j ∈ js ++ [index], j < index + 1 := by
      intro j hj
      rcases List.mem_append.mp hj with hj | hj
      · exact Int.lt_trans (behind j hj) (Int.lt_succ index)
      · rw [List.mem_singleton.mp hj]
        exact Int.lt_succ index
    rw [RemovedRanges.coverAll, List.map_cons, positions]
    by_cases hgone : gone el = true
    · obtain ⟨r₁, hcover, h₁⟩ := h.cover behind
      obtain ⟨r₂, hrest, h₂⟩ := ih h₁ hnext
      rw [if_pos hgone, if_pos hgone, hcover]
      rw [List.append_assoc] at h₂
      exact ⟨r₂, hrest, h₂⟩
    · rw [if_neg hgone, if_neg hgone]
      exact ih h fun j hj => hnext j (List.mem_append_left _ hj)

/-! ## The proposal -/

variable {contains : E → Bool} {complement : Bool} {l : VetoableList E}

def gone (contains : E → Bool) (complement : Bool) (l : VetoableList E) : List Int :=
  positions l.offset (l.elements.map (goes contains complement))

theorem mem_gone {i : Int} : i ∈ gone contains complement l ↔ Goes contains complement l i := by
  rw [gone, mem_positions, List.getElem?_map]
  constructor
  · intro h
    obtain ⟨hle, hget⟩ := h
    obtain ⟨el, hel, hgoes⟩ := Option.map_eq_some_iff.mp hget
    exact ⟨(i - l.offset).toNat, el, by omega, hel, hgoes⟩
  · intro h
    obtain ⟨k, el, rfl, hel, hgoes⟩ := h
    have hk : ((l.offset : Int) + k - l.offset).toNat = k := by omega
    rw [hk, hel, Option.map_some, hgoes]
    exact ⟨by omega, rfl⟩

theorem removeFromList_spec (contains : E → Bool) (complement : Bool) (l : VetoableList E) :
    removeFromList contains complement l
      = .ok (if gone contains complement l = [] then none else some (flat ((gone contains complement l).map pair))) := by
  obtain ⟨r, hrun, h⟩ := @Covers.coverAll E (goes contains complement) l.elements l.offset [] _ covers_new
    fun j hj => nomatch hj
  rw [List.nil_append, ← gone] at h
  have hpointer := h.pointer
  rw [removeFromList, hrun]
  by_cases hnil : gone contains complement l = []
  · rw [hnil, List.length_nil] at hpointer
    rw [if_pos hnil]
    exact congrArg Except.ok (if_neg (not_not.mpr hpointer))
  · have hlength := List.length_pos_of_ne_nil hnil
    have harray := h.array
    rw [if_neg hnil] at harray ⊢
    rw [← harray]
    exact congrArg Except.ok (if_pos (by omega))

def NeighboursGo (contains : E → Bool) (complement : Bool) (l : VetoableList E) : Prop :=
  ∃ (k : Nat) (x y : E), l.elements[k]? = some x ∧ l.elements[k + 1]? = some y ∧
    goes contains complement x = true ∧ goes contains complement y = true

theorem neighboursGo_iff : NeighboursGo contains complement l ↔
    ∃ i, i ∈ gone contains complement l ∧ i + 1 ∈ gone contains complement l := by
  constructor
  · intro h
    obtain ⟨k, x, y, hx, hy, hgx, hgy⟩ := h
    exact ⟨l.offset + k, mem_gone.mpr ⟨k, x, rfl, hx, hgx⟩,
      mem_gone.mpr ⟨k + 1, y, by rw [Nat.cast_add, Nat.cast_one, Int.add_assoc], hy, hgy⟩⟩
  · intro h
    obtain ⟨i, hi, hnext⟩ := h
    obtain ⟨k, x, hik, hx, hgx⟩ := mem_gone.mp hi
    obtain ⟨k', y, hik', hy, hgy⟩ := mem_gone.mp hnext
    obtain rfl : k' = k + 1 := by omega
    exact ⟨k, x, y, hx, hy, hgx, hgy⟩

theorem ProposesRanges.apart (h : ProposesRanges contains complement l) : ¬ NeighboursGo contains complement l := by
  rw [neighboursGo_iff]
  intro hneighbours
  obtain ⟨proposed, hproposed, -, hranges⟩ := h
  obtain ⟨i, hi, hnext⟩ := hneighbours
  rw [removeFromList_spec, if_neg (List.ne_nil_of_mem hi)] at hproposed
  obtain ⟨ranges, hflat, -, hapart, -⟩ := hranges _ (Except.ok.inj hproposed).symm
  obtain rfl := flat_injective hflat
  have hsym : Std.Symm fun r r' : Int × Int => r.2 < r'.1 ∨ r'.2 < r.1 := ⟨fun _ _ h => h.symm⟩
  have hne : pair i ≠ pair (i + 1) := by
    intro heq
    have hfirst : i = i + 1 := congrArg Prod.fst heq
    omega
  have htouch := (hapart.imp (S := fun r r' : Int × Int => r.2 < r'.1 ∨ r'.2 < r.1) fun h => Or.inl h).forall
    (List.mem_map_of_mem hi) (List.mem_map_of_mem hnext) hne
  change i + 1 < i + 1 ∨ i + 1 + 1 < i at htouch
  omega

/-- The proposal has maximal ranges exactly when no two neighbours go. -/
theorem proposes_ranges_iff (contains : E → Bool) (complement : Bool) (l : VetoableList E) :
    ProposesRanges contains complement l ↔ ¬ NeighboursGo contains complement l := by
  have hspec := removeFromList_spec contains complement l
  have hincreasing : (gone contains complement l).Pairwise (· < ·) := positions_increasing _ _
  constructor
  · exact ProposesRanges.apart
  · rw [neighboursGo_iff]
    intro h
    refine ⟨_, hspec, ?_, ?_⟩
    · constructor
      · intro hnone i hi
        rw [if_neg (List.ne_nil_of_mem (mem_gone.mpr hi))] at hnone
        cases hnone
      · intro hnone
        exact if_pos (List.eq_nil_iff_forall_not_mem.mpr fun i hi => hnone i (mem_gone.mp hi))
    · intro indexes hindexes
      have hnonempty : ¬ gone contains complement l = [] := by
        intro hnil
        rw [if_pos hnil] at hindexes
        cases hindexes
      rw [if_neg hnonempty] at hindexes
      refine ⟨(gone contains complement l).map pair, (Option.some.inj hindexes).symm, ?_, ?_, ?_⟩
      · intro r hr
        obtain ⟨i, -, rfl⟩ := List.mem_map.mp hr
        exact Int.lt_succ i
      · rw [List.pairwise_map]
        apply hincreasing.imp_of_mem
        intro i j hi hj hij
        have hne : j ≠ i + 1 := fun heq => h ⟨i, hi, heq ▸ hj⟩
        change i + 1 < j
        omega
      · intro i
        rw [← mem_gone]
        constructor
        · intro hi
          exact ⟨pair i, List.mem_map_of_mem hi, Int.le_refl i, Int.lt_succ i⟩
        · intro hr
          obtain ⟨r, hr, hlow, hhigh⟩ := hr
          obtain ⟨j, hj, rfl⟩ := List.mem_map.mp hr
          change j ≤ i at hlow
          change i < j + 1 at hhigh
          obtain rfl : i = j := by omega
          exact hj

/-- The elements at 2, 3 and 5 go. -/
theorem neighbours_proposed_apart :
    removeFromList (fun el => el ∈ [2, 3, 5]) false (decorate [0, 1, 2, 3, 4, 5]) = .ok (some [2, 3, 3, 4, 5, 6]) ∧
      ¬ ProposesRanges (fun el => el ∈ [2, 3, 5]) false (decorate [0, 1, 2, 3, 4, 5]) :=
  ⟨rfl, fun h => h.apart ⟨2, 2, 3, rfl, rfl, rfl, rfl⟩⟩

end VetoableList
end OpenJfx.Collections
