import OpenJfx.Collections.SortedList

/-! # Permutations of the source of a `SortedList`

A permutation of the source renumbers every element, also the elements outside of
the permuted range, for which the change has no new index. -/
set_option autoImplicit false
namespace OpenJfx.Collections
open OpenJfx.Lib

namespace SortedList
variable {E : Type}

/-! ## Renumbering -/

def renumber (c : SubChange E) (el : Element E) : Element E := { el with index := rangeMap c.fromIdx c.perm el.index }

/-- The slots in front of `k` are renumbered. -/
def renumberUpTo (c : SubChange E) (k : Nat) (els : List (Element E)) : List (Element E) :=
  (els.take k).map (renumber c) ++ els.drop k

theorem renumberUpTo_length (c : SubChange E) (k : Nat) (els : List (Element E)) :
    (renumberUpTo c k els).length = els.length := by
  rw [renumberUpTo, List.length_append, List.length_map, List.length_take, List.length_drop]
  omega

theorem renumberUpTo_all (c : SubChange E) (els : List (Element E)) :
    renumberUpTo c els.length els = els.map (renumber c) := by
  rw [renumberUpTo, List.take_length, List.drop_length, List.append_nil]

theorem getElem?_renumberUpTo (c : SubChange E) {k i : Nat} (els : List (Element E)) (h : k ≤ i) :
    (renumberUpTo c k els)[i]? = els[i]? := by
  by_cases hlen : i < els.length
  · have hfront : ((els.take k).map (renumber c)).length = k := by
      rw [List.length_map, List.length_take]
      omega
    rw [renumberUpTo, List.getElem?_append_right (by omega), hfront, List.getElem?_drop]
    congr 1
    omega
  · rw [List.getElem?_eq_none (by rw [renumberUpTo_length]; omega), List.getElem?_eq_none (by omega)]

theorem renumberUpTo_succ (c : SubChange E) {k : Nat} {els : List (Element E)} {el : Element E} (h : els[k]? = some el) :
    (renumberUpTo c k els).set k (renumber c el) = renumberUpTo c (k + 1) els := by
  obtain ⟨hk, hget⟩ := List.getElem?_eq_some_iff.mp h
  have hfront : ((els.take k).map (renumber c)).length = k := by
    rw [List.length_map, List.length_take]
    omega
  rw [renumberUpTo, renumberUpTo, List.set_append_right _ _ (by omega), hfront, Nat.sub_self,
    List.drop_eq_getElem_cons hk, List.set_cons_zero, List.take_succ_eq_append_getElem hk, List.map_append,
    List.append_assoc, hget]
  rfl

section Full
variable {source : List E} {comparator : Comparator E} {c : SubChange E} {s : SortedList E}

theorem Represents.slot_unique (h : Represents comparator source s) {i i' : Nat} {el el' : Element E}
    (hi : s.sorted[i]? = some el) (hi' : s.sorted[i']? = some el') (heq : el.index = el'.index) : i = i' := by
  obtain ⟨j, hj, -⟩ := h.element el (List.mem_of_getElem? hi)
  have h1 := (h.inverse i j).mpr ⟨el, hi, hj⟩
  have h2 := (h.inverse i' j).mpr ⟨el', hi', heq.symm.trans hj⟩
  have := Option.some.inj (h1.symm.trans h2)
  omega

theorem getPermutation_full (hc : c.wasPermutated = true) {n : Nat} (hstart : c.fromIdx = 0) (hlen : c.perm.length = n)
    {j : Nat} (hj : j < n) : c.getPermutation j = .ok (rangeMap c.fromIdx c.perm j) := by
  rw [SubChange.getPermutation, if_pos hc]
  exact readAt_rangeMap (by omega) (by omega)

/-- The state after `k` rounds. -/
structure Renumbered (c : SubChange E) (k : Nat) (s t : SortedList E) : Prop where
  sorted : t.sorted = renumberUpTo c k s.sorted
  length : t.perm.length = s.perm.length
  slots : ∀ i < k, ∀ el, s.sorted[i]? = some el → t.perm[(renumber c el).index.toNat]? = some (i : Int)
  capacity : t.capacity = s.capacity
  builder : t.builder = s.builder

theorem updatePermutationIndex_full (h : Represents comparator source s) (hc : c.wasPermutated = true)
    (hperm : IsRangePerm c.fromIdx c.perm) (hstart : c.fromIdx = 0) (hlen : c.perm.length = source.length)
    {k : Nat} (hk : k < s.size) {t : SortedList E} (ht : Renumbered c k s t) :
    ∃ t', updatePermutationIndex c k t = .done t' ∧ Renumbered c (k + 1) s t' := by
  obtain ⟨el, hel⟩ : ∃ el, s.sorted[k]? = some el := ⟨_, List.getElem?_eq_getElem hk⟩
  obtain ⟨j, hj, hsource⟩ := h.element el (List.mem_of_getElem? hel)
  have hjlen := (List.getElem?_eq_some_iff.mp hsource).1
  have hmove := (hperm.rangeMap_bounds (by omega) (by omega)).mp
    (by omega : 0 ≤ (j : Int) ∧ (j : Int) < source.length)
  have hsize := h.size
  have hfits := h.fits
  have hnew : (renumber c el).index = rangeMap c.fromIdx c.perm j := by rw [renumber, hj]
  have hslot : t.sorted[k]? = some el := by rw [ht.sorted, getElem?_renumberUpTo c _ le_rfl, hel]
  have hread : c.getPermutation el.index = .ok (rangeMap c.fromIdx c.perm j) := by
    rw [hj]
    exact getPermutation_full hc hstart hlen hjlen
  have hcap : ¬ (rangeMap c.fromIdx c.perm j < 0 ∨ rangeMap c.fromIdx c.perm j ≥ t.capacity) := by
    rw [ht.capacity]
    rw [size] at hk hfits
    omega
  refine ⟨{ t with
    sorted := t.sorted.set k (renumber c el)
    perm := t.perm.set (rangeMap c.fromIdx c.perm j).toNat k }, ?_, ?_, ?_, ?_, ht.capacity, ht.builder⟩
  · rw [updatePermutationIndex, hslot]
    dsimp only
    rw [hread]
    dsimp only
    rw [setPerm, if_neg hcap, renumber, hj]
  · rw [ht.sorted]
    exact renumberUpTo_succ c hel
  · rw [List.length_set, ht.length]
  · intro i hi el' hel'
    by_cases hik : i = k
    · subst hik
      have heq : el' = el := Option.some.inj (hel'.symm.trans hel)
      rw [heq, hnew, List.getElem?_set_self (by rw [ht.length, h.permSize]; omega)]
    · -- the other slots have other new indices
      obtain ⟨j', hj', hsource'⟩ := h.element el' (List.mem_of_getElem? hel')
      have hjlen' := (List.getElem?_eq_some_iff.mp hsource').1
      have hmove' := (hperm.rangeMap_bounds (by omega) (by omega)).mp
        (by omega : 0 ≤ (j' : Int) ∧ (j' : Int) < source.length)
      have hnew' : (renumber c el').index = rangeMap c.fromIdx c.perm j' := by rw [renumber, hj']
      have hne : (rangeMap c.fromIdx c.perm j).toNat ≠ (renumber c el').index.toNat := by
        intro heq
        rw [hnew'] at heq
        have hjj : (j : Int) = j' := hperm.rangeMap_injective (by omega)
        exact hik (h.slot_unique hel' hel (by rw [hj', hj, hjj]))
      rw [List.getElem?_set_ne hne]
      exact ht.slots i (by omega) el' hel'

theorem updatePermutationIndexes_full (h : Represents comparator source s) (hc : c.wasPermutated = true)
    (hperm : IsRangePerm c.fromIdx c.perm) (hstart : c.fromIdx = 0) (hlen : c.perm.length = source.length) :
    ∃ t, updatePermutationIndexes c s = .done t ∧ Renumbered c s.size s t := by
  have hrounds : ∀ k, k ≤ s.size → ∃ t, Outcome.run (updatePermutationIndex c) (List.range k) s = .done t ∧
      Renumbered c k s t := by
    intro k
    induction k with
    | zero =>
      intro _
      refine ⟨s, rfl, ?_, rfl, ?_, rfl, rfl⟩
      · rw [renumberUpTo, List.take_zero, List.drop_zero]
        rfl
      · intro i hi
        omega
    | succ k ih =>
      intro hk
      obtain ⟨t, hrun, ht⟩ := ih (by omega)
      obtain ⟨t', hround, ht'⟩ := updatePermutationIndex_full h hc hperm hstart hlen (by omega) ht
      refine ⟨t', ?_, ht'⟩
      rw [List.range_succ, Outcome.run_append, hrun, Outcome.bind_done, Outcome.run_cons, hround, Outcome.bind_done,
        Outcome.run_nil]
  exact hrounds s.size le_rfl

theorem Renumbered.represents (h : Represents comparator source s) (hperm : IsRangePerm c.fromIdx c.perm)
    (hstart : c.fromIdx = 0) (hlen : c.perm.length = source.length) {t : SortedList E} (ht : Renumbered c s.size s t) :
    t.view = s.view ∧ Represents comparator (permuteRange c.fromIdx c.perm source) t := by
  have hsorted : t.sorted = s.sorted.map (renumber c) := ht.sorted.trans (renumberUpTo_all c s.sorted)
  have hlength := @permuteRange_length _ c.fromIdx c.perm source hperm (by omega) (by omega)
  have hsize : t.sorted.length = source.length := by rw [hsorted, List.length_map, h.size]
  have hmove : ∀ {el : Element E}, el ∈ s.sorted → ∃ j : Nat, el.index = j ∧ source[j]? = some el.e ∧ j < source.length ∧
      0 ≤ rangeMap c.fromIdx c.perm j ∧ rangeMap c.fromIdx c.perm j < source.length := by
    intro el hel
    obtain ⟨j, hj, hsource⟩ := h.element el hel
    have hjlen := (List.getElem?_eq_some_iff.mp hsource).1
    exact ⟨j, hj, hsource, hjlen, (hperm.rangeMap_bounds (by omega) (by omega)).mp (by omega)⟩
  have hviewed : ∀ j < source.length, ∃ (i : Nat) (el : Element E), s.sorted[i]? = some el ∧
      rangeMap c.fromIdx c.perm el.index = (j : Int) ∧ t.perm[j]? = some (i : Int) := by
    intro j hj
    obtain ⟨j', hj', hmoved⟩ := exists_source hperm (by omega) (by omega : c.fromIdx + c.perm.length ≤ source.length) hj
    obtain ⟨i, hi⟩ := h.viewed j' hj'
    obtain ⟨el, hel, hindex⟩ := (h.inverse i j').mp hi
    refine ⟨i, el, hel, by rw [hindex, hmoved], ?_⟩
    have hslot := ht.slots i (List.getElem?_eq_some_iff.mp hel).1 el hel
    rw [renumber, hindex, hmoved, Int.toNat_natCast] at hslot
    exact hslot
  refine ⟨?_, ⟨by omega, by rw [ht.length, h.permSize, hlength], ?_, ?_, ?_, ?_, ?_⟩⟩
  · rw [view, view, hsorted, List.map_map]
    rfl
  · rw [size, hsize, ht.capacity, ← h.size]
    exact h.fits
  · rw [hsorted, elementComparator, ← Comparator.sorted_map, List.map_map]
    exact comparator.sorted_map.mpr h.ordered
  · intro el hel
    rw [hsorted] at hel
    obtain ⟨el', hel', rfl⟩ := List.mem_map.mp hel
    obtain ⟨j, hj, hsource, hjlen, h0, h1⟩ := hmove hel'
    refine ⟨(rangeMap c.fromIdx c.perm j).toNat, ?_, ?_⟩
    · rw [renumber, hj]
      exact (Int.toNat_of_nonneg h0).symm
    · rw [getElem?_permuteRange hperm (by omega) (by omega) j hjlen, hsource]
      rfl
  · intro j hj
    rw [hlength] at hj
    obtain ⟨i, -, -, -, hi⟩ := hviewed j hj
    exact ⟨i, hi⟩
  · intro i j
    constructor
    · intro hi
      have hjlen : j < source.length := by
        have := (List.getElem?_eq_some_iff.mp hi).1
        rw [ht.length, h.permSize] at this
        exact this
      obtain ⟨i', el, hel, hmoved, hi'⟩ := hviewed j hjlen
      have hii : i' = i := by
        have := Option.some.inj (hi'.symm.trans hi)
        omega
      subst hii
      exact ⟨renumber c el, by rw [hsorted, List.getElem?_map, hel]; rfl, hmoved⟩
    · intro hi
      obtain ⟨el, hel, hindex⟩ := hi
      rw [hsorted, List.getElem?_map] at hel
      obtain ⟨el', hel', rfl⟩ := Option.map_eq_some_iff.mp hel
      have hslot := ht.slots i (List.getElem?_eq_some_iff.mp hel').1 el' hel'
      rw [hindex, Int.toNat_natCast] at hslot
      exact hslot

end Full

/-! ## Partial permutations -/

theorem updatePermutationIndexes_reads {c : SubChange E} {s t : SortedList E} (h : updatePermutationIndexes c s = .done t)
    {i : Nat} {el : Element E} (hel : s.sorted[i]? = some el) : ∃ p, c.getPermutation el.index = .ok p := by
  have hrounds : ∀ k t, Outcome.run (updatePermutationIndex c) (List.range k) s = .done t →
      (∀ i ≥ k, t.sorted[i]? = s.sorted[i]?) ∧
        ∀ i < k, ∀ el, s.sorted[i]? = some el → ∃ p, c.getPermutation el.index = .ok p := by
    intro k
    induction k with
    | zero =>
      intro t hrun
      cases hrun
      exact ⟨fun _ _ => rfl, fun i hi => absurd hi (by omega)⟩
    | succ k ih =>
      intro t hrun
      rw [List.range_succ, Outcome.run_append] at hrun
      obtain ⟨t1, hfront, hlast⟩ := Outcome.bind_eq_done hrun
      obtain ⟨hsame, hreads⟩ := ih t1 hfront
      rw [Outcome.run_cons] at hlast
      obtain ⟨t2, hlast, hend⟩ := Outcome.bind_eq_done hlast
      cases hend
      rw [updatePermutationIndex, hsame k le_rfl] at hlast
      cases hslot : s.sorted[k]? with
      | none =>
        rw [hslot] at hlast
        cases hlast
      | some el =>
        rw [hslot] at hlast
        dsimp only at hlast
        cases hread : c.getPermutation el.index with
        | error x =>
          rw [hread] at hlast
          cases hlast
        | ok p =>
          rw [hread] at hlast
          dsimp only [setPerm] at hlast
          refine ⟨?_, ?_⟩
          · intro i hi
            split at hlast
            · cases hlast
            · cases hlast
              dsimp only
              rw [List.getElem?_set_ne (by omega), hsame i (by omega)]
          · intro i hi el' hel'
            by_cases hik : i = k
            · subst hik
              exact ⟨p, by rw [Option.some.inj (hel'.symm.trans hslot), hread]⟩
            · exact hreads i (by omega) el' hel'
  exact (hrounds s.size t h).2 i (List.getElem?_eq_some_iff.mp hel).1 el hel

/-! ## Accepted permutations -/

/-- `sourceChanged` accepts the permutation `c` of `source`: the view is as before,
and both index arrays are in step with the permuted source. -/
def AcceptsPermutation (comparator : Comparator E) (source : List E) (c : SubChange E) (s : SortedList E) : Prop :=
  ∃ t, sourceChanged comparator (permuteRange c.fromIdx c.perm source) [c] s = .done t ∧ t.view = s.view ∧
    Represents comparator (permuteRange c.fromIdx c.perm source) t

/-- A permutation of a range is accepted exactly when the range is the whole list. -/
theorem acceptsPermutation_iff {comparator : Comparator E} {source : List E} {c : SubChange E} {s : SortedList E}
    (h : Represents comparator source s) (idle : s.builder.Idle) (nonempty : c.fromIdx < c.toIdx)
    (valid : c.ValidPermutation source.length) :
    AcceptsPermutation comparator source c s ↔ c.fromIdx = 0 ∧ c.toIdx = source.length := by
  obtain ⟨h0, hto, hlen, hperm⟩ := valid
  have hc : c.wasPermutated = true := by
    rw [SubChange.wasPermutated, bne_iff_ne]
    omega
  have hopen : Represents comparator source { s with builder := s.builder.beginChange } :=
    ⟨h.size, h.permSize, h.fits, h.ordered, h.element, h.viewed, h.inverse⟩
  constructor
  · intro haccepts
    obtain ⟨t, hrun, -⟩ := haccepts
    rw [sourceChanged, Outcome.run_cons, handle, if_pos hc] at hrun
    obtain ⟨t1, hloop, -⟩ := Outcome.bind_eq_done hrun
    obtain ⟨t2, hloop, -⟩ := Outcome.bind_eq_done hloop
    -- every element of the source is renumbered, also the first and the last one
    have hall : ∀ j : Nat, j < source.length → c.fromIdx ≤ (j : Int) ∧ (j : Int) < c.fromIdx + c.perm.length := by
      intro j hj
      obtain ⟨i, hi⟩ := h.viewed j hj
      obtain ⟨el, hel, hindex⟩ := (h.inverse i j).mp hi
      obtain ⟨p, hp⟩ := updatePermutationIndexes_reads hloop hel
      rw [SubChange.getPermutation, if_pos hc, hindex] at hp
      by_contra hout
      rw [readAt_outside (by omega)] at hp
      cases hp
    have hfirst := hall 0 (by omega)
    have hlast := hall (source.length - 1) (by omega)
    omega
  · intro hfull
    obtain ⟨hstart, hend⟩ := hfull
    obtain ⟨t, hloop, ht⟩ := updatePermutationIndexes_full hopen hc hperm hstart (by omega)
    obtain ⟨hview, hrep⟩ := ht.represents hopen hperm hstart (by omega)
    refine ⟨{ t with builder := s.builder }, ?_, hview,
      ⟨hrep.size, hrep.permSize, hrep.fits, hrep.ordered, hrep.element, hrep.viewed, hrep.inverse⟩⟩
    rw [sourceChanged, Outcome.run_cons, handle, if_pos hc, hloop, Outcome.bind_done, Outcome.run_nil, Outcome.bind_done,
      report, ht.builder]
    dsimp only
    rw [ListChangeBuilder.fired_nothing idle]
    rfl

def sortedThree : SortedList Int := ⟨[⟨1, 1⟩, ⟨2, 2⟩, ⟨3, 0⟩], [2, 0, 1], 5, ListChangeBuilder.new⟩

theorem represents_sortedThree : Represents compareInts [3, 1, 2] sortedThree where
  size := rfl
  permSize := rfl
  fits := by decide
  ordered := by decide
  element := by
    intro el hel
    simp only [sortedThree, List.mem_cons, List.not_mem_nil, or_false] at hel
    rcases hel with rfl | rfl | rfl
    · exact ⟨1, rfl, rfl⟩
    · exact ⟨2, rfl, rfl⟩
    · exact ⟨0, rfl, rfl⟩
  viewed := by
    intro j hj
    rcases j with _ | _ | _ | j
    · exact ⟨2, rfl⟩
    · exact ⟨0, rfl⟩
    · exact ⟨1, rfl⟩
    · exact absurd hj (by simp)
  inverse := by
    intro i j
    rcases j with _ | _ | _ | j <;> rcases i with _ | _ | _ | i <;> simp [sortedThree] <;> omega

/-- The three elements are turned round. -/
theorem acceptsPermutation_iff_reverse :
    AcceptsPermutation compareInts [3, 1, 2] ⟨0, 3, some [], [2, 1, 0], false⟩ sortedThree ↔ (0 : Int) = 0 ∧ (3 : Int) = 3 :=
  acceptsPermutation_iff represents_sortedThree ListChangeBuilder.idle_new (by decide) (by decide)

/-- The first two elements of `[3, 1, 2]` are exchanged: there is no new index for
the index 2. -/
theorem swap_not_accepted :
    Represents compareInts [3, 1, 2] sortedThree ∧ sortedThree.builder.Idle ∧
      SubChange.ValidPermutation 3 (⟨0, 2, some [], [1, 0], false⟩ : SubChange Int) ∧
      ¬ AcceptsPermutation compareInts [3, 1, 2] ⟨0, 2, some [], [1, 0], false⟩ sortedThree := by
  have hthrown : sourceChanged compareInts (permuteRange 0 [1, 0] [3, 1, 2]) [⟨0, 2, some [], [1, 0], false⟩] sortedThree =
      .thrown .arrayIndexOutOfBounds
        ⟨[⟨1, 0⟩, ⟨2, 2⟩, ⟨3, 0⟩], [0, 0, 1], 5, (ListChangeBuilder.new : ListChangeBuilder Int).beginChange⟩ := by
    decide +kernel
  refine ⟨represents_sortedThree, ListChangeBuilder.idle_new, by decide, ?_⟩
  intro haccepts
  obtain ⟨t, hdone, -⟩ := haccepts
  rw [hthrown] at hdone
  cases hdone

end SortedList
end OpenJfx.Collections
