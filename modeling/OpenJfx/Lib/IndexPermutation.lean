import OpenJfx.Lib.Java
import Mathlib.Data.List.Perm.Basic
import Mathlib.Data.List.Perm.Subperm
import Mathlib.Data.List.Nodup
import Mathlib.Data.List.Range
import Mathlib.Data.List.GetD

/-! # Index permutations

A permutation of `[lo, lo + p.length)` is given by the list `p` of the new
indices: the element at `lo + k` moves to `p[k]`.  `rangeMap` is the index map
on all indices, `permuteRange` moves the elements of a list. -/
set_option autoImplicit false
namespace OpenJfx.Lib

def rangeMap (lo : Int) (p : List Int) (i : Int) : Int :=
  if i < lo ∨ i ≥ lo + p.length then i else p.getD (i - lo).toNat 0

theorem rangeMap_outside {lo : Int} {p : List Int} {i : Int} (h : i < lo ∨ i ≥ lo + p.length) :
    rangeMap lo p i = i := if_pos h

theorem getElem?_eq_rangeMap {p : List Int} (lo : Int) {k : Nat} (hk : k < p.length) :
    p[k]? = some (rangeMap lo p (lo + k)) := by
  rw [rangeMap, if_neg (by omega), show (lo + (k : Int) - lo).toNat = k by omega,
    List.getElem?_eq_getElem hk, List.getD_eq_getElem _ _ hk]

theorem readAt_rangeMap {lo : Int} {p : List Int} {i : Int} (h1 : lo ≤ i) (h2 : i < lo + p.length) :
    readAt p (i - lo) = .ok (rangeMap lo p i) := by
  have hlt : (i - lo).toNat < p.length := by omega
  rw [rangeMap, if_neg (by omega), List.getD_eq_getElem _ _ hlt, ← readAt_natCast _ _ hlt]
  congr 1
  omega

/-- `p` lists the new indices of a permutation of the indices from `lo` on. -/
def IsRangePerm (lo : Int) (p : List Int) : Prop := p.Perm (intRange lo (lo + p.length))

instance (lo : Int) (p : List Int) : Decidable (IsRangePerm lo p) :=
  inferInstanceAs (Decidable (List.Perm _ _))

theorem intRange_nodup (lo hi : Int) : (intRange lo hi).Nodup := by
  unfold intRange
  refine List.Nodup.map ?_ List.nodup_range
  intro a b h
  simpa using h

theorem intRange_zero (n : Nat) : intRange 0 n = (List.range n).map (fun (k : Nat) => (k : Int)) := by
  simp [intRange]

theorem isRangePerm_of_mem {lo : Int} {p : List Int} (h : ∀ j, lo ≤ j → j < lo + p.length → j ∈ p) : IsRangePerm lo p := by
  have hsub : intRange lo (lo + p.length) ⊆ p := by
    intro j hj
    rw [mem_intRange] at hj
    exact h j hj.1 hj.2
  have hsubperm := List.subperm_of_subset (intRange_nodup _ _) hsub
  apply (hsubperm.perm_of_length_le _).symm
  rw [intRange_length]
  omega

namespace IsRangePerm
variable {lo : Int} {p : List Int}

theorem nodup (h : IsRangePerm lo p) : p.Nodup := h.nodup_iff.mpr (intRange_nodup _ _)

theorem mem_iff (h : IsRangePerm lo p) (j : Int) : j ∈ p ↔ lo ≤ j ∧ j < lo + p.length := by
  rw [List.Perm.mem_iff h, mem_intRange]

theorem rangeMap_inside (h : IsRangePerm lo p) {i : Int} (h1 : lo ≤ i) (h2 : i < lo + p.length) :
    lo ≤ rangeMap lo p i ∧ rangeMap lo p i < lo + p.length := by
  have hlt : (i - lo).toNat < p.length := by omega
  have hmem : rangeMap lo p i ∈ p := by
    rw [rangeMap, if_neg (by omega), List.getD_eq_getElem _ _ hlt]
    exact List.getElem_mem hlt
  exact (h.mem_iff _).mp hmem

theorem rangeMap_injective (h : IsRangePerm lo p) : Function.Injective (rangeMap lo p) := by
  intro i j hij
  by_cases hi : lo ≤ i ∧ i < lo + p.length
  · by_cases hj : lo ≤ j ∧ j < lo + p.length
    · have hli : (i - lo).toNat < p.length := by omega
      have hlj : (j - lo).toNat < p.length := by omega
      rw [rangeMap, rangeMap, if_neg (by omega), if_neg (by omega), List.getD_eq_getElem _ _ hli,
        List.getD_eq_getElem _ _ hlj] at hij
      have := (List.Nodup.getElem_inj_iff h.nodup).mp hij
      omega
    · have hin := h.rangeMap_inside hi.1 hi.2
      rw [hij, rangeMap, if_pos (by omega)] at hin
      omega
  · by_cases hj : lo ≤ j ∧ j < lo + p.length
    · have hin := h.rangeMap_inside hj.1 hj.2
      rw [← hij, rangeMap, if_pos (by omega)] at hin
      omega
    · rwa [rangeMap, rangeMap, if_pos (by omega), if_pos (by omega)] at hij

theorem rangeMap_surjective (h : IsRangePerm lo p) : Function.Surjective (rangeMap lo p) := by
  intro j
  by_cases hj : lo ≤ j ∧ j < lo + p.length
  · obtain ⟨k, hk, rfl⟩ := List.getElem_of_mem ((h.mem_iff j).mpr hj)
    refine ⟨lo + k, ?_⟩
    rw [rangeMap, if_neg (by omega), show (lo + (k : Int) - lo).toNat = k by omega,
      List.getD_eq_getElem _ _ hk]
  · exact ⟨j, by rw [rangeMap, if_pos (by omega)]⟩

theorem rangeMap_bounds (h : IsRangePerm lo p) {n : Nat} (h0 : 0 ≤ lo) (hn : lo + p.length ≤ n)
    {i : Int} : 0 ≤ i ∧ i < n ↔ 0 ≤ rangeMap lo p i ∧ rangeMap lo p i < n := by
  by_cases hi : lo ≤ i ∧ i < lo + p.length
  · have := h.rangeMap_inside hi.1 hi.2
    constructor <;> intro _ <;> omega
  · rw [rangeMap, if_pos (by omega)]

end IsRangePerm

section Move
variable {α : Type}

/-- The list after the permutation: the element at `i` moves to `rangeMap lo p i`. -/
def permuteRange (lo : Int) (p : List Int) (xs : List α) : List α :=
  (List.range xs.length).filterMap fun (t : Nat) =>
    if (t : Int) < lo ∨ (t : Int) ≥ lo + p.length then xs[t]? else xs[(lo + p.idxOf (t : Int)).toNat]?

theorem map_permuteRange {β : Type} (f : α → β) (lo : Int) (p : List Int) (xs : List α) :
    (permuteRange lo p xs).map f = permuteRange lo p (xs.map f) := by
  rw [permuteRange, permuteRange, List.map_filterMap, List.length_map]
  apply List.filterMap_congr
  intro t _
  split
  · rw [List.getElem?_map]
  · rw [List.getElem?_map]

theorem filterMap_range_eq {n : Nat} {f : Nat → Option α} (h : ∀ t < n, ∃ a, f t = some a) :
    ((List.range n).filterMap f).length = n ∧ ∀ t < n, ((List.range n).filterMap f)[t]? = f t := by
  induction n with
  | zero => simp
  | succ n ih =>
    obtain ⟨hlen, hget⟩ := ih (fun t ht => h t (by omega))
    obtain ⟨a, ha⟩ := h n (by omega)
    rw [List.range_succ, List.filterMap_append, List.filterMap_cons_some ha, List.filterMap_nil]
    refine ⟨by rw [List.length_append, hlen, List.length_singleton], ?_⟩
    intro t ht
    rcases Nat.lt_succ_iff_lt_or_eq.mp ht with hlt | rfl
    · rw [List.getElem?_append_left (by omega), hget t hlt]
    · rw [List.getElem?_append_right (by omega), hlen, Nat.sub_self, List.getElem?_cons_zero, ha]

variable {lo : Int} {p : List Int} {xs : List α}

private theorem permuteRange_source (xs : List α) (h : IsRangePerm lo p) (h0 : 0 ≤ lo) (i : Nat) :
    (if ((rangeMap lo p i).toNat : Int) < lo ∨ ((rangeMap lo p i).toNat : Int) ≥ lo + p.length
      then xs[(rangeMap lo p i).toNat]?
      else xs[(lo + p.idxOf ((rangeMap lo p i).toNat : Int)).toNat]?) = xs[i]? := by
  by_cases hin : lo ≤ (i : Int) ∧ (i : Int) < lo + p.length
  · have hb := h.rangeMap_inside hin.1 hin.2
    have hcast : ((rangeMap lo p i).toNat : Int) = rangeMap lo p i := by omega
    have hlt : ((i : Int) - lo).toNat < p.length := by omega
    rw [hcast, if_neg (by omega), rangeMap, if_neg (by omega), List.getD_eq_getElem _ _ hlt,
      h.nodup.idxOf_getElem _ hlt]
    congr 1
    omega
  · have hout : rangeMap lo p i = i := by rw [rangeMap, if_pos (by omega)]
    rw [hout, Int.toNat_natCast, if_pos (by omega)]

private theorem permuteRange_total (h : IsRangePerm lo p) (h0 : 0 ≤ lo)
    (hn : lo + p.length ≤ xs.length) (t : Nat) (ht : t < xs.length) :
    ∃ a, (if (t : Int) < lo ∨ (t : Int) ≥ lo + p.length then xs[t]?
      else xs[(lo + p.idxOf (t : Int)).toNat]?) = some a := by
  obtain ⟨i, hi⟩ := h.rangeMap_surjective t
  have hb := (h.rangeMap_bounds h0 hn).mpr (by omega : 0 ≤ rangeMap lo p i ∧ rangeMap lo p i < xs.length)
  obtain ⟨k, rfl⟩ : ∃ k : Nat, i = k := ⟨i.toNat, by omega⟩
  have hsrc := permuteRange_source xs h h0 k
  rw [show (rangeMap lo p k).toNat = t by omega] at hsrc
  rw [hsrc]
  exact ⟨_, List.getElem?_eq_getElem (by omega)⟩

theorem permuteRange_length (h : IsRangePerm lo p) (h0 : 0 ≤ lo)
    (hn : lo + p.length ≤ xs.length) : (permuteRange lo p xs).length = xs.length :=
  (filterMap_range_eq (permuteRange_total h h0 hn)).1

theorem getElem?_permuteRange (h : IsRangePerm lo p) (h0 : 0 ≤ lo)
    (hn : lo + p.length ≤ xs.length) (i : Nat) (hi : i < xs.length) :
    (permuteRange lo p xs)[(rangeMap lo p i).toNat]? = xs[i]? := by
  have hb := (h.rangeMap_bounds h0 hn).mp (by omega : 0 ≤ (i : Int) ∧ (i : Int) < xs.length)
  rw [permuteRange, (filterMap_range_eq (permuteRange_total h h0 hn)).2 _ (by omega)]
  exact permuteRange_source xs h h0 i

theorem exists_source (h : IsRangePerm lo p) (h0 : 0 ≤ lo) {n : Nat} (hn : lo + p.length ≤ n) {k : Nat}
    (hk : k < n) : ∃ j : Nat, j < n ∧ rangeMap lo p j = k := by
  obtain ⟨i, hi⟩ := h.rangeMap_surjective k
  have hb := (h.rangeMap_bounds h0 hn).mpr (by omega : 0 ≤ rangeMap lo p i ∧ rangeMap lo p i < n)
  exact ⟨i.toNat, by omega, by rw [show ((i.toNat : Nat) : Int) = i by omega, hi]⟩

theorem eq_permuteRange (h : IsRangePerm lo p) (h0 : 0 ≤ lo)
    (hn : lo + p.length ≤ xs.length) {ys : List α} (hlen : ys.length = xs.length)
    (hys : ∀ i < xs.length, ys[(rangeMap lo p i).toNat]? = xs[i]?) : ys = permuteRange lo p xs := by
  apply List.ext_getElem?
  intro t
  by_cases ht : t < xs.length
  · obtain ⟨i, hi⟩ := h.rangeMap_surjective t
    have hb := (h.rangeMap_bounds h0 hn).mpr
      (by omega : 0 ≤ rangeMap lo p i ∧ rangeMap lo p i < xs.length)
    obtain ⟨k, rfl⟩ : ∃ k : Nat, i = k := ⟨i.toNat, by omega⟩
    have h1 := hys k (by omega)
    have h2 := getElem?_permuteRange h h0 hn k (by omega)
    rw [show (rangeMap lo p k).toNat = t by omega] at h1 h2
    rw [h1, h2]
  · have hlen' := permuteRange_length h h0 hn
    rw [List.getElem?_eq_none (by omega), List.getElem?_eq_none (by omega)]

theorem permuteRange_perm (h : IsRangePerm lo p) (h0 : 0 ≤ lo) (hn : lo + p.length ≤ xs.length) :
    (permuteRange lo p xs).Perm xs := by
  have hlen := permuteRange_length h h0 hn
  have htarget : ∀ i < xs.length, (rangeMap lo p i).toNat < xs.length := by
    intro i hi
    have := (h.rangeMap_bounds h0 hn).mp (by omega : 0 ≤ (i : Int) ∧ (i : Int) < xs.length)
    omega
  -- the indices are permuted, and both lists are read along them
  have hindex : ((List.range xs.length).map (fun (i : Nat) => (rangeMap lo p i).toNat)).Perm
      (List.range xs.length) := by
    refine (List.subperm_of_subset ?_ ?_).perm_of_length_le (by simp)
    · refine List.Nodup.map_on ?_ List.nodup_range
      intro i hi j hj heq
      rw [List.mem_range] at hi hj
      have hi' := (h.rangeMap_bounds h0 hn).mp (by omega : 0 ≤ (i : Int) ∧ (i : Int) < xs.length)
      have hj' := (h.rangeMap_bounds h0 hn).mp (by omega : 0 ≤ (j : Int) ∧ (j : Int) < xs.length)
      have := h.rangeMap_injective (by omega : rangeMap lo p i = rangeMap lo p j)
      omega
    · intro t ht
      obtain ⟨i, hi, rfl⟩ := List.mem_map.mp ht
      rw [List.mem_range] at hi ⊢
      exact htarget i hi
  have hread : ∀ l : List α, (List.range l.length).filterMap (fun t => l[t]?) = l := by
    intro l
    apply List.ext_getElem?
    intro t
    obtain ⟨h1, h2⟩ := filterMap_range_eq (n := l.length) (f := fun t => l[t]?)
      (fun t ht => ⟨_, List.getElem?_eq_getElem ht⟩)
    by_cases ht : t < l.length
    · exact h2 t ht
    · rw [List.getElem?_eq_none (by omega), List.getElem?_eq_none (by omega)]
  have hys := hread (permuteRange lo p xs)
  rw [hlen] at hys
  have hmoved := (hindex.filterMap (fun t => (permuteRange lo p xs)[t]?)).symm
  rw [hys, List.filterMap_map] at hmoved
  refine hmoved.trans ?_
  conv_rhs => rw [← hread xs]
  refine List.Perm.of_eq (List.filterMap_congr ?_)
  intro i hi
  exact getElem?_permuteRange h h0 hn i (List.mem_range.mp hi)

theorem map_rangeMap_perm (h : IsRangePerm lo p) (h0 : 0 ≤ lo) {n : Nat} (hn : lo + p.length ≤ n) :
    ((intRange 0 n).map (rangeMap lo p)).Perm (intRange 0 n) := by
  refine (List.subperm_of_subset ?_ ?_).perm_of_length_le (by simp)
  · exact List.Nodup.map h.rangeMap_injective (intRange_nodup _ _)
  · intro t ht
    obtain ⟨i, hi, rfl⟩ := List.mem_map.mp ht
    exact mem_intRange.mpr ((h.rangeMap_bounds h0 hn).mp (mem_intRange.mp hi))

theorem permuteRange_comp {q r : List Int} (h : IsRangePerm lo p) (h0 : 0 ≤ lo)
    (hn : lo + p.length ≤ xs.length) (hq : IsRangePerm 0 q) (hqlen : q.length = xs.length)
    (hrlen : r.length = xs.length)
    (hr : ∀ i : Nat, i < xs.length → r[i]? = some (rangeMap 0 q (rangeMap lo p i))) :
    IsRangePerm 0 r ∧ permuteRange 0 r xs = permuteRange 0 q (permuteRange lo p xs) := by
  have hmap : ∀ i : Nat, i < xs.length → rangeMap 0 r i = rangeMap 0 q (rangeMap lo p i) := by
    intro i hi
    rw [rangeMap, if_neg (by omega), Int.sub_zero, Int.toNat_natCast, List.getD_eq_getElem?_getD,
      hr i hi, Option.getD_some]
  have hbound : ∀ i : Int, 0 ≤ i ∧ i < xs.length →
      0 ≤ rangeMap 0 q (rangeMap lo p i) ∧ rangeMap 0 q (rangeMap lo p i) < xs.length :=
    fun i hi => (hq.rangeMap_bounds le_rfl (by omega)).mp ((h.rangeMap_bounds h0 hn).mp hi)
  have hperm : IsRangePerm 0 r := by
    rw [IsRangePerm, hrlen, Int.zero_add]
    refine (List.subperm_of_subset ?_ ?_).perm_of_length_le ?_
    · rw [List.nodup_iff_injective_getElem]
      intro i j hij
      dsimp only at hij
      have hi := hr i.val (by omega)
      have hj := hr j.val (by omega)
      rw [List.getElem?_eq_getElem i.isLt] at hi
      rw [List.getElem?_eq_getElem j.isLt, ← hij] at hj
      have := h.rangeMap_injective (hq.rangeMap_injective (Option.some.inj (hi.symm.trans hj)))
      exact Fin.ext (by omega)
    · intro v hv
      obtain ⟨i, hi⟩ := List.mem_iff_getElem?.mp hv
      have hlt : i < xs.length := hrlen ▸ (List.getElem?_eq_some_iff.mp hi).1
      rw [hr i hlt] at hi
      rw [mem_intRange, ← Option.some.inj hi]
      exact hbound i (by omega)
    · rw [intRange_length]
      omega
  have hlen := permuteRange_length h h0 hn
  refine ⟨hperm, (eq_permuteRange hperm le_rfl (by omega) ?_ ?_).symm⟩
  · rw [permuteRange_length hq le_rfl (by omega), hlen]
  · intro i hi
    have hin := (h.rangeMap_bounds h0 hn).mp (by omega : 0 ≤ (i : Int) ∧ (i : Int) < xs.length)
    have hsecond := @getElem?_permuteRange _ 0 q (permuteRange lo p xs) hq le_rfl (by omega)
      (rangeMap lo p i).toNat (by omega)
    rw [show (((rangeMap lo p i).toNat : Nat) : Int) = rangeMap lo p i by omega] at hsecond
    rw [hmap i hi, hsecond, getElem?_permuteRange h h0 hn i hi]

end Move

end OpenJfx.Lib
