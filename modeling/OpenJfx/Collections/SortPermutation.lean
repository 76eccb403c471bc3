import OpenJfx.Collections.Change
import OpenJfx.Collections.SortHelperSpec

/-! # The permutation of a sort

A list that is sorted as a whole fires a permutation of all its elements. -/
set_option autoImplicit false
namespace OpenJfx.Collections
open OpenJfx.Lib

/-- `NonIterableChange.SimplePermutationChange`. -/
def simplePermutationChange {E : Type} (fromIdx toIdx : Int) (permutation : List Int) : Change E :=
  [⟨fromIdx, toIdx, some [], permutation, false⟩]

namespace SortHelper
variable {α : Type}

theorem sortArray_eq (c : Comparator α) (a : List α) : sortArray c a = sort c a 0 a.length := by
  obtain ⟨s, ys, hrun, hsorts⟩ := @mergeSort_sorts α a.length c (a.length + 1) 0 0 [] [] [] [] a
    ⟨a, a, initPermutation a.length, initPermutation a.length⟩ (bounded_init _ _ _) (by simp) (by simp) rfl rfl
    (by omega) (by omega) (by omega)
  rw [Int.zero_add] at hrun
  have hlength := hsorts.bounded.length
  have hcheck : rangeCheck a.length 0 a.length = .ok () := by
    rw [rangeCheck, if_neg (by omega), if_neg (by omega), if_neg (by omega)]
  have haux : (a.drop (0 : Int).toNat).take ((a.length : Int) - 0).toNat = a := by
    rw [Int.sub_zero, Int.toNat_natCast]
    exact List.take_length
  have hcopy : copyOfRange 0 s.permutation 0 a.length = .ok s.permutation := by
    have := @copyOfRange_split Int 0 [] s.permutation [] 0 a.length rfl (by simp; omega)
    rwa [List.append_nil, List.nil_append] at this
  rw [sortArray, sort, hcheck]
  simp only [bind, Except.bind, haux, Int.neg_zero, hrun, hcopy]

/-- `b` is `a` in the order of the comparator, `r` sends the index of an element in `a` to
its index in `b`, and equal elements keep their order. -/
structure SortsStably (c : Comparator α) (a b : List α) (r : List Int) : Prop where
  rearranged : b.Perm a
  sorted : c.Sorted b
  permutation : IsRangePerm 0 r
  length : r.length = a.length
  follows : ∀ i < a.length, ∃ j : Nat, r[i]? = some (j : Int) ∧ b[j]? = a[i]?
  stable : KeepsOrder c a r

theorem sortArray_spec (c : Comparator α) (a : List α) : ∃ b r, sortArray c a = .ok (b, r) ∧ SortsStably c a b r := by
  obtain ⟨b, r, hsort, hperm, hsorted, hlength, hreports⟩ := sort_spec c [] a []
  obtain ⟨⟨hrange, hplace⟩, hstable⟩ := hreports (Or.inl rfl)
  rw [List.nil_append, List.append_nil, List.length_nil, Nat.cast_zero, Int.zero_add, ← sortArray_eq, List.nil_append,
    List.append_nil] at hsort
  refine ⟨b, r, hsort, hperm, hsorted, hrange, hlength, ?_, hstable⟩
  intro i hi
  obtain ⟨j, hj, hget⟩ := hplace i hi
  refine ⟨j, ?_, hget⟩
  rw [hj, List.length_nil, Nat.cast_zero, Int.zero_add]

end SortHelper

namespace ObservableListWrapper
variable {E : Type}

/-- `sort(comparator)`: the elements of the list afterwards, and the changes that are fired. -/
def sort (comparator : Comparator E) (backingList : List E) : Except Exn (List E × List (Change E)) :=
  if backingList.isEmpty then .ok (backingList, [])
  else (SortHelper.sortArray comparator backingList).map fun (a, perm) =>
    (a, [simplePermutationChange 0 backingList.length perm])

end ObservableListWrapper

namespace SortHelper

/-- A whole array is sorted stably, and the permutation is the one that a list publishes
when it is sorted. -/
theorem sort_permutes {E : Type} (c : Comparator E) (a : List E) :
    ∃ b r, sortArray c a = .ok (b, r) ∧ SortsStably c a b r ∧
      ObservableListWrapper.sort c a = .ok (b, if a = [] then [] else [simplePermutationChange 0 a.length r]) := by
  obtain ⟨b, r, hsort, hstably⟩ := sortArray_spec c a
  refine ⟨b, r, hsort, hstably, ?_⟩
  rw [ObservableListWrapper.sort]
  by_cases hnil : a = []
  · subst hnil
    rw [hstably.rearranged.eq_nil]
    rfl
  · have hempty : ¬ a.isEmpty = true := fun h => hnil (List.isEmpty_iff.mp h)
    rw [if_neg hempty, if_neg hnil, hsort]
    rfl

end SortHelper
end OpenJfx.Collections
