import Mathlib.Data.List.Sort

/-! # `Arrays.sort` with a comparator

On a list on which the comparator is an order the sort is a stable merge sort.  Otherwise the
result is not specified: `unspecified` gives it, and `none` is an exception. -/
set_option autoImplicit false
namespace OpenJfx.Lib.JavaSort
variable {α : Type}

/-- The contract of a comparator, for the elements of a list. -/
def IsOrder (compare : α → α → Int) (xs : List α) : Prop :=
  (∀ x ∈ xs, ∀ y ∈ xs, (compare x y).sign = -(compare y x).sign) ∧
    ∀ x ∈ xs, ∀ y ∈ xs, ∀ z ∈ xs, compare x y ≤ 0 → compare y z ≤ 0 → compare x z ≤ 0

instance (compare : α → α → Int) (xs : List α) : Decidable (IsOrder compare xs) := inferInstanceAs (Decidable (_ ∧ _))

def sort [DecidableEq α] (compare : α → α → Int) (unspecified : List α → Option (List α)) (xs : List α) :
    Option (List α) :=
  if IsOrder compare xs then some (xs.mergeSort fun x y => compare x y ≤ 0)
  else (unspecified xs).filter fun ys => ys.Perm xs

variable {compare : α → α → Int} {xs : List α}

theorem mergeSort_congr {le le' : α → α → Bool} (h : ∀ x ∈ xs, ∀ y ∈ xs, le x y = le' x y) :
    xs.mergeSort le = xs.mergeSort le' := by
  have hmap := @List.map_mergeSort _ _ le le' id xs h
  rw [List.map_id, List.map_id] at hmap
  exact hmap

theorem IsOrder.pairwise (h : IsOrder compare xs) :
    (xs.mergeSort fun x y => compare x y ≤ 0).Pairwise fun x y => compare x y ≤ 0 := by
  obtain ⟨hsign, htrans⟩ := h
  have hsorted := @List.pairwise_mergeSort {x // x ∈ xs} (fun x y => decide (compare x.val y.val ≤ 0))
    (fun x y z hxy hyz => decide_eq_true (htrans x x.2 y y.2 z z.2 (of_decide_eq_true hxy) (of_decide_eq_true hyz)))
    (fun x y => by
      rw [Bool.or_eq_true, decide_eq_true_eq, decide_eq_true_eq]
      have hxy := hsign x x.2 y y.2
      by_contra hneither
      rw [not_or, not_le, not_le] at hneither
      rw [Int.sign_eq_one_of_pos hneither.1, Int.sign_eq_one_of_pos hneither.2] at hxy
      exact absurd hxy (by decide)) xs.attach
  have hmap := @List.map_mergeSort _ _ (fun x y : {x // x ∈ xs} => decide (compare x.val y.val ≤ 0))
    (fun x y => decide (compare x y ≤ 0)) Subtype.val xs.attach fun _ _ _ _ => rfl
  rw [List.attach_map_subtype_val] at hmap
  rw [← hmap, List.pairwise_map]
  exact hsorted.imp of_decide_eq_true

/-- A relation that orders a list has a last element in it. -/
theorem exists_last {R : α → α → Prop} {l : List α} (hne : l ≠ [])
    (total : ∀ a ∈ l, ∀ b ∈ l, R a b ∨ R b a)
    (trans : ∀ a ∈ l, ∀ b ∈ l, ∀ c ∈ l, R a b → R b c → R a c) : ∃ m ∈ l, ∀ x ∈ l, R x m := by
  induction l with
  | nil => exact absurd rfl hne
  | cons a l ih =>
    have ha : a ∈ a :: l := List.mem_cons_self
    have hrefl : R a a := (total a ha a ha).elim id id
    by_cases hl : l = []
    · subst hl
      exact ⟨a, ha, fun x hx => by rw [List.mem_singleton.mp hx]; exact hrefl⟩
    · have hin : ∀ x ∈ l, x ∈ a :: l := fun x hx => List.mem_cons_of_mem a hx
      obtain ⟨m, hm, hlast⟩ := ih hl (fun x hx y hy => total x (hin x hx) y (hin y hy))
        (fun x hx y hy z hz => trans x (hin x hx) y (hin y hy) z (hin z hz))
      rcases total a ha m (hin m hm) with h | h
      · exact ⟨m, hin m hm, List.forall_mem_cons.mpr ⟨h, hlast⟩⟩
      · refine ⟨a, ha, List.forall_mem_cons.mpr ⟨hrefl, fun x hx => ?_⟩⟩
        exact trans x (hin x hx) m (hin m hm) a ha (hlast x hx) h

end OpenJfx.Lib.JavaSort
