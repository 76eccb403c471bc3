import OpenJfx.Lib.Arrays

/-! # Slices of a sequence

`System.arraycopy` takes a slice of one array and overwrites a part of another one with it.
The positions are integers; what does not lie in the sequence has no result. -/
set_option autoImplicit false
namespace OpenJfx.Lib

section Slice
variable {α : Type}

/-- The `length` elements from `i` on. -/
def slice (xs : List α) (i length : Int) : Option (List α) :=
  if 0 ≤ i ∧ 0 ≤ length ∧ i + length ≤ xs.length then some ((xs.drop i.toNat).take length.toNat) else none

/-- `zs` in the place of the elements from `i` on. -/
def overwrite (xs : List α) (i : Int) (zs : List α) : Option (List α) :=
  if 0 ≤ i ∧ i + zs.length ≤ xs.length then some (xs.take i.toNat ++ (zs ++ xs.drop (i.toNat + zs.length))) else none

variable {xs ys zs : List α} {i length : Int}

theorem slice_inside (h : slice xs i length = some zs) : 0 ≤ i ∧ zs.length = length ∧ i + length ≤ xs.length := by
  rw [slice] at h
  split at h
  · rename_i hin
    cases h
    simp only [List.length_take, List.length_drop]
    omega
  · cases h

theorem slice_outside (h : ¬ (0 ≤ i ∧ 0 ≤ length ∧ i + length ≤ xs.length)) : slice xs i length = none := if_neg h

theorem slice_all (xs : List α) : slice xs 0 xs.length = some xs := by
  rw [slice, if_pos (by omega)]
  simp

theorem slice_start {length : Int} (h0 : 0 ≤ length) (h : length ≤ xs.length) :
    slice xs 0 length = some (xs.take length.toNat) := by
  rw [slice, if_pos (by omega)]
  simp

theorem slice_append_left (h : i + length ≤ xs.length) : slice (xs ++ ys) i length = slice xs i length := by
  by_cases hin : 0 ≤ i ∧ 0 ≤ length
  · have hlen : i + length ≤ (xs ++ ys).length := by
      rw [List.length_append]
      omega
    rw [slice, slice, if_pos ⟨hin.1, hin.2, hlen⟩, if_pos ⟨hin.1, hin.2, h⟩,
      List.drop_append_of_le_length (by omega), List.take_append_of_le_length (by rw [List.length_drop]; omega)]
  · rw [slice_outside (by omega), slice_outside (by omega)]

theorem overwrite_append_left (h : i + zs.length ≤ xs.length) :
    overwrite (xs ++ ys) i zs = (overwrite xs i zs).map (· ++ ys) := by
  by_cases hin : 0 ≤ i
  · have hlen : i + zs.length ≤ (xs ++ ys).length := by
      rw [List.length_append]
      omega
    rw [overwrite, overwrite, if_pos ⟨hin, hlen⟩, if_pos ⟨hin, h⟩, List.take_append_of_le_length (by omega),
      List.drop_append_of_le_length (by omega)]
    simp
  · rw [overwrite, overwrite, if_neg (by omega), if_neg (by omega)]
    rfl

theorem overwrite_end (h : zs.length ≤ ys.length) :
    overwrite (xs ++ ys) xs.length zs = some (xs ++ zs ++ ys.drop zs.length) := by
  have hlen : (xs.length : Int) + zs.length ≤ (xs ++ ys).length := by
    rw [List.length_append]
    omega
  rw [overwrite, if_pos ⟨by omega, hlen⟩, Int.toNat_natCast, List.take_left, ← List.drop_drop, List.drop_left,
    List.append_assoc]

theorem overwrite_start (h : zs.length ≤ xs.length) : overwrite xs 0 zs = some (zs ++ xs.drop zs.length) := by
  rw [overwrite, if_pos (by omega)]
  simp

theorem overwrite_inside (h : overwrite xs i zs = some ys) : 0 ≤ i ∧ i + zs.length ≤ xs.length := by
  rw [overwrite] at h
  split at h
  · assumption
  · cases h

theorem overwrite_outside (h : ¬ (0 ≤ i ∧ i + zs.length ≤ xs.length)) : overwrite xs i zs = none := if_neg h

theorem overwrite_length (h : overwrite xs i zs = some ys) : ys.length = xs.length := by
  rw [overwrite] at h
  split at h
  · cases h
    simp only [List.length_append, List.length_take, List.length_drop]
    omega
  · cases h

theorem overwrite_frame (h : overwrite xs i zs = some ys) {k : Nat} (hk : xs[k]? ≠ ys[k]?) :
    i ≤ k ∧ k < i + zs.length := by
  rw [overwrite] at h
  split at h
  · rename_i hin
    cases h
    by_contra hno
    apply hk
    rcases Nat.lt_or_ge k i.toNat with hlt | hge
    · rw [List.getElem?_append_left (by rw [List.length_take]; omega), List.getElem?_take_of_lt hlt]
    · rw [List.getElem?_append_right (by rw [List.length_take]; omega), List.length_take,
        List.getElem?_append_right (by omega), List.getElem?_drop]
      congr 1
      omega
  · cases h

theorem toOption_eq_none {ε : Type} {e : Except ε α} (h : e.toOption = none) : ∃ x, e = .error x := by
  cases e with
  | error x => exact ⟨x, rfl⟩
  | ok a => cases h

theorem toOption_eq_some {ε : Type} {e : Except ε α} {a : α} (h : e.toOption = some a) : e = .ok a := by
  cases e with
  | error x => cases h
  | ok b =>
    cases h
    rfl

theorem arraycopy_toOption (src dest : List α) (srcPos destPos length : Int) :
    (arraycopy src srcPos dest destPos length).toOption = (slice src srcPos length).bind (overwrite dest destPos) := by
  by_cases hin : 0 ≤ srcPos ∧ 0 ≤ length ∧ srcPos + length ≤ src.length
  · have hlen : ((src.drop srcPos.toNat).take length.toNat).length = length.toNat := by
      rw [List.length_take, List.length_drop]
      omega
    rw [slice, if_pos hin, Option.bind_some, overwrite, hlen, arraycopy]
    by_cases hdest : 0 ≤ destPos ∧ destPos + length ≤ dest.length
    · rw [if_neg (by omega), if_pos (by omega)]
      rfl
    · rw [if_pos (by omega), if_neg (by omega)]
      rfl
  · rw [slice_outside hin, arraycopy, if_pos (by omega)]
    rfl

theorem writeAt_toOption (xs : List α) (i : Int) (v : α) : (writeAt xs i v).toOption = overwrite xs i [v] := by
  by_cases hin : 0 ≤ i ∧ i < xs.length
  · obtain ⟨k, rfl⟩ : ∃ k : Nat, i = k := ⟨i.toNat, by omega⟩
    have hk : k < xs.length := by omega
    have hlen : (k : Int) + [v].length ≤ xs.length := by
      rw [List.length_singleton]
      omega
    rw [writeAt_natCast _ _ _ hk, overwrite, if_pos ⟨by omega, hlen⟩, Int.toNat_natCast, List.set_eq_take_append_cons_drop,
      if_pos hk]
    rfl
  · have hlen : ¬ (0 ≤ i ∧ i + [v].length ≤ xs.length) := by
      rw [List.length_singleton]
      omega
    rw [overwrite, if_neg hlen]
    cases i with
    | ofNat k => rw [writeAt, if_neg (by simpa using hin)]; rfl
    | negSucc k => rfl

end Slice

end OpenJfx.Lib
