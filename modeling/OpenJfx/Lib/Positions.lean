import OpenJfx.Lib.Arrays
import OpenJfx.Lib.IndexPermutation

/-! # Positions of marks

The increasing list of the places at which a list of flags is true, counted from
`lo`, and the binary search in such a list. -/
set_option autoImplicit false
namespace OpenJfx.Lib

def positions : Int → List Bool → List Int
  | _, [] => []
  | lo, b :: bs => if b then lo :: positions (lo + 1) bs else positions (lo + 1) bs

theorem positions_append (lo : Int) (as bs : List Bool) :
    positions lo (as ++ bs) = positions lo as ++ positions (lo + as.length) bs := by
  induction as generalizing lo with
  | nil => simp [positions]
  | cons a as ih =>
    have hlo : lo + 1 + (as.length : Int) = lo + ((a :: as).length : Nat) := by
      rw [List.length_cons]
      omega
    rw [List.cons_append, positions, positions, ih, hlo]
    split
    · rw [List.cons_append]
    · rfl

theorem positions_cons (lo : Int) (b : Bool) (bs : List Bool) :
    positions lo (b :: bs) = positions lo [b] ++ positions (lo + 1) bs := positions_append lo [b] bs

theorem positions_length (lo : Int) (bs : List Bool) : (positions lo bs).length = bs.count true := by
  induction bs generalizing lo with
  | nil => rfl
  | cons b bs ih =>
    rw [positions, List.count_cons]
    cases b with
    | true => rw [if_pos rfl, List.length_cons, ih, if_pos (by rfl)]
    | false => rw [if_neg (by decide), ih, if_neg (by decide), Nat.add_zero]

theorem positions_map_length {α : Type} (lo : Int) (p : α → Bool) (xs : List α) :
    (positions lo (xs.map p)).length = xs.countP p := by
  rw [positions_length, List.count, List.countP_map]
  apply List.countP_congr
  intro x _
  simp

theorem mem_positions {lo j : Int} {bs : List Bool} :
    j ∈ positions lo bs ↔ lo ≤ j ∧ bs[(j - lo).toNat]? = some true := by
  induction bs generalizing lo with
  | nil => simp [positions]
  | cons b bs ih =>
    have hnext : lo + 1 ≤ j → (j - lo).toNat = (j - (lo + 1)).toNat + 1 := by omega
    rw [positions]
    by_cases hj : j = lo
    · subst hj
      have hno : ¬ j ∈ positions (j + 1) bs := by
        rw [ih]
        omega
      cases b with
      | true => simp
      | false => simp [hno]
    · split
      · rw [List.mem_cons, ih]
        constructor
        · rintro (rfl | ⟨h1, h2⟩)
          · exact absurd rfl hj
          · rw [hnext h1, List.getElem?_cons_succ]
            exact ⟨by omega, h2⟩
        · rintro ⟨h1, h2⟩
          rw [hnext (by omega), List.getElem?_cons_succ] at h2
          exact Or.inr ⟨by omega, h2⟩
      · rw [ih]
        constructor
        · rintro ⟨h1, h2⟩
          rw [hnext h1, List.getElem?_cons_succ]
          exact ⟨by omega, h2⟩
        · rintro ⟨h1, h2⟩
          rw [hnext (by omega), List.getElem?_cons_succ] at h2
          exact ⟨by omega, h2⟩

theorem positions_bounds {lo j : Int} {bs : List Bool} (h : j ∈ positions lo bs) :
    lo ≤ j ∧ j < lo + bs.length := by
  obtain ⟨h1, h2⟩ := mem_positions.mp h
  have := (List.getElem?_eq_some_iff.mp h2).1
  omega

theorem positions_increasing (lo : Int) (bs : List Bool) : (positions lo bs).Pairwise (· < ·) := by
  induction bs generalizing lo with
  | nil => exact List.Pairwise.nil
  | cons b bs ih =>
    rw [positions]
    split
    · apply List.pairwise_cons.mpr
      refine ⟨?_, ih _⟩
      intro j hj
      have := positions_bounds hj
      omega
    · exact ih _

theorem positions_shift (lo d : Int) (bs : List Bool) :
    (positions lo bs).map (fun i => i + d) = positions (lo + d) bs := by
  induction bs generalizing lo with
  | nil => rfl
  | cons b bs ih =>
    have hlo : lo + 1 + d = lo + d + 1 := by omega
    rw [positions, positions, ← hlo, ← ih]
    split
    · rfl
    · rfl

theorem eq_positions {is : List Int} {bs : List Bool} (increasing : is.Pairwise (· < ·))
    (h : ∀ j, j ∈ is ↔ 0 ≤ j ∧ bs[j.toNat]? = some true) : is = positions 0 bs := by
  have hperm : is.Perm (positions 0 bs) := by
    rw [List.perm_ext_iff_of_nodup (increasing.imp (fun hab => by omega))
      ((positions_increasing 0 bs).imp (fun hab => by omega))]
    intro j
    rw [h, mem_positions, Int.sub_zero]
  apply hperm.eq_of_pairwise _ increasing (positions_increasing 0 bs)
  intro a b _ _ h1 h2
  omega

theorem increasing_sorted {is : List Int} (increasing : is.Pairwise (· < ·)) : compareInts.Sorted is :=
  increasing.imp (fun hab => compareInts_le.mpr (Int.le_of_lt hab))

theorem insertionPoint_search {front back : List Int} {p : Int}
    (increasing : (front ++ back).Pairwise (· < ·)) (hfront : ∀ i ∈ front, i < p)
    (hback : ∀ i ∈ back, p ≤ i) :
    insertionPoint (binarySearch compareInts (front ++ back) p) = front.length := by
  have hbefore : ∀ i, (hi : i < (front ++ back).length) → i < front.length → (front ++ back)[i] < p := by
    intro i hi hlt
    rw [List.getElem_append_left hlt]
    exact hfront _ (List.getElem_mem hlt)
  have hbehind : ∀ i, (hi : i < (front ++ back).length) → front.length ≤ i → p ≤ (front ++ back)[i] := by
    intro i hi hge
    rw [List.getElem_append_right hge]
    exact hback _ (List.getElem_mem _)
  cases hr : binarySearch compareInts (front ++ back) p with
  | ofNat m =>
    obtain ⟨hm, hzero⟩ := binarySearch_hit compareInts hr
    have h1 := @compareInts_lt (front ++ back)[m] p
    have h2 := @compareInts_gt (front ++ back)[m] p
    change m = front.length
    by_contra hne
    rcases Nat.lt_or_ge m front.length with hlt | hge
    · have := hbefore m hm hlt
      omega
    · have hmid : front.length < (front ++ back).length := by omega
      have h3 := hbehind front.length hmid le_rfl
      have h4 := List.pairwise_iff_getElem.mp increasing front.length m hmid hm (by omega)
      omega
  | negSucc k =>
    obtain ⟨hk, hlt, hgt⟩ := binarySearch_miss compareInts (increasing_sorted increasing) hr
    change k = front.length
    by_contra hne
    rcases Nat.lt_or_ge k front.length with hless | hge
    · have hkl : k < (front ++ back).length := by
        rw [List.length_append]
        omega
      have h1 := compareInts_gt.mp (hgt k hkl le_rfl)
      have h2 := hbefore k hkl hless
      omega
    · have hmid : front.length < (front ++ back).length := by omega
      have h1 := compareInts_lt.mp (hlt front.length hmid (by omega))
      have h2 := hbehind front.length hmid le_rfl
      omega

theorem search_iff {is : List Int} (increasing : is.Pairwise (· < ·)) (p : Int) :
    (∀ k : Nat, binarySearch compareInts is p = k ↔ is[k]? = some p) ∧
      (binarySearch compareInts is p < 0 ↔ p ∉ is) := by
  cases hr : binarySearch compareInts is p with
  | ofNat m =>
    obtain ⟨hm, hzero⟩ := binarySearch_hit compareInts hr
    have h1 := @compareInts_lt is[m] p
    have h2 := @compareInts_gt is[m] p
    have heq : is[m] = p := by omega
    constructor
    · intro k
      constructor
      · intro hk
        have hmk : m = k := Int.ofNat_inj.mp hk
        subst hmk
        rw [List.getElem?_eq_getElem hm, heq]
      · intro hk
        obtain ⟨hlt, hget⟩ := List.getElem?_eq_some_iff.mp hk
        change (m : Int) = k
        rcases Nat.lt_trichotomy m k with h | h | h
        · have := List.pairwise_iff_getElem.mp increasing m k hm hlt h
          omega
        · rw [h]
        · have := List.pairwise_iff_getElem.mp increasing k m hlt hm h
          omega
    · constructor
      · intro h
        exact absurd h (by change ¬ (m : Int) < 0; omega)
      · intro h
        exact absurd (heq ▸ List.getElem_mem hm) h
  | negSucc k =>
    obtain ⟨-, hlt, hgt⟩ := binarySearch_miss compareInts (increasing_sorted increasing) hr
    have hno : p ∉ is := by
      intro hmem
      obtain ⟨i, hi, rfl⟩ := List.getElem_of_mem hmem
      rcases Nat.lt_or_ge i k with h | h
      · have := compareInts_lt.mp (hlt i hi h)
        omega
      · have := compareInts_gt.mp (hgt i hi h)
        omega
    constructor
    · intro l
      constructor
      · intro h
        cases h
      · intro h
        exact absurd (List.mem_of_getElem? h) hno
    · exact ⟨fun _ => hno, fun _ => Int.negSucc_lt_zero k⟩

theorem positions_permuted {front mid back : List Bool} {lo : Int} {perm ys : List Int}
    (hlo : lo = front.length) (hlen : perm.length = mid.length) (hperm : IsRangePerm lo perm)
    (hys : ys.Perm ((positions lo mid).map (rangeMap lo perm))) (sorted : compareInts.Sorted ys) :
    positions 0 front ++ (ys ++ positions (lo + mid.length) back) =
      positions 0 (permuteRange lo perm (front ++ (mid ++ back))) := by
  have h0 : 0 ≤ lo := by omega
  have hn : lo + perm.length ≤ (front ++ (mid ++ back)).length := by
    simp only [List.length_append]
    omega
  have hmid : ∀ j ∈ ys, lo ≤ j ∧ j < lo + mid.length := by
    intro j hj
    obtain ⟨i, hi, rfl⟩ := List.mem_map.mp (hys.mem_iff.mp hj)
    have := positions_bounds hi
    have := hperm.rangeMap_inside this.1 (by omega)
    omega
  apply eq_positions
  · -- the three parts are increasing, one behind the other
    have hnodup : ys.Nodup := by
      rw [hys.nodup_iff]
      apply List.Nodup.map hperm.rangeMap_injective
      exact (positions_increasing lo mid).imp (fun hab => by omega)
    have hys' : ys.Pairwise (· < ·) := by
      apply (sorted.and hnodup).imp
      intro a b hab
      have := compareInts_le.mp hab.1
      have := hab.2
      omega
    apply List.pairwise_append.mpr
    refine ⟨positions_increasing _ _, List.pairwise_append.mpr ⟨hys', positions_increasing _ _, ?_⟩, ?_⟩
    · intro a ha b hb
      have := hmid a ha
      have := positions_bounds hb
      omega
    · intro a ha b hb
      have := positions_bounds ha
      rcases List.mem_append.mp hb with hb | hb
      · have := hmid b hb
        omega
      · have := positions_bounds hb
        omega
  · intro j
    -- a place is marked when it is the new place of a marked one
    have hsource : (0 ≤ j ∧ (permuteRange lo perm (front ++ (mid ++ back)))[j.toNat]? = some true) ↔
        ∃ i ∈ positions 0 (front ++ (mid ++ back)), rangeMap lo perm i = j := by
      constructor
      · rintro ⟨hj0, hj⟩
        have hjlt := (List.getElem?_eq_some_iff.mp hj).1
        rw [permuteRange_length hperm h0 hn] at hjlt
        obtain ⟨i, hi, hij⟩ := exists_source hperm h0 hn hjlt
        refine ⟨i, ?_, by omega⟩
        rw [mem_positions, Int.sub_zero, Int.toNat_natCast]
        have hindex : j.toNat = (rangeMap lo perm i).toNat := by omega
        rw [hindex, getElem?_permuteRange hperm h0 hn i hi] at hj
        exact ⟨by omega, hj⟩
      · rintro ⟨i, hi, rfl⟩
        have hb := positions_bounds hi
        obtain ⟨k, rfl⟩ : ∃ k : Nat, i = k := ⟨i.toNat, by omega⟩
        have hk : k < (front ++ (mid ++ back)).length := by omega
        have hin := (hperm.rangeMap_bounds h0 hn).mp ⟨hb.1, by omega⟩
        refine ⟨hin.1, ?_⟩
        rw [getElem?_permuteRange hperm h0 hn k hk]
        rw [mem_positions, Int.sub_zero, Int.toNat_natCast] at hi
        exact hi.2
    rw [hsource]
    simp only [positions_append, List.mem_append, hys.mem_iff, List.mem_map, Int.zero_add, ← hlo]
    constructor
    · rintro (hj | ⟨i, hi, rfl⟩ | hj)
      · have := positions_bounds hj
        exact ⟨j, Or.inl hj, rangeMap_outside (by omega)⟩
      · exact ⟨i, Or.inr (Or.inl hi), rfl⟩
      · have := positions_bounds hj
        exact ⟨j, Or.inr (Or.inr hj), rangeMap_outside (by omega)⟩
    · rintro ⟨i, hi | hi | hi, rfl⟩
      · have := positions_bounds hi
        rw [rangeMap_outside (by omega)]
        exact Or.inl hi
      · exact Or.inr (Or.inl ⟨i, hi, rfl⟩)
      · have := positions_bounds hi
        rw [rangeMap_outside (by omega)]
        exact Or.inr (Or.inr hi)

end OpenJfx.Lib
