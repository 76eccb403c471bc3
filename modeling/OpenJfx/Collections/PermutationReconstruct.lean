import OpenJfx.Collections.BuilderAddRemove
import OpenJfx.Lib.Weave

/-! # The permutation of the original list

`nextPermutation` is told how the current list is permuted.  When add/remove
sub-changes are already recorded it derives from this a permutation of the
original list, in which the elements removed since stay where they are.  The
result of the module says which list this permutation leads to. -/
set_option autoImplicit false
namespace OpenJfx.Collections
open OpenJfx.Lib

namespace ListChangeBuilder
variable {E : Type}

theorem permuted_eq (lo : Int) (perm : List Int) :
    permuted lo (lo + perm.length) perm = fun j => .ok (rangeMap lo perm j) := by
  funext j
  rw [permuted]
  split
  · rename_i hout
    rw [rangeMap_outside hout]
  · exact readAt_rangeMap (by omega) (by omega)

/-! ## Where the kept elements come from -/

/-- The original index of the element at the current index `j`; `-1` if it was
added. -/
def originAt : Int → List (Edit E) → Int → Int
  | offset, [], j => j + offset
  | offset, e :: es, j =>
      if j < e.lo then j + offset
      else if j < e.hi then -1
      else originAt (offset + (e.old.length - (e.hi - e.lo))) es j

def removedAt : Int → List (Edit E) → List Int
  | _, [] => []
  | offset, e :: es =>
      intRange (e.lo + offset) (e.lo + offset + e.old.length) ++
        removedAt (offset + (e.old.length - (e.hi - e.lo))) es

def netOffset : List (Edit E) → Int
  | [] => 0
  | e :: es => (e.old.length - (e.hi - e.lo)) + netOffset es

theorem length_of_turns {p : Int} {es : List (Edit E)} {xs ys : List E} (h : Turns p es xs ys) :
    (xs.length : Int) = ys.length + netOffset es := by
  induction es generalizing p xs ys with
  | nil =>
    rw [show xs = ys from h, netOffset, Int.add_zero]
  | cons e es ih =>
    obtain ⟨kept, added, xs', ys', rfl, rfl, hlo, hhi, hrest⟩ := h
    have := ih hrest
    simp only [List.length_append, Nat.cast_add, netOffset]
    omega

theorem removedAt_ge {p offset : Int} {es : List (Edit E)} (ord : Ordered Edit.lo Edit.hi p es) :
    ∀ i ∈ removedAt offset es, p + offset ≤ i := by
  induction es generalizing p offset with
  | nil => intro i hi; cases hi
  | cons e es ih =>
    intro i hi
    have := ord.1
    rcases List.mem_append.mp hi with hi | hi
    · have := (mem_intRange.mp hi).1
      omega
    · have := ih ord.2.2 i hi
      omega

theorem getElem?_originAt {p offset : Int} {es : List (Edit E)} {front xs ys : List E}
    {added : Int → Bool} (h : Turns p es xs ys) (marks : Marks added p es)
    (hfront : (front.length : Int) = p + offset) {j : Int} (h1 : p ≤ j) (h2 : j < p + ys.length)
    (hkept : added j = false) :
    (front ++ xs)[(originAt offset es j).toNat]? = ys[(j - p).toNat]? ∧ 0 ≤ originAt offset es j := by
  induction es generalizing p offset front xs ys with
  | nil =>
    refine ⟨?_, by rw [originAt]; omega⟩
    rw [originAt, List.getElem?_append_right (by omega), show xs = ys from h]
    congr 1
    omega
  | cons e es ih =>
    have ord := h.ordered.1
    obtain ⟨kept, new, xs', ys', rfl, rfl, hlo, hhi, hrest⟩ := h
    simp only [List.length_append, Nat.cast_add] at h2
    by_cases hj : j < e.lo
    · rw [originAt, if_pos hj]
      refine ⟨?_, by omega⟩
      rw [List.getElem?_append_right (by omega), List.getElem?_append_left (by omega),
        List.getElem?_append_left (by omega)]
      congr 1
      omega
    by_cases hj' : j < e.hi
    · rw [marks.inside h1 (by omega) hj'] at hkept
      cases hkept
    · rw [originAt, if_neg hj, if_neg hj']
      have hlen : ((front ++ (kept ++ e.old)).length : Int) =
          e.hi + (offset + (e.old.length - (e.hi - e.lo))) := by
        simp only [List.length_append, Nat.cast_add]
        omega
      obtain ⟨hget, hpos⟩ := ih hrest (marks.tail (by omega)) hlen (by omega) (by omega)
      refine ⟨?_, hpos⟩
      rw [List.append_assoc, List.append_assoc] at hget
      rw [hget, List.getElem?_append_right (by omega), List.getElem?_append_right (by omega)]
      congr 1
      omega

theorem originAt_added {p offset : Int} {es : List (Edit E)} {added : Int → Bool}
    (ord : Ordered Edit.lo Edit.hi p es) (marks : Marks added p es) {j : Int} (h1 : p ≤ j)
    (hadded : added j = true) : originAt offset es j = -1 := by
  induction es generalizing p offset with
  | nil =>
    obtain ⟨e, he, -⟩ := (marks j h1).mp hadded
    cases he
  | cons e es ih =>
    rw [originAt]
    by_cases hj : j < e.lo
    · rw [marks.gap ord h1 hj] at hadded
      cases hadded
    by_cases hj' : j < e.hi
    · rw [if_neg hj, if_pos hj']
    · rw [if_neg hj, if_neg hj']
      exact ih ord.2.2 (marks.tail (ord.1.trans ord.2.1)) (by omega)

theorem map_originAt_kept {p q offset : Int} {es : List (Edit E)}
    (hkept : ∀ j, p ≤ j → j < q → originAt offset es j = j + offset) :
    (intRange p q).map (originAt offset es) = intRange (p + offset) (q + offset) := by
  have hshift : ∀ j ∈ intRange p q, originAt offset es j = j + offset :=
    fun j hj => hkept j (mem_intRange.mp hj).1 (mem_intRange.mp hj).2
  rw [List.map_congr_left hshift]
  simp only [intRange, List.map_map]
  rw [show q + offset - (p + offset) = q - p by omega]
  refine List.map_congr_left ?_
  intro k _
  simp only [Function.comp_apply]
  omega

theorem filter_ne_neg_one {p q : Int} (hpos : 0 ≤ p) : (intRange p q).filter (fun i => i != -1) = intRange p q := by
  rw [List.filter_eq_self]
  intro i hi
  have := (mem_intRange.mp hi).1
  rw [bne_iff_ne]
  omega

section Behind
variable {p offset : Int} {e : Edit E} {es : List (Edit E)}

theorem filter_originAt_added :
    ((intRange e.lo e.hi).map (originAt offset (e :: es))).filter (fun i => i != -1) = [] := by
  rw [List.filter_eq_nil_iff]
  intro i hi
  obtain ⟨j, hj, rfl⟩ := List.mem_map.mp hi
  obtain ⟨h1, h2⟩ := mem_intRange.mp hj
  rw [originAt, if_neg (by omega), if_pos h2]
  simp

theorem map_originAt_behind (hle : e.lo ≤ e.hi) (n : Nat) :
    (intRange e.hi (e.hi + n)).map (originAt offset (e :: es)) =
      (intRange e.hi (e.hi + n)).map (originAt (offset + (e.old.length - (e.hi - e.lo))) es) := by
  refine List.map_congr_left ?_
  intro j hj
  have := (mem_intRange.mp hj).1
  rw [originAt, if_neg (by omega), if_neg (by omega)]

/-- Nothing in front of the first edit has been removed. -/
theorem filter_removedAt_kept (ord : Ordered Edit.lo Edit.hi p (e :: es)) :
    (intRange (p + offset) (e.lo + offset)).filter (fun i => !(removedAt offset (e :: es)).contains i) =
      intRange (p + offset) (e.lo + offset) := by
  have hge := @removedAt_ge E e.hi (offset + (e.old.length - (e.hi - e.lo))) es ord.2.2
  rw [List.filter_eq_self]
  intro i hi
  have h2 := (mem_intRange.mp hi).2
  have hnot : i ∉ removedAt offset (e :: es) := by
    intro hmem
    rcases List.mem_append.mp hmem with hmem | hmem
    · have := (mem_intRange.mp hmem).1
      omega
    · have := hge i hmem
      omega
  simpa using hnot

theorem filter_removedAt_removed : (intRange (e.lo + offset) (e.lo + offset + e.old.length)).filter
    (fun i => !(removedAt offset (e :: es)).contains i) = [] := by
  rw [List.filter_eq_nil_iff]
  intro i hi
  have hmem : i ∈ removedAt offset (e :: es) := List.mem_append_left _ hi
  simpa using hmem

theorem filter_removedAt_behind (n : Nat) :
    (intRange (e.lo + offset + e.old.length) (e.lo + offset + e.old.length + n)).filter
        (fun i => !(removedAt offset (e :: es)).contains i) =
      (intRange (e.lo + offset + e.old.length) (e.lo + offset + e.old.length + n)).filter
        (fun i => !(removedAt (offset + (e.old.length - (e.hi - e.lo))) es).contains i) := by
  refine List.filter_congr ?_
  intro i hi
  have h1 := (mem_intRange.mp hi).1
  have hout : i ∉ intRange (e.lo + offset) (e.lo + offset + e.old.length) := by
    rw [mem_intRange]
    omega
  simp [removedAt, hout]

end Behind

theorem filter_originAt {p offset : Int} {es : List (Edit E)} {xs ys : List E}
    (h : Turns p es xs ys) (hpos : 0 ≤ p + offset) :
    ((intRange p (p + ys.length)).map (originAt offset es)).filter (fun i => i != -1) =
      (intRange (p + offset) (p + offset + xs.length)).filter
        (fun i => !(removedAt offset es).contains i) := by
  induction es generalizing p offset xs ys with
  | nil =>
    rw [map_originAt_kept (fun _ _ _ => rfl), filter_ne_neg_one hpos, show xs = ys from h, List.filter_eq_self.mpr]
    · congr 1
      omega
    · simp [removedAt]
  | cons e es ih =>
    have ord := h.ordered.1
    obtain ⟨kept, new, xs', ys', rfl, rfl, hlo, hhi, hrest⟩ := h
    have hlo' := ord.1
    have hhi' := ord.2.1
    have hnext : e.hi + (offset + (e.old.length - (e.hi - e.lo))) = e.lo + offset + e.old.length := by
      omega
    have hrec := ih hrest (by omega : 0 ≤ e.hi + (offset + (e.old.length - (e.hi - e.lo))))
    rw [hnext] at hrec
    simp only [List.length_append, Nat.cast_add]
    -- the three parts on the left: kept, added, behind the edit
    have hleft : intRange p (p + (kept.length + (new.length + ys'.length))) =
        intRange p e.lo ++ (intRange e.lo e.hi ++ intRange e.hi (e.hi + ys'.length)) := by
      rw [← intRange_append hhi' (by omega), ← intRange_append hlo' (by omega)]
      congr 1
      omega
    -- and on the right: kept, removed, behind the edit
    have hright : intRange (p + offset) (p + offset + (kept.length + (e.old.length + xs'.length))) =
        intRange (p + offset) (e.lo + offset) ++
          (intRange (e.lo + offset) (e.lo + offset + e.old.length) ++
            intRange (e.lo + offset + e.old.length) (e.lo + offset + e.old.length + xs'.length)) := by
      rw [← intRange_append (by omega) (by omega), ← intRange_append (by omega) (by omega)]
      congr 1
      omega
    have hkept : (intRange p e.lo).map (originAt offset (e :: es)) = intRange (p + offset) (e.lo + offset) := by
      apply map_originAt_kept
      intro j _ hj
      rw [originAt, if_pos hj]
    rw [hleft, hright]
    simp only [List.map_append, List.filter_append]
    rw [hkept, filter_ne_neg_one hpos, filter_originAt_added, map_originAt_behind hhi', hrec,
      filter_removedAt_kept ord, filter_removedAt_removed, filter_removedAt_behind]

/-! ## `mapToOriginal` -/

section Fill
variable {lo : Int} {perm : List Int} {n : Nat} {origin : Int → Int}

/-- The entries for the current indices below `upTo` are in place. -/
def Filled (lo : Int) (perm : List Int) (n : Nat) (origin : Int → Int) (upTo : Int)
    (map : List Int) : Prop :=
  map.length = n ∧
    ∀ j, 0 ≤ j → j < upTo → map[(rangeMap lo perm j).toNat]? = some (origin j)

theorem fillMap_spec (hperm : IsRangePerm lo perm) (h0 : 0 ≤ lo) (hn : lo + perm.length ≤ n)
    {a b : Int} {value : Int → Int} {map : List Int} (ha : 0 ≤ a) (hab : a ≤ b) (hb : b ≤ n)
    (hvalue : ∀ j, a ≤ j → j < b → value j = origin j) (h : Filled lo perm n origin a map) :
    ∃ map', fillMap (fun j => .ok (rangeMap lo perm j)) value (intRange a b) map = .ok map' ∧
      Filled lo perm n origin b map' := by
  obtain ⟨k, hk⟩ : ∃ k : Nat, b = a + k := ⟨(b - a).toNat, by omega⟩
  induction k generalizing a map with
  | zero =>
    rw [intRange_of_ge (by omega), show b = a by omega]
    exact ⟨map, rfl, h⟩
  | succ k ih =>
    obtain ⟨hlen, hget⟩ := h
    have hin := (hperm.rangeMap_bounds h0 hn).mp (by omega : 0 ≤ a ∧ a < n)
    obtain ⟨t, ht⟩ : ∃ t : Nat, rangeMap lo perm a = t := ⟨(rangeMap lo perm a).toNat, by omega⟩
    have hwrite : writeAt map (rangeMap lo perm a) (value a) = .ok (map.set t (value a)) := by
      rw [ht, writeAt_natCast _ _ _ (by omega)]
    have hset : Filled lo perm n origin (a + 1) (map.set t (value a)) := by
      refine ⟨by rw [List.length_set, hlen], ?_⟩
      intro j hj0 hj
      have hjn := (hperm.rangeMap_bounds h0 hn).mp (by omega : 0 ≤ j ∧ j < n)
      by_cases hja : j = a
      · rw [hja, ht, Int.toNat_natCast, List.getElem?_set_self (by omega),
          hvalue a le_rfl (by omega)]
      · have hne : (rangeMap lo perm j).toNat ≠ t := by
          intro heq
          exact hja (hperm.rangeMap_injective (by omega))
        rw [List.getElem?_set_ne (fun h => hne h.symm), hget j hj0 (by omega)]
    obtain ⟨map', hfill, hfilled⟩ := ih (by omega) (by omega)
      (fun j h1 h2 => hvalue j (by omega) h2) hset (by omega)
    refine ⟨map', ?_, hfilled⟩
    rw [intRange_cons (by omega), fillMap, List.foldlM_cons]
    simp only [bind, Except.bind, hwrite]
    exact hfill

theorem reconstructStep_spec (hperm : IsRangePerm lo perm) (h0 : 0 ≤ lo)
    (hn : lo + perm.length ≤ n) {c : SubChange E} {cs : List (SubChange E)} {r : Reconstruction}
    (hlast : 0 ≤ r.last) (h1 : r.last ≤ c.fromIdx) (h2 : c.fromIdx ≤ c.toIdx) (h3 : c.toIdx ≤ n)
    (horigin : ∀ j, r.last ≤ j → origin j = originAt r.offset ((c :: cs).map SubChange.edit) j)
    (h : Filled lo perm n origin r.last r.mapToOriginal) :
    ∃ r', reconstructStep (fun j => .ok (rangeMap lo perm j)) r c = .ok r' ∧
      Filled lo perm n origin r'.last r'.mapToOriginal ∧ r'.last = c.toIdx ∧
      r'.offset = r.offset + (c.getRemoved.length - (c.toIdx - c.fromIdx)) ∧
      r'.removed = r.removed ++
        intRange (c.fromIdx + r.offset) (c.fromIdx + r.offset + c.getRemoved.length) := by
  have hkept : ∀ j, r.last ≤ j → j < c.fromIdx → j + r.offset = origin j := by
    intro j hj1 hj2
    rw [horigin j hj1, List.map_cons, originAt, if_pos (show j < c.edit.lo from hj2)]
  have hadded : ∀ j, c.fromIdx ≤ j → j < c.toIdx → -1 = origin j := by
    intro j hj1 hj2
    rw [horigin j (h1.trans hj1), List.map_cons, originAt,
      if_neg (show ¬ j < c.edit.lo from Int.not_lt.mpr hj1), if_pos (show j < c.edit.hi from hj2)]
  obtain ⟨map₁, hmap₁, hfilled₁⟩ := fillMap_spec hperm h0 hn hlast h1 (h2.trans h3) hkept h
  obtain ⟨map₂, hmap₂, hfilled₂⟩ := fillMap_spec hperm h0 hn (hlast.trans h1) h2 h3 hadded hfilled₁
  refine ⟨⟨map₂, r.removed ++
    intRange (c.fromIdx + r.offset) (c.fromIdx + r.offset + c.getRemoved.length), c.toIdx,
    r.offset + (c.getRemoved.length - (c.toIdx - c.fromIdx))⟩, ?_, hfilled₂, rfl, rfl, rfl⟩
  simp only [reconstructStep, hmap₁, hmap₂, bind, Except.bind]

theorem reconstruct_fold (hperm : IsRangePerm lo perm) (h0 : 0 ≤ lo) (hn : lo + perm.length ≤ n)
    {cs : List (SubChange E)} {r : Reconstruction} (hlast : 0 ≤ r.last)
    (ord : Ordered SubChange.fromIdx SubChange.toIdx r.last cs)
    (hend : lastEnd SubChange.toIdx r.last cs ≤ n)
    (horigin : ∀ j, r.last ≤ j → origin j = originAt r.offset (cs.map SubChange.edit) j)
    (h : Filled lo perm n origin r.last r.mapToOriginal) :
    ∃ r', cs.foldlM (reconstructStep (fun j => .ok (rangeMap lo perm j))) r = .ok r' ∧
      Filled lo perm n origin r'.last r'.mapToOriginal ∧ 0 ≤ r'.last ∧ r'.last ≤ n ∧
      r'.offset = r.offset + netOffset (cs.map SubChange.edit) ∧
      r'.removed = r.removed ++ removedAt r.offset (cs.map SubChange.edit) ∧
      ∀ j, r'.last ≤ j → origin j = j + r'.offset := by
  induction cs generalizing r with
  | nil =>
    refine ⟨r, rfl, h, hlast, hend, ?_, ?_, horigin⟩
    · simp [netOffset]
    · simp [removedAt]
  | cons c cs ih =>
    obtain ⟨hfrom, hto, hrest⟩ := ord
    have hle := hrest.le_lastEnd
    rw [lastEnd] at hend
    obtain ⟨r₁, hstep, hfilled, hlast₁, hoffset₁, hremoved₁⟩ := reconstructStep_spec hperm h0 hn
      hlast hfrom hto (by omega) horigin h
    obtain ⟨r', hfold, h1, h2, h3, h4, h5, h6⟩ := ih (by omega) (by rw [hlast₁]; exact hrest)
      (by rw [hlast₁]; exact hend) (by
        intro j hj
        have hj1 : ¬ j < c.edit.lo := by rw [SubChange.edit_lo]; omega
        have hj2 : ¬ j < c.edit.hi := by rw [SubChange.edit_hi]; omega
        rw [horigin j (by omega), List.map_cons, originAt, if_neg hj1, if_neg hj2, hoffset₁]
        rfl) hfilled
    refine ⟨r', ?_, h1, h2, h3, ?_, ?_, h6⟩
    · rw [List.foldlM_cons, hstep]
      exact hfold
    · rw [h4, hoffset₁, List.map_cons, netOffset, SubChange.edit_lo, SubChange.edit_hi,
        SubChange.edit_old]
      omega
    · rw [h5, hremoved₁, hoffset₁, List.map_cons, removedAt, SubChange.edit_lo, SubChange.edit_hi,
        SubChange.edit_old, List.append_assoc]

theorem Filled.eq_permuteRange (hperm : IsRangePerm lo perm) (h0 : 0 ≤ lo)
    (hn : lo + perm.length ≤ n) {map : List Int} (h : Filled lo perm n origin n map) :
    map = permuteRange lo perm ((intRange 0 n).map origin) := by
  have hlen : ((intRange 0 n).map origin).length = n := by
    rw [List.length_map, intRange_length]
    omega
  apply OpenJfx.Lib.eq_permuteRange hperm h0 (by omega)
  · rw [hlen, h.1]
  · intro i hi
    rw [hlen] at hi
    rw [h.2 i (by omega) (by omega), intRange_zero]
    simp [hi]

end Fill

/-! ## The loop that fills the new permutation -/

/-- The original indices in their new order: removed ones stay, the others are
taken from `ks`. -/
def fixedOrder (removed : List Int) : List Int → List Int → List Int
  | [], _ => []
  | i :: is, ks =>
      if removed.contains i then i :: fixedOrder removed is ks
      else match ks with
        | [] => []
        | k :: ks => k :: fixedOrder removed is ks

theorem fixedOrder_removed {removed is ks : List Int} {i : Int} (h : removed.contains i = true) :
    fixedOrder removed (i :: is) ks = i :: fixedOrder removed is ks := by
  rw [fixedOrder.eq_def]
  exact if_pos h

theorem fixedOrder_kept {removed is ks : List Int} {i k : Int} (h : ¬ removed.contains i = true) :
    fixedOrder removed (i :: is) (k :: ks) = k :: fixedOrder removed is ks := by
  rw [fixedOrder.eq_def]
  exact if_neg h

theorem fixedOrder_perm (removed is ks : List Int)
    (hlen : (is.filter (fun i => !removed.contains i)).length = ks.length) :
    (fixedOrder removed is ks).Perm (is.filter (fun i => removed.contains i) ++ ks) := by
  induction is generalizing ks with
  | nil =>
    have : ks = [] := List.length_eq_zero_iff.mp hlen.symm
    rw [this]
    rfl
  | cons i is ih =>
    by_cases hi : removed.contains i = true
    · rw [List.filter_cons, if_neg (by rw [hi]; simp)] at hlen
      rw [fixedOrder_removed hi, List.filter_cons, if_pos hi, List.cons_append]
      exact (ih ks hlen).cons i
    · rw [List.filter_cons, if_pos (by simpa using hi)] at hlen
      rw [List.filter_cons, if_neg hi]
      cases ks with
      | nil => cases hlen
      | cons k ks =>
        rw [fixedOrder_kept hi]
        exact ((ih ks (by simpa using hlen)).cons k).trans List.perm_middle.symm

theorem dropWhile_filter (rest : List Int) :
    match rest.dropWhile (· == -1) with
    | [] => rest.filter (fun i => i != -1) = []
    | m :: tail => rest.filter (fun i => i != -1) = m :: tail.filter (fun i => i != -1) := by
  induction rest with
  | nil => rfl
  | cons x rest ih =>
    by_cases hx : x = -1
    · subst hx
      exact ih
    · have hfalse : (x == -1) = false := by simpa using hx
      rw [List.dropWhile_cons, hfalse]
      simp [hx]

theorem newPermLoop_spec (removed is : List Int) {rest newPerm : List Int} {n : Nat}
    (hlen : (is.filter (fun i => !removed.contains i)).length =
      (rest.filter (fun i => i != -1)).length)
    (hsize : newPerm.length = n)
    (hnodup : (fixedOrder removed is (rest.filter (fun i => i != -1))).Nodup)
    (hbound : ∀ z ∈ fixedOrder removed is (rest.filter (fun i => i != -1)), 0 ≤ z ∧ z < n) :
    ∃ out, newPermLoop removed is rest newPerm = .ok out ∧ out.length = n ∧
      (∀ (k : Nat) (z i : Int),
        (fixedOrder removed is (rest.filter (fun i => i != -1)))[k]? = some z → is[k]? = some i →
          out[z.toNat]? = some i) ∧
      (∀ t : Nat, (t : Int) ∉ fixedOrder removed is (rest.filter (fun i => i != -1)) →
        out[t]? = newPerm[t]?) := by
  induction is generalizing rest newPerm with
  | nil => exact ⟨newPerm, rfl, hsize, by simp, fun _ _ => rfl⟩
  | cons i is ih =>
    -- one write at `z`, and the rest of the loop leaves that entry alone
    have write : ∀ (z : Int) (rest' : List Int),
        (is.filter (fun i => !removed.contains i)).length =
          (rest'.filter (fun i => i != -1)).length →
        fixedOrder removed (i :: is) (rest.filter (fun i => i != -1)) =
          z :: fixedOrder removed is (rest'.filter (fun i => i != -1)) →
        newPermLoop removed (i :: is) rest newPerm =
          (writeAt newPerm z i >>= fun p => newPermLoop removed is rest' p) →
        ∃ out, newPermLoop removed (i :: is) rest newPerm = .ok out ∧ out.length = n ∧
          (∀ (k : Nat) (z j : Int),
            (fixedOrder removed (i :: is) (rest.filter (fun i => i != -1)))[k]? = some z →
              (i :: is)[k]? = some j → out[z.toNat]? = some j) ∧
          (∀ t : Nat, (t : Int) ∉ fixedOrder removed (i :: is) (rest.filter (fun i => i != -1)) →
            out[t]? = newPerm[t]?) := by
      intro z rest' hlen' horder hloop
      rw [horder] at hnodup hbound ⊢
      obtain ⟨hz, hnodup'⟩ := List.nodup_cons.mp hnodup
      have hzb := hbound z (List.mem_cons_self ..)
      obtain ⟨t, rfl⟩ : ∃ t : Nat, z = t := ⟨z.toNat, by omega⟩
      have hsize' : (newPerm.set t i).length = n := by rw [List.length_set, hsize]
      obtain ⟨out, hout, hlength, hhit, hmiss⟩ := ih hlen' hsize' hnodup'
        (fun y hy => hbound y (List.mem_cons_of_mem _ hy))
      refine ⟨out, ?_, hlength, ?_, ?_⟩
      · rw [hloop, writeAt_natCast _ _ _ (by omega)]
        exact hout
      · intro k y j hy hj
        cases k with
        | zero =>
          rw [List.getElem?_cons_zero] at hy hj
          cases hy
          cases hj
          rw [Int.toNat_natCast, hmiss t hz, List.getElem?_set_self (by omega)]
        | succ k =>
          rw [List.getElem?_cons_succ] at hy hj
          exact hhit k y j hy hj
      · intro u hu
        rw [List.mem_cons, not_or] at hu
        rw [hmiss u hu.2, List.getElem?_set_ne]
        intro heq
        exact hu.1 (by rw [heq])
    by_cases hi : removed.contains i = true
    · refine write i rest ?_ ?_ ?_
      · rwa [List.filter_cons, if_neg (by rw [hi]; simp)] at hlen
      · rw [fixedOrder_removed hi]
      · rw [newPermLoop, if_pos hi]
    · rw [List.filter_cons, if_pos (by simpa using hi), List.length_cons] at hlen
      have hnext := dropWhile_filter rest
      split at hnext
      · rw [hnext] at hlen
        cases hlen
      · rename_i m tail hdrop
        rw [hnext, List.length_cons] at hlen
        refine write m tail (by omega) ?_ ?_
        · rw [hnext, fixedOrder_kept hi]
        · rw [newPermLoop, if_neg hi]
          simp only [hdrop]

/-! ## The new order of the original list -/

theorem fixedOrder_skip {removed : List Int} (as bs ks : List Int)
    (h : ∀ i ∈ as, ¬ removed.contains i = true) (hlen : as.length ≤ ks.length) :
    fixedOrder removed (as ++ bs) ks =
      ks.take as.length ++ fixedOrder removed bs (ks.drop as.length) := by
  induction as generalizing ks with
  | nil => rfl
  | cons a as ih =>
    cases ks with
    | nil => cases hlen
    | cons k ks =>
      rw [List.cons_append, fixedOrder_kept (h a (List.mem_cons_self ..)),
        ih ks (fun i hi => h i (List.mem_cons_of_mem _ hi)) (by simpa using hlen)]
      rfl

theorem fixedOrder_stay {removed : List Int} (as bs ks : List Int)
    (h : ∀ i ∈ as, removed.contains i = true) :
    fixedOrder removed (as ++ bs) ks = as ++ fixedOrder removed bs ks := by
  induction as with
  | nil => rfl
  | cons a as ih =>
    rw [List.cons_append, fixedOrder_removed (h a (List.mem_cons_self ..)),
      ih (fun i hi => h i (List.mem_cons_of_mem _ hi)), List.cons_append]

theorem fixedOrder_congr {removed removed' : List Int} (is ks : List Int)
    (h : ∀ i ∈ is, removed.contains i = removed'.contains i) :
    fixedOrder removed is ks = fixedOrder removed' is ks := by
  induction is generalizing ks with
  | nil => rfl
  | cons i is ih =>
    have htail := fun ks => ih ks (fun j hj => h j (List.mem_cons_of_mem _ hj))
    have hi := h i (List.mem_cons_self ..)
    by_cases hc : removed.contains i = true
    · rw [fixedOrder_removed hc, fixedOrder_removed (hi ▸ hc), htail]
    · cases ks with
      | nil =>
        rw [fixedOrder.eq_def, fixedOrder.eq_def]
        simp only [hi]
        rw [htail]
      | cons k ks => rw [fixedOrder_kept hc, fixedOrder_kept (hi ▸ hc), htail]

theorem map_fixedOrder {p offset : Int} {es : List (Edit E)} {front xs ys : List E}
    (h : Turns p es xs ys) (hfront : (front.length : Int) = p + offset) {is : List Int} {ks : List E}
    (hks : ks.map some = is.map (fun i => (front ++ xs)[i.toNat]?))
    (hlen : ks.length + (es.map fun e => e.old.length).sum = xs.length) :
    (regrow p es ks).map some =
      (fixedOrder (removedAt offset es) (intRange (p + offset) (p + offset + xs.length)) is).map
        (fun i => (front ++ xs)[i.toNat]?) := by
  have hsame : ks.length = is.length := by
    have := congrArg List.length hks
    simpa using this
  induction es generalizing p offset front xs ys is ks with
  | nil =>
    rw [List.map_nil, List.sum_nil, Nat.add_zero] at hlen
    have hskip := @fixedOrder_skip (removedAt offset ([] : List (Edit E)))
      (intRange (p + offset) (p + offset + xs.length)) [] is (by simp [removedAt])
      (by rw [intRange_length]; omega)
    rw [List.append_nil, intRange_length, List.take_of_length_le (by omega), fixedOrder,
      List.append_nil] at hskip
    rw [regrow, hks, hskip]
  | cons e es ih =>
    have ord := h.ordered.1
    obtain ⟨kept, new, xs', ys', rfl, rfl, hlo, hhi, hrest⟩ := h
    rw [List.map_cons, List.sum_cons] at hlen
    simp only [List.length_append] at hlen
    have hnext : e.hi + (offset + (e.old.length - (e.hi - e.lo))) = e.lo + offset + e.old.length := by
      omega
    have hge : ∀ i ∈ removedAt (offset + (e.old.length - (e.hi - e.lo))) es, _ ≤ i :=
      removedAt_ge ord.2.2
    rw [hnext] at hge
    have hshort : (es.map fun e => e.old.length).sum ≤ xs'.length := by
      rw [hrest.eq_regrow (marks_any e.hi es), regrow_length]
      omega
    have hk : (e.lo - p).toNat = kept.length := by omega
    have hright : intRange (p + offset) (p + offset + ((kept ++ (e.old ++ xs')).length : Nat)) =
        intRange (p + offset) (e.lo + offset) ++
          (intRange (e.lo + offset) (e.lo + offset + e.old.length) ++
            intRange (e.lo + offset + e.old.length) (e.lo + offset + e.old.length + xs'.length)) := by
      rw [← intRange_append (by omega) (by omega), ← intRange_append (by omega) (by omega)]
      simp only [List.length_append]
      congr 1
      omega
    have hfirst : ∀ i ∈ intRange (p + offset) (e.lo + offset),
        ¬ (removedAt offset (e :: es)).contains i = true := by
      intro i hi hmem
      have h2 := (mem_intRange.mp hi).2
      rcases List.mem_append.mp (List.contains_iff_mem.mp hmem) with hmem | hmem
      · have := (mem_intRange.mp hmem).1
        omega
      · have := hge i hmem
        omega
    have hsecond : ∀ i ∈ intRange (e.lo + offset) (e.lo + offset + e.old.length),
        (removedAt offset (e :: es)).contains i = true := by
      intro i hi
      exact List.contains_iff_mem.mpr (List.mem_append_left _ hi)
    have hthird : ∀ i ∈ intRange (e.lo + offset + e.old.length)
          (e.lo + offset + e.old.length + xs'.length),
        (removedAt offset (e :: es)).contains i =
          (removedAt (offset + (e.old.length - (e.hi - e.lo))) es).contains i := by
      intro i hi
      have h1 := (mem_intRange.mp hi).1
      have hout : i ∉ intRange (e.lo + offset) (e.lo + offset + e.old.length) := by
        rw [mem_intRange]
        omega
      simp [removedAt, hout]
    have hold : (intRange (e.lo + offset) (e.lo + offset + e.old.length)).map
        (fun i => (front ++ (kept ++ (e.old ++ xs')))[i.toNat]?) = e.old.map some := by
      have hread := map_intRange_getElem? (front ++ kept) e.old xs' (a := e.lo + offset)
        (by rw [List.length_append]; omega)
      rwa [List.append_assoc] at hread
    have hassoc : front ++ (kept ++ (e.old ++ xs')) = (front ++ (kept ++ e.old)) ++ xs' := by
      simp
    have hfront' : ((front ++ (kept ++ e.old)).length : Int) =
        e.hi + (offset + (e.old.length - (e.hi - e.lo))) := by
      simp only [List.length_append, Nat.cast_add]
      omega
    have hks' : (ks.drop kept.length).map some =
        (is.drop kept.length).map (fun i => ((front ++ (kept ++ e.old)) ++ xs')[i.toNat]?) := by
      rw [List.map_drop, hks, ← List.map_drop, hassoc]
    have hrec := ih hrest hfront' hks' (by rw [List.length_drop]; omega)
      (by rw [List.length_drop, List.length_drop, hsame])
    rw [hnext] at hrec
    have hklen : (intRange (p + offset) (e.lo + offset)).length = kept.length := by
      rw [intRange_length]
      omega
    rw [regrow, hk, hright, fixedOrder_skip _ _ _ hfirst (by omega), hklen,
      fixedOrder_stay _ _ _ hsecond, fixedOrder_congr _ _ hthird]
    simp only [List.map_append]
    rw [hold, hrec, ← hassoc, List.map_take, hks, ← List.map_take]

theorem permuteRange_inverse {order out : List Int} {xs ys : List E}
    (horder : order.Perm (intRange 0 xs.length)) (hlen : out.length = xs.length)
    (hout : ∀ (k : Nat) (z : Int), order[k]? = some z → out[z.toNat]? = some (k : Int))
    (hys : ys.map some = order.map (fun i => xs[i.toNat]?)) :
    IsRangePerm 0 out ∧ permuteRange 0 out xs = ys := by
  have hsize : order.length = xs.length := by
    rw [horder.length_eq, intRange_length]
    omega
  have hyslen : ys.length = xs.length := by
    have := congrArg List.length hys
    simpa [hsize] using this
  have hperm : IsRangePerm 0 out := by
    have hsub : intRange 0 xs.length ⊆ out := by
      intro i hi
      obtain ⟨h1, h2⟩ := mem_intRange.mp hi
      obtain ⟨k, rfl⟩ : ∃ k : Nat, i = k := ⟨i.toNat, by omega⟩
      have hk : k < order.length := by omega
      exact List.mem_of_getElem? (hout k _ (List.getElem?_eq_getElem hk))
    rw [IsRangePerm, hlen, Int.zero_add]
    refine ((List.subperm_of_subset (intRange_nodup _ _) hsub).perm_of_length_le ?_).symm
    rw [hlen, intRange_length]
    omega
  refine ⟨hperm, (eq_permuteRange hperm le_rfl (by omega) hyslen ?_).symm⟩
  intro i hi
  have hmem : (i : Int) ∈ order := horder.mem_iff.mpr (mem_intRange.mpr (by omega))
  obtain ⟨k, hk⟩ := List.mem_iff_getElem?.mp hmem
  have hget := hout k i hk
  rw [Int.toNat_natCast] at hget
  have hmap : rangeMap 0 out i = k := by
    rw [rangeMap, if_neg (by omega), Int.sub_zero, Int.toNat_natCast, List.getD_eq_getElem?_getD, hget,
      Option.getD_some]
  have hread := congrArg (fun l => l[k]?) hys
  simp only [List.getElem?_map, hk, Option.map_some, Int.toNat_natCast] at hread
  rw [hmap, Int.toNat_natCast]
  cases hy : ys[k]? with
  | none => rw [hy] at hread; cases hread
  | some y =>
    rw [hy] at hread
    exact Option.some.inj hread

section Reconstruct
variable {cs : List (SubChange E)} {original current : List E} {lo : Int} {perm : List Int}
  {added added' : Int → Bool}

/-- `mapToOriginal` after the loops. -/
def permutedOrigins (lo : Int) (perm : List Int) (n : Nat) (cs : List (SubChange E)) : List Int :=
  permuteRange lo perm ((intRange 0 n).map (originAt 0 (cs.map SubChange.edit)))

theorem originAt_kept_iff (h : Turns 0 (cs.map SubChange.edit) original current)
    (marks : Marks added 0 (cs.map SubChange.edit)) {j : Nat} (hj : j < current.length) :
    (originAt 0 (cs.map SubChange.edit) j != -1) = !added j := by
  cases hadd : added j with
  | true => rw [originAt_added h.ordered.1 marks (by omega) hadd]; rfl
  | false =>
    have hpos := (@getElem?_originAt _ 0 0 _ [] _ _ _ h marks rfl j (by omega) (by omega) hadd).2
    rw [Bool.not_false, bne_iff_ne]
    omega

theorem getElem?_permutedOrigins (cs : List (SubChange E)) (hperm : IsRangePerm lo perm) (h0 : 0 ≤ lo) {n : Nat}
    (hn : lo + perm.length ≤ n) {j : Nat} (hj : j < n) :
    (permutedOrigins lo perm n cs)[(rangeMap lo perm j).toNat]? =
      some (originAt 0 (cs.map SubChange.edit) j) := by
  have hlen : ((intRange 0 n).map (originAt 0 (cs.map SubChange.edit))).length = n := by
    rw [List.length_map, intRange_length]
    omega
  rw [permutedOrigins, getElem?_permuteRange hperm h0 (by omega) j (by omega), intRange_zero]
  simp [hj]

theorem filter_permutedOrigins (h : Turns 0 (cs.map SubChange.edit) original current)
    (hperm : IsRangePerm lo perm) (h0 : 0 ≤ lo) (hn : lo + perm.length ≤ current.length)
    (marks : Marks added 0 (cs.map SubChange.edit))
    (moved : ∀ j : Nat, j < current.length → added' (rangeMap lo perm j) = added j) :
    keep added' 0 (permutedOrigins lo perm current.length cs) =
      (permutedOrigins lo perm current.length cs).filter (fun i => i != -1) := by
  apply keep_eq_filter
  intro k z hz
  have hlen : (permutedOrigins lo perm current.length cs).length = current.length := by
    rw [permutedOrigins, permuteRange_length hperm h0, List.length_map, intRange_length]
    · omega
    · rw [List.length_map, intRange_length]
      omega
  have hk : k < current.length := by
    have := (List.getElem?_eq_some_iff.mp hz).1
    omega
  obtain ⟨j, hj, hjk⟩ := exists_source hperm h0 hn hk
  have hget := getElem?_permutedOrigins cs hperm h0 hn hj
  rw [hjk, Int.toNat_natCast, hz] at hget
  rw [Int.zero_add, ← hjk, moved j hj, Option.some.inj hget, originAt_kept_iff h marks hj]

theorem map_keep_permuted (h : Turns 0 (cs.map SubChange.edit) original current)
    (hperm : IsRangePerm lo perm) (h0 : 0 ≤ lo) (hn : lo + perm.length ≤ current.length)
    (marks : Marks added 0 (cs.map SubChange.edit))
    (moved : ∀ j : Nat, j < current.length → added' (rangeMap lo perm j) = added j) :
    (keep added' 0 (permuteRange lo perm current)).map some =
      (keep added' 0 (permutedOrigins lo perm current.length cs)).map
        (fun i => original[i.toNat]?) := by
  have hlen := permuteRange_length hperm h0 hn
  have hsome : (keep added' 0 (permuteRange lo perm current)).map some =
      keep added' 0 ((permuteRange lo perm current).map some) := by
    refine (keep_map (by simp) ?_).symm
    intro k y z _ hy hz
    rw [List.getElem?_map, hz, Option.map_some] at hy
    exact (Option.some.inj hy).symm
  rw [hsome]
  apply keep_map
  · rw [List.length_map, hlen, permutedOrigins, permuteRange_length hperm h0, List.length_map,
      intRange_length]
    · omega
    · rw [List.length_map, intRange_length]
      omega
  · intro k y z hkept hy hz
    have hk : k < current.length := by
      have := (List.getElem?_eq_some_iff.mp hy).1
      rw [List.length_map] at this
      omega
    obtain ⟨j, hj, hjk⟩ := exists_source hperm h0 hn hk
    rw [Int.zero_add, ← hjk, moved j hj] at hkept
    have horigin := getElem?_permutedOrigins cs hperm h0 hn hj
    rw [hjk, Int.toNat_natCast, hz] at horigin
    have hcurrent := getElem?_permuteRange hperm h0 hn j hj
    rw [hjk, Int.toNat_natCast] at hcurrent
    have hread := (@getElem?_originAt _ 0 0 _ [] _ _ _ h marks rfl j (by omega) (by omega) hkept).1
    rw [List.nil_append, Int.sub_zero, Int.toNat_natCast] at hread
    rw [List.getElem?_map, hcurrent, ← hread] at hy
    rw [Option.some.inj horigin]
    cases hx : original[(originAt 0 (cs.map SubChange.edit) j).toNat]? with
    | none => rw [hx] at hy; cases hy
    | some x => rw [hx] at hy; exact (Option.some.inj hy).symm

/-- The reconstructed permutation takes the original list to the one in which
the removed elements have kept their places and the others follow each other in
the order of the permuted current list.  `added` and `added'` mark the elements
that are not in the original list, before and after the permutation. -/
theorem reconstruct_spec (h : Turns 0 (cs.map SubChange.edit) original current)
    (hperm : IsRangePerm lo perm) (h0 : 0 ≤ lo) (hn : lo + perm.length ≤ current.length)
    (marks : Marks added 0 (cs.map SubChange.edit))
    (moved : ∀ j : Nat, j < current.length → added' (rangeMap lo perm j) = added j) :
    ∃ newPerm, reconstruct lo (lo + perm.length) perm current.length cs = .ok newPerm ∧
      newPerm.length = original.length ∧ IsRangePerm 0 newPerm ∧
      permuteRange 0 newPerm original =
        regrow 0 (cs.map SubChange.edit) (keep added' 0 (permuteRange lo perm current)) := by
  obtain ⟨ord, hend⟩ := h.ordered
  rw [lastEnd_edits, Int.zero_add] at hend
  -- the array `mapToOriginal`
  have hstart : Filled lo perm current.length (originAt 0 (cs.map SubChange.edit)) 0
      (List.replicate current.length 0) :=
    ⟨by simp, fun j h1 h2 => absurd h2 (Int.not_lt.mpr h1)⟩
  obtain ⟨r, hfold, hfilled, hr0, hrn, hoffset, hremoved, hbehind⟩ := reconstruct_fold
    (r := ⟨List.replicate current.length 0, [], 0, 0⟩) hperm h0 hn le_rfl (ordered_edits.mp ord) hend
    (fun _ _ => rfl) hstart
  obtain ⟨map, hmap, hfull⟩ := fillMap_spec hperm h0 hn hr0 hrn le_rfl
    (fun j hj _ => (hbehind j hj).symm) hfilled
  have hmapEq : map = permutedOrigins lo perm current.length cs :=
    hfull.eq_permuteRange hperm h0 hn
  have hlength : (current.length : Int) + r.offset = original.length := by
    rw [hoffset, Int.zero_add, length_of_turns h]
  -- the kept original indices, in their new order
  have hkeep := filter_permutedOrigins h hperm h0 hn marks moved
  have hks := map_keep_permuted h hperm h0 hn marks moved
  have hkeptIdx := filter_originAt h (le_of_eq rfl : (0 : Int) ≤ 0 + 0)
  simp only [Int.zero_add] at hkeptIdx
  have hfilterPerm : (map.filter (fun i => i != -1)).Perm
      ((intRange 0 original.length).filter
        (fun i => !(removedAt 0 (cs.map SubChange.edit)).contains i)) := by
    rw [← hkeptIdx, hmapEq]
    refine List.Perm.filter _ (permuteRange_perm hperm h0 ?_)
    rw [List.length_map, intRange_length]
    omega
  have horder : (fixedOrder (removedAt 0 (cs.map SubChange.edit)) (intRange 0 original.length)
      (map.filter (fun i => i != -1))).Perm (intRange 0 original.length) :=
    (fixedOrder_perm _ _ _ hfilterPerm.length_eq.symm).trans
      ((hfilterPerm.append_left _).trans (List.filter_append_perm _ _))
  obtain ⟨newPerm, hloop, hnew, hhit, -⟩ := newPermLoop_spec
    (removedAt 0 (cs.map SubChange.edit)) (intRange 0 original.length) hfilterPerm.length_eq.symm
    (List.length_replicate : (List.replicate original.length (0 : Int)).length = original.length)
    (horder.nodup_iff.mpr (intRange_nodup _ _))
    (fun z hz => mem_intRange.mp (horder.mem_iff.mp hz))
  have hcount : (keep added' 0 (permuteRange lo perm current)).length +
      ((cs.map SubChange.edit).map fun e => e.old.length).sum = original.length := by
    have h1 := congrArg List.length hks
    rw [List.length_map, List.length_map, hkeep, ← hmapEq, hfilterPerm.length_eq, ← hkeptIdx,
      ← @keep_eq_filter _ added _ 0] at h1
    · have h2 := rank_keep added le_rfl ((intRange 0 current.length).map
        (originAt 0 (cs.map SubChange.edit)))
      have h3 := rank_keep added le_rfl current
      rw [List.length_map, intRange_length, show ((current.length : Int) - 0).toNat = current.length
        by omega] at h2
      have h4 := congrArg List.length (h.eq_regrow marks)
      rw [regrow_length] at h4
      omega
    · intro k z hz
      have hk : k < current.length := by
        have hlt := (List.getElem?_eq_some_iff.mp hz).1
        rw [List.length_map, intRange_length] at hlt
        omega
      rw [List.getElem?_map, intRange_zero, List.getElem?_map, List.getElem?_range hk,
        Option.map_some, Option.map_some] at hz
      rw [← Option.some.inj hz, Int.zero_add, originAt_kept_iff h marks hk]
  have hread := @map_fixedOrder E 0 0 _ [] _ _ h rfl _ _
    (hks.trans (by rw [hkeep, ← hmapEq, List.nil_append])) hcount
  rw [List.nil_append, Int.add_zero, Int.zero_add] at hread
  obtain ⟨hnewPerm, hmoved⟩ := permuteRange_inverse horder hnew (by
    intro k z hz
    have hk : k < original.length := by
      have hlt := (List.getElem?_eq_some_iff.mp hz).1
      rw [horder.length_eq, intRange_length] at hlt
      omega
    refine hhit k z k hz ?_
    rw [intRange_zero]
    simp [hk]) hread
  refine ⟨newPerm, ?_, hnew, hnewPerm, hmoved⟩
  rw [reconstruct, permuted_eq]
  simp only [hfold, hmap, bind, Except.bind]
  rw [hlength, if_neg (by omega), hremoved, List.nil_append, Int.toNat_natCast]
  exact hloop

end Reconstruct

end ListChangeBuilder
end OpenJfx.Collections
