import OpenJfx.Collections.BuilderPermutation
import Mathlib.Data.List.Flatten
import Mathlib.Data.List.Sort

/-! # When a permuted recording can be replayed

The permutation that `nextPermutation` derives for the original list leaves the
removed elements where they are; the renewed sub-changes look for them at the
new place of the position at which their sub-change starts.  Replaying is right
when the two agree: `RemovalsStay`.  For a list of distinct elements this is
also necessary. -/
set_option autoImplicit false
namespace OpenJfx.Collections
open OpenJfx.Lib

section Pairs
variable {α β : Type}

theorem pair_sublist_flatMap {l : List α} {f : α → List β} {a b : α} {x y : β}
    (h : [a, b].Sublist l) (hx : x ∈ f a) (hy : y ∈ f b) : [x, y].Sublist (l.flatMap f) := by
  have hpair : [x, y].Sublist ([a, b].flatMap f) := by
    rw [List.flatMap_cons, List.flatMap_cons, List.flatMap_nil, List.append_nil]
    exact (List.singleton_sublist.mpr hx).append (List.singleton_sublist.mpr hy)
  exact hpair.trans (h.flatMap f)

theorem mem_of_pair_sublist {pre post : List α} {a b : α} (h : [a, b].Sublist (pre ++ a :: post))
    (ha : a ∉ pre) : b ∈ post := by
  induction pre with
  | nil =>
    cases h with
    | cons _ h => exact h.subset (by simp)
    | cons_cons _ h => exact List.singleton_sublist.mp h
  | cons c pre ih =>
    rw [List.mem_cons, not_or] at ha
    cases h with
    | cons _ h => exact ih h ha.2
    | cons_cons _ h => exact absurd rfl ha.1

theorem pair_sublist_of_lt {l : List Int} (sorted : l.Pairwise (· < ·)) {a b : Int} (ha : a ∈ l)
    (hb : b ∈ l) (hlt : a < b) : [a, b].Sublist l := by
  have hpair : [a, b].Pairwise (· < ·) := by simpa using hlt
  refine List.sublist_of_subperm_of_pairwise (List.subperm_of_subset hpair.nodup ?_) hpair sorted
  simp [ha, hb]

theorem intRange_sorted (lo hi : Int) : (intRange lo hi).Pairwise (· < ·) := by
  rw [intRange, List.pairwise_map]
  refine List.Pairwise.imp ?_ List.pairwise_lt_range
  intro a b hab
  omega

theorem pair_not_both {l : List α} {x y : α} (nodup : l.Nodup) (h1 : [x, y].Sublist l)
    (h2 : [y, x].Sublist l) : False := by
  induction l with
  | nil => cases h1
  | cons a l ih =>
    obtain ⟨ha, hl⟩ := List.nodup_cons.mp nodup
    cases h1 with
    | cons _ h1 =>
      cases h2 with
      | cons _ h2 => exact ih hl h1 h2
      | cons_cons _ h2 => exact ha (h1.subset (by simp))
    | cons_cons _ h1 =>
      cases h2 with
      | cons _ h2 => exact ha (h2.subset (by simp))
      | cons_cons _ h2 => exact ha (List.singleton_sublist.mp h2)

end Pairs

namespace ListChangeBuilder
variable {E : Type}

/-- No removed list gets lost or moves to another place among the kept elements:
the number of kept elements in front of it is the same before and after the
permutation, the lists keep their order, and no list is overwritten in
`newRemoved` by one of a later sub-change that starts at the same position. -/
structure RemovalsStay (n : Nat) (perm : List Int) (cs : List (SubChange E)) : Prop where
  slots : ∀ c ∈ cs, c.getRemoved ≠ [] →
    (intRange 0 n).countP (fun i => !addedIn cs i &&
      decide (rangeMap 0 perm i < rangeMap 0 perm c.fromIdx)) =
    (intRange 0 n).countP (fun i => !addedIn cs i && decide (i < c.fromIdx))
  pairs : cs.Pairwise (fun c d => c.getRemoved ≠ [] →
    (d.removed ≠ none → c.fromIdx ≠ d.fromIdx) ∧
    (d.getRemoved ≠ [] → rangeMap 0 perm c.fromIdx < rangeMap 0 perm d.fromIdx))

/-! ## The map of removed lists -/

theorem mapGet_putRemoved {target : Int → Int} {cs : List (SubChange E)} {j : Int} {r : List E} :
    mapGet j (cs.foldl (putRemoved target) []) = some r ↔
      ∃ (pre : List (SubChange E)) (c : SubChange E) (post : List (SubChange E)), cs = pre ++ c :: post ∧
        c.removed = some r ∧ target c.fromIdx = j ∧ ∀ d ∈ post, d.removed ≠ none → target d.fromIdx ≠ j := by
  induction cs using List.reverseRecOn with
  | nil => simp [mapGet]
  | append_singleton cs c ih =>
    rw [List.foldl_append, List.foldl_cons, List.foldl_nil]
    constructor
    · intro h
      by_cases hlast : c.removed ≠ none ∧ target c.fromIdx = j
      · obtain ⟨removed, hrem⟩ := Option.ne_none_iff_exists'.mp hlast.1
        rw [putRemoved, hrem] at h
        simp only [mapGet_mapPut, hlast.2, if_true] at h
        exact ⟨cs, c, [], rfl, hrem.trans h, hlast.2, by simp⟩
      · have hrest : mapGet j (cs.foldl (putRemoved target) []) = some r := by
          rw [putRemoved] at h
          cases hrem : c.removed with
          | none => simpa only [hrem] using h
          | some removed =>
            have hne : target c.fromIdx ≠ j := fun heq => hlast ⟨by rw [hrem]; simp, heq⟩
            simpa only [hrem, mapGet_mapPut, if_neg hne] using h
        obtain ⟨pre, d, post, rfl, hrem, htarget, hafter⟩ := ih.mp hrest
        refine ⟨pre, d, post ++ [c], by simp, hrem, htarget, ?_⟩
        intro e he hne
        rcases List.mem_append.mp he with he | he
        · exact hafter e he hne
        · rw [List.mem_singleton.mp he] at hne ⊢
          exact fun heq => hlast ⟨hne, heq⟩
    · rintro ⟨pre, d, post, hsplit, hrem, htarget, hafter⟩
      rcases List.eq_nil_or_concat' post with rfl | ⟨post, e, rfl⟩
      · obtain ⟨rfl, hcd⟩ := List.append_inj' hsplit rfl
        rw [← (List.cons.inj hcd).1] at hrem htarget
        rw [putRemoved, hrem]
        simp only [mapGet_mapPut, htarget, if_true]
      · rw [← List.cons_append, ← List.append_assoc] at hsplit
        obtain ⟨rfl, hce⟩ := List.append_inj' hsplit rfl
        rw [← (List.cons.inj hce).1] at hafter
        have hrest := ih.mpr ⟨pre, d, post, rfl, hrem, htarget,
          fun e he => hafter e (List.mem_append_left _ he)⟩
        have hlast := hafter c (by simp)
        rw [putRemoved]
        cases hc : c.removed with
        | none => simpa only [hc] using hrest
        | some removed =>
          have hne : target c.fromIdx ≠ j := hlast (by rw [hc]; simp)
          simpa only [hc, mapGet_mapPut, if_neg hne] using hrest

theorem getRemoved_of_removed {c : SubChange E} {r : List E} (h : c.removed = some r) :
    c.getRemoved = r := by rw [SubChange.getRemoved, h, Option.getD_some]

theorem removed_of_getRemoved {c : SubChange E} (h : c.getRemoved ≠ []) :
    c.removed = some c.getRemoved := by
  cases hr : c.removed with
  | none => exact absurd (by rw [SubChange.getRemoved, hr, Option.getD_none]) h
  | some r => rw [SubChange.getRemoved, hr, Option.getD_some]

theorem exists_of_removedThere {perm : List Int} {cs : List (SubChange E)} {j : Int}
    (h : removedThere 0 perm cs j ≠ []) :
    ∃ (pre : List (SubChange E)) (c : SubChange E) (post : List (SubChange E)), cs = pre ++ c :: post ∧
      c.getRemoved = removedThere 0 perm cs j ∧
      rangeMap 0 perm c.fromIdx = j ∧
      ∀ d ∈ post, d.removed ≠ none → rangeMap 0 perm d.fromIdx ≠ j := by
  rw [removedThere] at h ⊢
  cases hget : mapGet j (cs.foldl (putRemoved (rangeMap 0 perm)) []) with
  | none => rw [hget] at h; exact absurd rfl h
  | some r =>
    obtain ⟨pre, c, post, hsplit, hrem, hkey, hafter⟩ := mapGet_putRemoved.mp hget
    exact ⟨pre, c, post, hsplit, by rw [getRemoved_of_removed hrem, Option.getD_some], hkey, hafter⟩

/-! ## Slots before and after -/

section Slots
variable {cs : List (SubChange E)} {perm : List Int} {n : Nat}

theorem rank_addedAfter (hperm : IsRangePerm 0 perm) (hlen : perm.length = n) {key : Int}
    (h0 : 0 ≤ key) (hn : key ≤ n) :
    rank (addedAfter 0 perm cs) key =
      (intRange 0 n).countP (fun i => !addedIn cs i && decide (rangeMap 0 perm i < key)) := by
  rw [rank_eq_countP _ h0 hn, ← (map_rangeMap_perm hperm le_rfl (by omega)).countP_eq, List.countP_map]
  refine List.countP_congr ?_
  intro i _
  simp only [Function.comp_apply, addedAfter_rangeMap hperm]

theorem rangeMap_end_bounds (hperm : IsRangePerm 0 perm) (hlen : perm.length = n) {i : Int}
    (h0 : 0 ≤ i) (hn : i ≤ n) : 0 ≤ rangeMap 0 perm i ∧ rangeMap 0 perm i ≤ n := by
  by_cases hlast : i < n
  · have := (hperm.rangeMap_bounds le_rfl (by omega)).mp ⟨h0, hlast⟩
    omega
  · rw [rangeMap_outside (by omega)]
    exact ⟨h0, hn⟩

theorem editSlot_eq (added : Int → Bool) (cs : List (SubChange E)) (t : Nat) :
    editSlot added (cs.map SubChange.edit) t =
      (cs.filter (fun c => rank added c.fromIdx = t)).flatMap SubChange.getRemoved := by
  rw [editSlot, List.filter_map, List.flatMap_map]
  rfl

theorem flatMap_filter_nonempty {α : Type} (q : α → Bool) (r : α → List E) (l : List α) :
    ((l.filter (fun a => !(r a).isEmpty)).filter q).flatMap r = (l.filter q).flatMap r := by
  induction l with
  | nil => rfl
  | cons a l ih =>
    cases hr : r a with
    | nil =>
      rw [List.filter_cons, if_neg (by simp [hr]), ih, List.filter_cons]
      split
      · rw [List.flatMap_cons, hr, List.nil_append]
      · rfl
    | cons x xs =>
      rw [List.filter_cons, if_pos (by simp [hr]), List.filter_cons, List.filter_cons]
      split
      · rw [List.flatMap_cons, List.flatMap_cons, ih]
      · exact ih

variable (hperm : IsRangePerm 0 perm) (hlen : perm.length = n)
  (hrange : ∀ c ∈ cs, 0 ≤ c.fromIdx ∧ c.fromIdx ≤ n)
include hperm hlen hrange

theorem removedThere_positions (stay : RemovalsStay n perm cs) :
    (intRange 0 (n + 1)).filter (fun j => !(removedThere 0 perm cs j).isEmpty) =
      (cs.filter (fun c => !c.getRemoved.isEmpty)).map (fun c => rangeMap 0 perm c.fromIdx) ∧
    ∀ c ∈ cs, c.getRemoved ≠ [] → removedThere 0 perm cs (rangeMap 0 perm c.fromIdx) = c.getRemoved := by
  have hfound : ∀ c ∈ cs, c.getRemoved ≠ [] →
      removedThere 0 perm cs (rangeMap 0 perm c.fromIdx) = c.getRemoved := by
    intro c hc hne
    obtain ⟨pre, post, rfl⟩ := List.append_of_mem hc
    obtain ⟨-, hpost, -⟩ := List.pairwise_append.mp stay.pairs
    have hget := mapGet_putRemoved.mpr ⟨pre, c, post, rfl, removed_of_getRemoved hne, rfl, by
      intro d hd hnull heq
      exact ((List.pairwise_cons.mp hpost).1 d hd hne).1 hnull (hperm.rangeMap_injective heq.symm)⟩
    rw [removedThere, hget, Option.getD_some]
  refine ⟨?_, hfound⟩
  have hkeys : ((cs.filter (fun c => !c.getRemoved.isEmpty)).map
      (fun c => rangeMap 0 perm c.fromIdx)).Pairwise (· < ·) := by
    rw [List.pairwise_map, List.pairwise_filter]
    refine stay.pairs.imp ?_
    intro c d h hc hd
    exact (h (by simpa using hc)).2 (by simpa using hd)
  refine ((intRange_sorted 0 (n + 1)).filter _).eq_of_mem_iff hkeys ?_
  intro j
  simp only [List.mem_filter, mem_intRange, List.mem_map]
  constructor
  · rintro ⟨-, hne⟩
    obtain ⟨pre, c, post, hsplit, hrem, hkey, -⟩ := exists_of_removedThere
      (by simpa using hne : removedThere 0 perm cs j ≠ [])
    refine ⟨c, ⟨by rw [hsplit]; simp, ?_⟩, hkey⟩
    rw [hrem]
    exact hne
  · rintro ⟨c, ⟨hc, hne⟩, rfl⟩
    obtain ⟨h1, h2⟩ := rangeMap_end_bounds hperm hlen (hrange c hc).1 (hrange c hc).2
    rw [hfound c hc (by simpa using hne)]
    exact ⟨by omega, hne⟩

theorem slot_eq_editSlot (stay : RemovalsStay n perm cs) (t : Nat) :
    slot (removedThere 0 perm cs) (addedAfter 0 perm cs) 0 n t =
      editSlot (addedIn cs) (cs.map SubChange.edit) t := by
  obtain ⟨hpos, hfound⟩ := removedThere_positions hperm hlen hrange stay
  rw [slot, ← flatMap_filter_nonempty, hpos, List.filter_map, List.flatMap_map, editSlot_eq,
    ← flatMap_filter_nonempty _ SubChange.getRemoved]
  have hfilter : (cs.filter (fun c => !c.getRemoved.isEmpty)).filter
      ((fun i => decide (rank (addedAfter 0 perm cs) i = t)) ∘ fun c => rangeMap 0 perm c.fromIdx) =
      (cs.filter (fun c => !c.getRemoved.isEmpty)).filter
        (fun c => decide (rank (addedIn cs) c.fromIdx = t)) := by
    refine List.filter_congr ?_
    intro c hc
    obtain ⟨hc, hne⟩ := List.mem_filter.mp hc
    obtain ⟨h1, h2⟩ := rangeMap_end_bounds hperm hlen (hrange c hc).1 (hrange c hc).2
    rw [Function.comp_apply, rank_addedAfter hperm hlen h1 h2,
      rank_eq_countP (addedIn cs) (hrange c hc).1 (hrange c hc).2,
      stay.slots c hc (by simpa using hne)]
  rw [hfilter]
  refine List.flatMap_congr ?_
  intro c hc
  obtain ⟨hc, hne⟩ := List.mem_filter.mp (List.mem_filter.mp hc).1
  exact hfound c hc (by simpa using hne)

theorem removalsStay_of_slots (ord : Ordered SubChange.fromIdx SubChange.toIdx 0 cs)
    (nodup : (cs.flatMap SubChange.getRemoved).Nodup)
    (heq : ∀ t, t ≤ rank (addedIn cs) n → editSlot (addedIn cs) (cs.map SubChange.edit) t =
      slot (removedThere 0 perm cs) (addedAfter 0 perm cs) 0 n t) : RemovalsStay n perm cs := by
  have hdisjoint : cs.Pairwise (fun c d => ∀ x ∈ c.getRemoved, x ∉ d.getRemoved) := by
    refine (List.nodup_flatMap.mp nodup).2.imp ?_
    intro c d h x hx hx'
    exact h hx hx'
  -- an element of a removed list determines the sub-change
  have hunique : ∀ {pre c post d} {x : E}, cs = pre ++ c :: post → x ∈ c.getRemoved → d ∈ cs →
      x ∈ d.getRemoved → d = c ∧ c ∉ pre := by
    intro pre c post d x hsplit hxc hd hxd
    rw [hsplit] at hdisjoint hd
    obtain ⟨-, hcpost, hpre⟩ := List.pairwise_append.mp hdisjoint
    have hnot : ∀ e ∈ pre, x ∉ e.getRemoved := fun e he hxe =>
      hpre e he c (List.mem_cons_self ..) x hxe hxc
    rcases List.mem_append.mp hd with hd | hd
    · exact absurd hxd (hnot d hd)
    · rcases List.mem_cons.mp hd with rfl | hd
      · exact ⟨rfl, fun hmem => hnot d hmem hxd⟩
      · exact absurd hxd ((List.pairwise_cons.mp hcpost).1 d hd x hxc)
  -- where the elements of a removed list are found after the permutation
  have hplace : ∀ c ∈ cs, ∀ x ∈ c.getRemoved,
      rank (addedAfter 0 perm cs) (rangeMap 0 perm c.fromIdx) = rank (addedIn cs) c.fromIdx ∧
      ∃ pre post, cs = pre ++ c :: post ∧ c ∉ pre ∧
        removedThere 0 perm cs (rangeMap 0 perm c.fromIdx) = c.getRemoved ∧
        ∀ d ∈ post, d.removed ≠ none → rangeMap 0 perm d.fromIdx ≠ rangeMap 0 perm c.fromIdx := by
    intro c hc x hx
    have hslot : x ∈ editSlot (addedIn cs) (cs.map SubChange.edit) (rank (addedIn cs) c.fromIdx) := by
      rw [editSlot_eq, List.mem_flatMap]
      exact ⟨c, List.mem_filter.mpr ⟨hc, by simp⟩, hx⟩
    rw [heq _ (rank_mono _ (hrange c hc).2), slot, List.mem_flatMap] at hslot
    obtain ⟨j, hj, hxj⟩ := hslot
    obtain ⟨-, hrank⟩ := List.mem_filter.mp hj
    obtain ⟨pre, d, post, hsplit, hrem, hkey, hafter⟩ :=
      exists_of_removedThere (List.ne_nil_of_mem hxj)
    obtain ⟨rfl, hpre⟩ := hunique hsplit (hrem ▸ hxj) hc hx
    subst hkey
    exact ⟨by simpa using hrank, pre, post, hsplit, hpre, hrem.symm, hafter⟩
  have hslots : ∀ c ∈ cs, c.getRemoved ≠ [] →
      rank (addedAfter 0 perm cs) (rangeMap 0 perm c.fromIdx) = rank (addedIn cs) c.fromIdx := by
    intro c hc hne
    obtain ⟨x, hx⟩ := List.exists_mem_of_ne_nil _ hne
    exact (hplace c hc x hx).1
  refine ⟨?_, ?_⟩
  · intro c hc hne
    obtain ⟨h1, h2⟩ := rangeMap_end_bounds hperm hlen (hrange c hc).1 (hrange c hc).2
    rw [← rank_addedAfter hperm hlen h1 h2, hslots c hc hne,
      rank_eq_countP (addedIn cs) (hrange c hc).1 (hrange c hc).2]
  · rw [List.pairwise_iff_forall_sublist]
    intro c d hsub hne
    have hc : c ∈ cs := hsub.subset (by simp)
    have hd : d ∈ cs := hsub.subset (by simp)
    obtain ⟨x, hx⟩ := List.exists_mem_of_ne_nil _ hne
    obtain ⟨-, pre, post, hsplit, hpre, hthere, hafter⟩ := hplace c hc x hx
    have hdpost : d ∈ post := by
      rw [hsplit] at hsub
      exact mem_of_pair_sublist hsub hpre
    have hdiff : d.removed ≠ none → c.fromIdx ≠ d.fromIdx :=
      fun hnull heq => hafter d hdpost hnull (by rw [heq])
    refine ⟨hdiff, ?_⟩
    intro hne'
    obtain ⟨y, hy⟩ := List.exists_mem_of_ne_nil _ hne'
    obtain ⟨-, -, -, -, -, hthere', -⟩ := hplace d hd y hy
    have hkeys : rangeMap 0 perm c.fromIdx ≠ rangeMap 0 perm d.fromIdx := fun heq =>
      hdiff (by rw [removed_of_getRemoved hne']; simp) (hperm.rangeMap_injective heq)
    by_contra hge
    have hlt : rangeMap 0 perm d.fromIdx < rangeMap 0 perm c.fromIdx := by omega
    -- the later list would have to be in the same slot, in front of the earlier one
    have hfrom : c.fromIdx ≤ d.fromIdx := (List.pairwise_iff_forall_sublist.mp ord.pairwise hsub).1
    have hsame : rank (addedIn cs) c.fromIdx = rank (addedIn cs) d.fromIdx := by
      refine le_antisymm (rank_mono _ hfrom) ?_
      rw [← hslots c hc hne, ← hslots d hd hne']
      exact rank_mono _ hlt.le
    have hbefore : [x, y].Sublist (editSlot (addedIn cs) (cs.map SubChange.edit)
        (rank (addedIn cs) c.fromIdx)) := by
      rw [editSlot_eq]
      refine pair_sublist_flatMap ?_ hx hy
      have hfilter := hsub.filter (fun e => decide (rank (addedIn cs) e.fromIdx = rank (addedIn cs) c.fromIdx))
      simpa [hsame] using hfilter
    have hafter' : [y, x].Sublist (editSlot (addedIn cs) (cs.map SubChange.edit)
        (rank (addedIn cs) c.fromIdx)) := by
      rw [heq _ (rank_mono _ (hrange c hc).2), slot]
      have hmem : ∀ e ∈ cs, e.getRemoved ≠ [] → rank (addedIn cs) e.fromIdx = rank (addedIn cs) c.fromIdx →
          rangeMap 0 perm e.fromIdx ∈ (intRange 0 (n + 1)).filter
            (fun i => rank (addedAfter 0 perm cs) i = rank (addedIn cs) c.fromIdx) := by
        intro e he hne hrank
        obtain ⟨h1, h2⟩ := rangeMap_end_bounds hperm hlen (hrange e he).1 (hrange e he).2
        rw [List.mem_filter, mem_intRange, hslots e he hne, hrank]
        exact ⟨by omega, by simp⟩
      exact pair_sublist_flatMap (pair_sublist_of_lt ((intRange_sorted 0 (n + 1)).filter _)
        (hmem d hd hne' hsame.symm) (hmem c hc hne rfl) hlt) (hthere' ▸ hy) (hthere ▸ hx)
    refine pair_not_both ?_ hbefore hafter'
    rw [editSlot_eq]
    exact (List.filter_sublist.flatMap _).nodup nodup

omit hrange in
theorem rank_addedAfter_end : rank (addedAfter 0 perm cs) n = rank (addedIn cs) n := by
  rw [rank_addedAfter hperm hlen (by omega) le_rfl, rank_eq_countP (addedIn cs) (by omega) le_rfl]
  refine List.countP_congr ?_
  intro i hi
  have h := mem_intRange.mp hi
  have := (hperm.rangeMap_bounds le_rfl (by omega : (0 : Int) + perm.length ≤ n)).mp h
  simp [h.2, this.2]

end Slots

section Interleavings
variable {cs : List (SubChange E)} {perm : List Int} {current : List E}
  (ord : Ordered SubChange.fromIdx SubChange.toIdx 0 cs)
  (hend : lastEnd SubChange.toIdx 0 cs ≤ current.length) (hperm : IsRangePerm 0 perm)
  (hlen : perm.length = current.length)
include ord hend hperm hlen

def keptAfter (perm : List Int) (cs : List (SubChange E)) (current : List E) : List E :=
  keep (addedAfter 0 perm cs) 0 (permuteRange 0 perm current)

omit ord hend in
theorem keptAfter_length :
    (keptAfter perm cs current).length = rank (addedIn cs) current.length := by
  have hkeep := rank_keep (addedAfter 0 perm cs) le_rfl (permuteRange 0 perm current)
  rw [permuteRange_length hperm le_rfl (by omega), Int.zero_add, rank_addedAfter_end hperm hlen] at hkeep
  rw [hkeep]
  exact (Nat.zero_add _).symm

theorem regrow_keptAfter :
    regrow 0 (cs.map SubChange.edit) (keptAfter perm cs current) =
      weave (editSlot (addedIn cs) (cs.map SubChange.edit)) 0 (keptAfter perm cs current) := by
  refine regrow_eq_weave le_rfl (ordered_edits.mpr ord) (addedIn_marks cs) ?_
  rw [keptAfter_length hperm hlen, lastEnd_edits]
  exact (rank_mono (addedIn cs) hend).trans (Nat.le_add_left _ _)

omit ord hend in
theorem restore_permuted :
    restore (removedThere 0 perm cs) (addedAfter 0 perm cs) 0 (permuteRange 0 perm current) =
      weave (slot (removedThere 0 perm cs) (addedAfter 0 perm cs) 0 current.length) 0
        (keptAfter perm cs current) := by
  have hright := restore_eq_weave (removedThere 0 perm cs) (addedAfter 0 perm cs) le_rfl
    (permuteRange 0 perm current)
  rw [permuteRange_length hperm le_rfl (by omega), Int.zero_add] at hright
  exact hright

omit hperm hlen in
theorem fromIdx_bounds : ∀ c ∈ cs, 0 ≤ c.fromIdx ∧ c.fromIdx ≤ (current.length : Int) := by
  intro c hc
  have h1 := ord.lo_ge c hc
  have h2 := ord.hi_le_lastEnd c hc
  omega

theorem regrow_eq_restore (stay : RemovalsStay current.length perm cs) :
    regrow 0 (cs.map SubChange.edit) (keptAfter perm cs current) =
      restore (removedThere 0 perm cs) (addedAfter 0 perm cs) 0 (permuteRange 0 perm current) := by
  rw [regrow_keptAfter ord hend hperm hlen, restore_permuted hperm hlen]
  refine weave_congr ?_ _
  intro t _
  exact (slot_eq_editSlot hperm hlen (fromIdx_bounds ord hend) stay t).symm

theorem removalsStay_of_regrow
    (nodup : (regrow 0 (cs.map SubChange.edit) (keptAfter perm cs current)).Nodup)
    (heq : regrow 0 (cs.map SubChange.edit) (keptAfter perm cs current) =
      restore (removedThere 0 perm cs) (addedAfter 0 perm cs) 0 (permuteRange 0 perm current)) :
    RemovalsStay current.length perm cs := by
  have hparts := (regrow_perm 0 (cs.map SubChange.edit) (keptAfter perm cs current)).nodup_iff.mp nodup
  rw [List.flatMap_map] at hparts
  obtain ⟨-, hremoved, hapart⟩ := List.nodup_append.mp hparts
  -- no kept element is also a removed one
  have hkept : ∀ y ∈ keptAfter perm cs current, ∀ c ∈ cs, y ∉ c.getRemoved := by
    intro y hy c hc hmem
    exact hapart y hy y (List.mem_flatMap.mpr ⟨c, hc, hmem⟩) rfl
  rw [regrow_keptAfter ord hend hperm hlen, restore_permuted hperm hlen] at heq
  have hslots := weave_unique
    (by
      intro u y hy hmem
      rw [editSlot_eq, List.mem_flatMap] at hmem
      obtain ⟨c, hc, hyc⟩ := hmem
      exact hkept y hy c (List.mem_filter.mp hc).1 hyc)
    (by
      intro u y hy hmem
      obtain ⟨j, -, hyj⟩ := List.mem_flatMap.mp hmem
      obtain ⟨pre, c, post, hsplit, hrem, -, -⟩ := exists_of_removedThere (List.ne_nil_of_mem hyj)
      exact hkept y hy c (by rw [hsplit]; simp) (hrem ▸ hyj)) heq
  refine removalsStay_of_slots hperm hlen (fromIdx_bounds ord hend) ord hremoved ?_
  intro t ht
  refine hslots t (Nat.zero_le t) ?_
  rw [keptAfter_length hperm hlen, Nat.zero_add]
  exact ht

end Interleavings

section Replay
variable [DecidableEq E]

/-- The recorded permutation and then the add/remove sub-changes, in their
documented order, lead from `original` to `current`. -/
structure Replays (original current : List E) (b : ListChangeBuilder E) : Prop where
  permutation : ∀ c ∈ b.permutationChange, c.ValidPermutation original.length
  plain : ∀ c ∈ b.addRemove, c.Plain
  ordered : Ordered SubChange.fromIdx SubChange.toIdx 0 b.addRemove
  replay : Change.replay current b.addRemove (permutedBy b.permutationChange original) = some current

variable {b : ListChangeBuilder E} {original current : List E} {perm : List Int}

theorem Replays.turns (h : Replays original current b) :
    Turns 0 (b.addRemove.map SubChange.edit) (permutedBy b.permutationChange original) current := by
  have hreplay := h.replay
  rw [Change.replay_plain _ h.plain] at hreplay
  exact replay_turns_zero.mp ⟨ordered_edits.mpr h.ordered, hreplay⟩

theorem Replays.of_turns (hp : ∀ c ∈ b.permutationChange, c.ValidPermutation original.length)
    (plain : ∀ c ∈ b.addRemove, c.Plain)
    (h : Turns 0 (b.addRemove.map SubChange.edit) (permutedBy b.permutationChange original) current) :
    Replays original current b := by
  obtain ⟨hord, hreplay⟩ := replay_turns_zero.mpr h
  exact ⟨hp, plain, ordered_edits.mp hord, by rw [Change.replay_plain _ plain, hreplay]⟩

omit [DecidableEq E] in
theorem permutedBy_perm {p : Option (SubChange E)} {xs : List E}
    (hp : ∀ c ∈ p, c.ValidPermutation xs.length) : (permutedBy p xs).Perm xs := by
  cases p with
  | none => exact List.Perm.refl _
  | some c =>
    obtain ⟨h1, h2, h3, h4⟩ := hp c rfl
    exact permuteRange_perm h4 h1 (by omega)

/-- A permutation of the whole list is always recorded, when its array is not the
one that the builder holds already.  The new pair leads from the original list to the
permuted one if the removals stay, and for a list of distinct elements only then. -/
theorem nextPermutation_replays (lock : b.changeLock ≠ 0) (h : Replays original current b)
    (hperm : IsRangePerm 0 perm) (hlen : perm.length = current.length) :
    ∃ b', nextPermutation 0 current.length perm current.length b = .done b' ∧
      (RemovalsStay current.length perm b.addRemove →
        Replays original (permuteRange 0 perm current) b') ∧
      (original.Nodup → (Replays original (permuteRange 0 perm current) b' ↔
        RemovalsStay current.length perm b.addRemove)) := by
  have hturns := h.turns
  have hsize := (permutedBy_perm h.permutation).length_eq
  obtain ⟨prePerm, out, hpre, hprelen, hmoved, hplain, hout, hnext⟩ :=
    nextPermutation_eq lock hturns hperm hlen
  obtain ⟨c, hmerge, hvalid, hcomp⟩ := mergePermutation_spec hpre (hprelen.trans hsize) h.permutation
  rw [← hsize] at hmerge
  obtain ⟨b', hdone, hchanges, hpermutation⟩ : ∃ b',
      nextPermutation 0 current.length perm current.length b = .done b' ∧
        b'.addRemove = out.getD [] ∧ b'.permutationChange = some c := ⟨_, hnext _ hmerge, rfl, rfl⟩
  refine ⟨b', hdone, ?_⟩
  rw [← hchanges] at hout hplain
  have hstart : permutedBy b'.permutationChange original =
      regrow 0 (b.addRemove.map SubChange.edit) (keptAfter perm b.addRemove current) := by
    rw [hpermutation]
    exact hcomp.trans hmoved
  obtain ⟨-, hend⟩ := hturns.ordered
  rw [lastEnd_edits, Int.zero_add] at hend
  have hif : RemovalsStay current.length perm b.addRemove →
      Replays original (permuteRange 0 perm current) b' := by
    intro stay
    refine Replays.of_turns ?_ (hplain h.plain) ?_
    · intro d hd
      rw [hpermutation] at hd
      cases hd
      exact hvalid
    · rw [hstart, regrow_eq_restore h.ordered hend hperm hlen stay]
      exact hout
  refine ⟨hif, ?_⟩
  intro nodup
  refine ⟨?_, hif⟩
  intro hreplay
  refine removalsStay_of_regrow h.ordered hend hperm hlen ?_ ?_
  · rw [← hstart]
    exact (permutedBy_perm hreplay.permutation).nodup_iff.mpr nodup
  · rw [← hstart]
    exact hreplay.turns.unique hout

/-- `3` was removed at the end of `[1, 2, 3]`, then `[1, 2]` is reversed. -/
theorem nextPermutation_replays_reversed :
    RemovalsStay 2 [1, 0] [(⟨2, 2, some [3], [], false⟩ : SubChange Nat)] ∧
      ∃ b', nextPermutation 0 2 [1, 0] 2
          (⟨1, some [⟨2, 2, some [3], [], false⟩], none, none, []⟩ : ListChangeBuilder Nat) = .done b' ∧
        (RemovalsStay 2 [1, 0] [(⟨2, 2, some [3], [], false⟩ : SubChange Nat)] →
          Replays [1, 2, 3] [2, 1] b') ∧
        ([1, 2, 3].Nodup → (Replays [1, 2, 3] [2, 1] b' ↔
          RemovalsStay 2 [1, 0] [(⟨2, 2, some [3], [], false⟩ : SubChange Nat)])) :=
  ⟨⟨by decide, by decide⟩, nextPermutation_replays (by decide)
    (⟨by decide, by decide, by decide, by decide⟩ : Replays [1, 2, 3] [1, 2] _) (by decide) rfl⟩

/-- Without the condition: `1` was removed in front of `[1, 2, 3]`, then `[2, 3]`
is reversed.  The permutation of the original list leaves `1` in front, the
sub-change looks for it behind `3`. -/
theorem removed_front_not_replayable :
    Recording.records [.remove 0] ⟨[1, 2, 3], (new : ListChangeBuilder Nat).beginChange⟩ =
        .done ⟨[2, 3], ⟨1, some [⟨0, 0, some [1], [], false⟩], none, none, []⟩⟩ ∧
      Replays [1, 2, 3] [2, 3]
        (⟨1, some [⟨0, 0, some [1], [], false⟩], none, none, []⟩ : ListChangeBuilder Nat) ∧
      ∃ b', nextPermutation 0 2 [1, 0] 2
          (⟨1, some [⟨0, 0, some [1], [], false⟩], none, none, []⟩ : ListChangeBuilder Nat) = .done b' ∧
        ¬ Replays [1, 2, 3] (permuteRange 0 [1, 0] [2, 3]) b' := by
  refine ⟨by decide, ⟨by decide, by decide, by decide, by decide⟩,
    ⟨1, some [⟨1, 1, some [1], [], false⟩], none, some ⟨0, 3, none, [0, 2, 1], false⟩, []⟩,
    by decide, ?_⟩
  intro h
  exact absurd h.replay (by decide)

end Replay

end ListChangeBuilder
end OpenJfx.Collections
