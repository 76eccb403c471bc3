import OpenJfx.Geometry.RegionHeap

/-! # No dirty region is lost

A region is covered when one of the regions in use contains it.  Merging keeps
every region inside the region its index resolves to, the compaction keeps the
regions that are their own target, and at least one slot is free afterwards. -/
set_option autoImplicit false
namespace OpenJfx.Geometry.DirtyRegionContainer

open RectBounds

variable {F : Type} [LinearOrder F] {unionArea : RectBounds F → Int}

theorem unifiedRegionArea_ok {dirtyRegions : List (RectBounds F)} {i0 i1 : Nat} {b0 b1 : RectBounds F}
    (h0 : dirtyRegions[i0]? = some b0) (h1 : dirtyRegions[i1]? = some b1) :
    ∃ area, unifiedRegionArea unionArea dirtyRegions i0 i1 = .ok area := by
  unfold unifiedRegionArea
  simp only [readSlot_of_getElem? h0, readSlot_of_getElem? h1, ok_bind, pure_eq_ok]
  exact ⟨_, rfl⟩

/-! ## Linking -/

/-- After `m` mergings of `n` regions every index resolves. -/
structure Linked (n m : Nat) (s : Merging F) : Prop where
  regions : s.dirtyRegions.length = n
  map : s.map.length = n
  resolves : ∀ idx, idx < n → ∃ r, resolveMap s.map (m + 1) idx = .ok r ∧ r < n

/-- What a round does: nothing is merged, or one current region is merged into another. -/
def Links (s s' : Merging F) : Prop :=
  s'.dirtyRegions = s.dirtyRegions ∧ s'.map = s.map ∨
    ∃ idx0 idx1 r0 r1, idx0 ≠ idx1 ∧ s.map[idx0]? = some idx0 ∧ s.map[idx1]? = some idx1 ∧
      s.dirtyRegions[idx0]? = some r0 ∧ s.dirtyRegions[idx1]? = some r1 ∧
      s'.dirtyRegions = s.dirtyRegions.set idx0 (r0.unionWith r1) ∧ s'.map = s.map.set idx1 idx0

section Linking
variable {n m : Nat} {s : Merging F}

omit [LinearOrder F] in
theorem Linked.resolve (h : Linked n m s) (few : m ≤ n) {idx : Nat} (inside : idx < n) :
    ∃ r b, resolveMap s.map (s.map.length + 1) idx = .ok r ∧ s.dirtyRegions[r]? = some b ∧ s.map[r]? = some r := by
  obtain ⟨r, hresolve, hr⟩ := h.resolves idx inside
  have hmore := resolveMap_mono hresolve (by rw [h.map]; omega : m + 1 ≤ s.map.length + 1)
  exact ⟨r, _, hmore, List.getElem?_eq_getElem (by rw [h.regions]; exact hr), resolveMap_root hmore⟩

theorem Linked.exists_computes (unionArea : RectBounds F → Int) (h : Linked n m s) (few : m ≤ n) :
    ∃ target, Computes unionArea s.dirtyRegions s.map n target := by
  have each : ∀ first second, ∃ area, first < n → second < n →
      ∃ i0 i1, resolveMap s.map (s.map.length + 1) first = .ok i0 ∧
        resolveMap s.map (s.map.length + 1) second = .ok i1 ∧
        unifiedRegionArea unionArea s.dirtyRegions i0 i1 = .ok area := by
    intro first second
    by_cases inside : first < n ∧ second < n
    · obtain ⟨i0, b0, hi0, hb0, -⟩ := h.resolve few inside.1
      obtain ⟨i1, b1, hi1, hb1, -⟩ := h.resolve few inside.2
      obtain ⟨area, harea⟩ := @unifiedRegionArea_ok F _ unionArea _ _ _ _ _ hb0 hb1
      exact ⟨area, fun _ _ => ⟨i0, i1, hi0, hi1, harea⟩⟩
    · exact ⟨0, fun h1 h2 => absurd ⟨h1, h2⟩ inside⟩
  choose target htarget using each
  exact ⟨target, fun first second h1 h2 => htarget first second h1 h2⟩

theorem identity_resolves {map : List Nat} {n fuel idx r : Nat} (identity : map = List.range n) (inside : idx < n)
    (h : resolveMap map fuel idx = .ok r) : r = idx := by
  have hroot : map[idx]? = some idx := by rw [identity]; simp [inside]
  have hself := resolveMap_mono (resolveMap_of_root hroot 0) (by omega : 1 ≤ fuel + 1)
  have hmore := resolveMap_mono h (by omega : fuel ≤ fuel + 1)
  rw [hself] at hmore
  exact (Except.ok.inj hmore).symm

theorem Links.resolves {s' : Merging F} (h : Links s s') {fuel idx r : Nat} (hresolve : resolveMap s.map fuel idx = .ok r) :
    ∃ r', resolveMap s'.map (fuel + 1) idx = .ok r' ∧ (r' = r ∨ s.map[r']? = some r') := by
  rcases h with ⟨-, hmap⟩ | ⟨idx0, idx1, r0, r1, apart, root0, root1, -, -, -, hmap⟩
  · rw [hmap]
    exact ⟨r, resolveMap_mono hresolve (Nat.le_succ fuel), Or.inl rfl⟩
  · rw [hmap]
    refine ⟨_, resolveMap_link root0 root1 apart hresolve, ?_⟩
    split
    · exact Or.inr root0
    · exact Or.inl rfl

theorem Links.not_root {s' : Merging F} (h : Links s s') {p : Nat} (hp : s.map[p]? ≠ some p) : s'.map[p]? ≠ some p := by
  rcases h with ⟨-, hmap⟩ | ⟨idx0, idx1, r0, r1, apart, -, root1, -, -, -, hmap⟩
  · rw [hmap]
    exact hp
  · rw [hmap]
    by_cases linked : idx1 = p
    · subst linked
      exact absurd root1 hp
    · rw [List.getElem?_set_ne linked]
      exact hp

theorem mergePair_links (h : Linked n m s) (few : m ≤ n) (heap : HeapOk n s.heap s.entries)
    (size : s.heapSize ≤ s.heap.length) (some_left : 0 < s.heapSize) :
    ∃ s', mergePair unionArea s = .ok s' ∧ Links s s' ∧ Linked n (m + 1) s' ∧ HeapOk n s'.heap s'.entries ∧
      s'.heap.length = s.heap.length ∧ s'.heapSize = s.heapSize - 1 ∧
      (s.map = List.range n → ∃ p : Nat, p < n ∧ s'.map[p]? ≠ some p) := by
  obtain ⟨target, computes⟩ := h.exists_computes unionArea few
  obtain ⟨min, heap', entries', htake, hok, hlen, order, inside⟩ :=
    @takeMinWithMap_spec _ _ F _ unionArea _ _ s.invalidMask target _ _ computes heap size some_left
  obtain ⟨idx0, r0, hidx0, hr0, root0⟩ := h.resolve few (by omega : min.first < n)
  obtain ⟨idx1, r1, hidx1, hr1, root1⟩ := h.resolve few inside
  unfold mergePair
  rw [htake]
  simp only [ok_bind, hidx0, hidx1]
  by_cases same : idx0 = idx1
  · rw [if_pos same]
    refine ⟨_, rfl, Or.inl ⟨rfl, rfl⟩, ⟨h.regions, h.map, fun idx hidx => ?_⟩, hok, hlen, rfl, fun identity => ?_⟩
    · obtain ⟨r, hresolve, hr⟩ := h.resolves idx hidx
      exact ⟨r, resolveMap_mono hresolve (by omega), hr⟩
    · have hfirst := identity_resolves identity (by omega : min.first < n) hidx0
      have hsecond := identity_resolves identity inside hidx1
      omega
  · rw [if_neg same]
    have hin0 : idx0 < s.dirtyRegions.length := (List.getElem?_eq_some_iff.mp hr0).1
    have hin1 : idx1 < s.map.length := (List.getElem?_eq_some_iff.mp root1).1
    simp only [readSlot_of_getElem? hr0, readSlot_of_getElem? hr1, ok_bind, writeSlot_eq hin0, writeSlot_eq hin1,
      pure_eq_ok]
    have hlinks : Links s { s with
        dirtyRegions := s.dirtyRegions.set idx0 (r0.unionWith r1)
        map := s.map.set idx1 idx0
        invalidMask := s.invalidMask ||| bit idx0 ||| bit idx1
        heapSize := s.heapSize - 1
        heap := heap'
        entries := entries' } := Or.inr ⟨idx0, idx1, r0, r1, same, root0, root1, hr0, hr1, rfl, rfl⟩
    refine ⟨_, rfl, hlinks, ⟨by simp [h.regions], by simp [h.map], fun idx hidx => ?_⟩, hok, hlen, rfl, fun _ => ?_⟩
    · obtain ⟨r, hresolve, hr⟩ := h.resolves idx hidx
      obtain ⟨r', hresolve', hr'⟩ := hlinks.resolves hresolve
      refine ⟨r', hresolve', ?_⟩
      rcases hr' with rfl | hroot
      · exact hr
      · rw [← h.map]
        exact (List.getElem?_eq_some_iff.mp hroot).1
    · refine ⟨idx1, by rw [← h.map]; exact hin1, ?_⟩
      show (s.map.set idx1 idx0)[idx1]? ≠ some idx1
      rw [List.getElem?_set_self hin1]
      simpa using same

theorem mergePairs_links {inv : Nat → Merging F → Prop} (keeps : ∀ m s s', inv m s → Links s s' → inv (m + 1) s')
    (rounds : Nat) (hinv : inv m s) (h : Linked n m s) (few : m + rounds ≤ n) (heap : HeapOk n s.heap s.entries)
    (size : s.heapSize ≤ s.heap.length) (enough : rounds ≤ s.heapSize)
    (merged : ∃ p : Nat, p < n ∧ s.map[p]? ≠ some p) :
    ∃ s', mergePairs unionArea rounds s = .ok s' ∧ inv (m + rounds) s' ∧ Linked n (m + rounds) s' ∧
      HeapOk n s'.heap s'.entries ∧ s'.heap.length = s.heap.length ∧ ∃ p : Nat, p < n ∧ s'.map[p]? ≠ some p := by
  induction rounds generalizing m s with
  | zero => exact ⟨s, rfl, hinv, h, heap, rfl, merged⟩
  | succ rounds ih =>
    obtain ⟨s1, hpair, hlinks, h1, heap1, hlen1, hsize1, -⟩ :=
      @mergePair_links F _ unionArea n m s h (by omega) heap size (by omega)
    obtain ⟨p, hp, hnot⟩ := merged
    obtain ⟨s2, hpairs, hinv2, h2, heap2, hlen2, merged2⟩ := ih (keeps m s s1 hinv hlinks) h1 (by omega) heap1 (by omega)
      (by omega) ⟨p, hp, hlinks.not_root hnot⟩
    have hrounds : m + (rounds + 1) = m + 1 + rounds := by omega
    rw [hrounds]
    refine ⟨s2, ?_, hinv2, h2, heap2, hlen2.trans hlen1, merged2⟩
    simp only [mergePairs, hpair, ok_bind]
    exact hpairs

end Linking

/-! ## Merging -/

structure Merged (old : List (RectBounds F)) (m : Nat) (s : Merging F) : Prop where
  regions : s.dirtyRegions.length = old.length
  map : s.map.length = old.length
  nonempty : ∀ b ∈ s.dirtyRegions, b.isEmpty = false
  resolves : ∀ idx o, old[idx]? = some o →
    ∃ r b, resolveMap s.map (m + 1) idx = .ok r ∧ s.dirtyRegions[r]? = some b ∧ Within o b

section Merging
variable {old : List (RectBounds F)} {m : Nat} {s : Merging F}

theorem Merged.links {s' : Merging F} (h : Merged old m s) (hlinks : Links s s') : Merged old (m + 1) s' := by
  rcases hlinks with ⟨hregions, hmap⟩ | ⟨idx0, idx1, r0, r1, same, root0, root1, hr0, hr1, hregions, hmap⟩
  · refine ⟨by rw [hregions]; exact h.regions, by rw [hmap]; exact h.map, by rw [hregions]; exact h.nonempty, ?_⟩
    intro idx o ho
    obtain ⟨r, b, hresolve, hb, within⟩ := h.resolves idx o ho
    exact ⟨r, b, by rw [hmap]; exact resolveMap_mono hresolve (by omega), by rw [hregions]; exact hb, within⟩
  · have hin0 : idx0 < s.dirtyRegions.length := (List.getElem?_eq_some_iff.mp hr0).1
    obtain ⟨within0, within1, neUnion⟩ := union_spec (h.nonempty r0 (List.mem_of_getElem? hr0))
      (h.nonempty r1 (List.mem_of_getElem? hr1))
    refine ⟨by rw [hregions, List.length_set]; exact h.regions, by rw [hmap, List.length_set]; exact h.map, ?_, ?_⟩
    · intro b hb
      rw [hregions] at hb
      rcases List.mem_or_eq_of_mem_set hb with hb | rfl
      · exact h.nonempty b hb
      · exact neUnion
    · intro idx o ho
      obtain ⟨r, b, hresolve, hb, within⟩ := h.resolves idx o ho
      have hlink := resolveMap_link root0 root1 same hresolve
      rw [hmap, hregions]
      by_cases moved : r = idx1
      · rw [if_pos moved] at hlink
        rw [moved, hr1] at hb
        cases hb
        exact ⟨idx0, _, hlink, List.getElem?_set_self hin0, within.trans within1⟩
      · rw [if_neg moved] at hlink
        by_cases grown : idx0 = r
        · rw [← grown, hr0] at hb
          cases hb
          exact ⟨r, _, hlink, by rw [← grown]; exact List.getElem?_set_self hin0, within.trans within0⟩
        · exact ⟨r, b, hlink, by rw [List.getElem?_set_ne grown]; exact hb, within⟩

end Merging

/-! ## The compaction -/

section Compaction
variable {map : List Nat}

theorem dropUnused_spec (emptyIndex : Nat) (inside : emptyIndex ≤ map.length) {p : Nat} (hp : p < emptyIndex)
    (root : map[p]? = some p) :
    ∃ e, dropUnused map emptyIndex = .ok e ∧ p < e ∧ e ≤ emptyIndex ∧ map[e - 1]? = some (e - 1) ∧
      ∀ q, e ≤ q → q < emptyIndex → map[q]? ≠ some q := by
  induction emptyIndex with
  | zero => omega
  | succ emptyIndex ih =>
    have hread := readSlot_eq (by omega : emptyIndex < map.length)
    unfold dropUnused
    simp only [hread, ok_bind]
    by_cases here : map[emptyIndex] = emptyIndex
    · rw [if_pos here]
      refine ⟨emptyIndex + 1, rfl, hp, le_rfl, ?_, fun q h1 h2 => by omega⟩
      rw [Nat.add_sub_cancel, List.getElem?_eq_getElem (by omega), here]
    · rw [if_neg here]
      have notHere : map[emptyIndex]? ≠ some emptyIndex := by
        rw [List.getElem?_eq_getElem (by omega)]
        simpa using here
      have hne : p ≠ emptyIndex := by
        intro same
        rw [same] at root
        exact notHere root
      obtain ⟨e, hdrop, hpe, hle, hroot, hrest⟩ := ih (by omega) (by omega)
      refine ⟨e, hdrop, hpe, by omega, hroot, fun q h1 h2 => ?_⟩
      by_cases last : q = emptyIndex
      · rw [last]
        exact notHere
      · exact hrest q h1 (by omega)

/-- The compaction keeps every region that is its own target, and fewer regions
are in use afterwards unless each of them was. -/
theorem compact_spec {α : Type} (fuel i emptyIndex : Nat) (map : List Nat) (regions : List (RectBounds α))
    (sameLength : map.length = regions.length) (inside : emptyIndex ≤ map.length)
    (enough : emptyIndex < fuel + i) (hi : i ≤ emptyIndex ∨ 0 < fuel)
    (front : ∀ p < i, p < emptyIndex → map[p]? = some p) (some_root : ∃ p < emptyIndex, map[p]? = some p) :
    ∃ e regions', compact fuel i emptyIndex map regions = .ok (e, regions') ∧ e ≤ emptyIndex ∧
      regions'.length = regions.length ∧ (∀ b ∈ regions', b ∈ regions) ∧
      (∀ p < emptyIndex, map[p]? = some p → ∃ q < e, regions'[q]? = regions[p]?) ∧
      (e < emptyIndex ∨ ∀ p < emptyIndex, map[p]? = some p) := by
  induction fuel generalizing i emptyIndex map regions with
  | zero => omega
  | succ fuel ih =>
    unfold compact
    by_cases more : i < emptyIndex
    · rw [if_pos more]
      simp only [readSlot_eq (by omega : i < map.length), ok_bind]
      by_cases root : map[i] = i
      · rw [if_pos root]
        refine ih (i + 1) emptyIndex map regions sameLength inside (by omega) (by omega) ?_ some_root
        intro p hp hpe
        by_cases last : p = i
        · rw [last, List.getElem?_eq_getElem (by omega), root]
        · exact front p (by omega) hpe
      · rw [if_neg root]
        have notRoot : map[i]? ≠ some i := by
          rw [List.getElem?_eq_getElem (by omega)]
          simpa using root
        obtain ⟨p0, hp0, root0⟩ := some_root
        obtain ⟨e1, hdrop, hpe1, hle, hlast, hrest⟩ := dropUnused_spec emptyIndex inside hp0 root0
        have below : ∀ p < emptyIndex, map[p]? = some p → p < e1 := by
          intro p hp hroot
          by_contra notBelow
          exact hrest p (by omega) hp hroot
        have notLast : i ≠ e1 - 1 := by
          intro same
          rw [same] at notRoot
          exact notRoot hlast
        simp only [hdrop, ok_bind]
        by_cases move : i < e1 - 1
        · -- the last region in use takes the place of the unused one
          obtain ⟨regions1, hswap, hlen1, hfirst, hsecond, hother, hsub1⟩ :=
            @swapSlots_spec _ regions (e1 - 1) i (by omega) (by omega)
          have hroot1 : (map.set i i)[i]? = some i := List.getElem?_set_self (by omega)
          rw [if_pos move]
          simp only [hswap, ok_bind, writeSlot_eq (by omega : i < map.length)]
          obtain ⟨e, regions', hcompact, hee, hlen, hsub, hkeep, -⟩ :=
            ih (i + 1) (e1 - 1) (map.set i i) regions1 (by simp [sameLength, hlen1])
              (by rw [List.length_set]; omega) (by omega) (by omega) (fun p hp hpe => by
                by_cases last : p = i
                · rw [last]; exact hroot1
                · rw [List.getElem?_set_ne (Ne.symm last)]; exact front p (by omega) (by omega))
              ⟨i, move, hroot1⟩
          refine ⟨e, regions', hcompact, by omega, hlen.trans hlen1, fun b hb => hsub1 b (hsub b hb), ?_,
            Or.inl (by omega)⟩
          intro p hp hroot
          have hpe := below p hp hroot
          by_cases last : p = e1 - 1
          · obtain ⟨q, hq, hregion⟩ := hkeep i move hroot1
            exact ⟨q, hq, by rw [hregion, hsecond, last]⟩
          · have hpi : p ≠ i := by
              intro same
              rw [same] at hroot
              exact notRoot hroot
            obtain ⟨q, hq, hregion⟩ := hkeep p (by omega) (by rw [List.getElem?_set_ne (Ne.symm hpi)]; exact hroot)
            exact ⟨q, hq, by rw [hregion, hother p last hpi]⟩
        · rw [if_neg move]
          obtain ⟨e, regions', hcompact, hee, hlen, hsub, hkeep, -⟩ :=
            ih (i + 1) e1 map regions sameLength (by omega) (by omega) (by omega)
              (fun p hp hpe => front p (by omega) (by omega)) ⟨p0, hpe1, root0⟩
          exact ⟨e, regions', hcompact, by omega, hlen, hsub,
            fun p hp hroot => hkeep p (below p hp hroot) hroot, Or.inl (by omega)⟩
    · rw [if_neg more]
      exact ⟨emptyIndex, regions, rfl, le_rfl, rfl, fun _ => id, fun p hp _ => ⟨p, hp, rfl⟩,
        Or.inr fun p hp => front p (by omega) hp⟩

end Compaction

/-! ## The compression -/

section Compress

theorem indexPairs_length (n : Nat) : (indexPairs n).length = n * (n - 1) / 2 := by
  have sum : ∀ m ≤ n, 2 * ((List.range m).map (fun i => n - (i + 1))).sum + m * (m + 1) = 2 * (n * m) := by
    intro m
    induction m with
    | zero => simp
    | succ m ih =>
      intro hm
      have hih := ih (by omega)
      have hring : (m + 1) * (m + 1 + 1) = m * (m + 1) + 2 * (m + 1) := by ring
      have hring' : n * (m + 1) = n * m + n := by ring
      rw [List.range_succ, List.map_append, List.sum_append, hring, hring']
      simp only [List.map_cons, List.map_nil, List.sum_cons, List.sum_nil]
      omega
  have hlen : (indexPairs n).length = ((List.range (n - 1)).map (fun i => n - (i + 1))).sum := by
    simp [indexPairs, List.length_flatMap]
  have htotal := sum (n - 1) (by omega)
  rw [hlen]
  cases n with
  | zero => rfl
  | succ n =>
    simp only [Nat.add_sub_cancel] at htotal ⊢
    have hring : (n + 1) * n = n * (n + 1) := by ring
    rw [hring] at htotal ⊢
    omega

theorem indexPairs_order {n i j : Nat} (h : (i, j) ∈ indexPairs n) : i < j ∧ j < n := by
  simp only [indexPairs, List.mem_flatMap, List.mem_range, List.mem_map, Prod.mk.injEq] at h
  obtain ⟨i', hi', j', hj', rfl, rfl⟩ := h
  omega

/-- The slot `q` shows an entry of two different regions. -/
def SlotOk (n : Nat) (heap : List Nat) (entries : List HeapEntry) (q : Nat) : Prop :=
  ∀ ref, heap[q]? = some ref → ∃ e, entries[ref]? = some e ∧ e.first < e.second ∧ e.second < n

theorem fillHeap_spec {dirtyRegions : List (RectBounds F)} {heap : List Nat} (pairs : List (Nat × Nat)) (k : Nat)
    (entries : List HeapEntry) (order : ∀ i j, (i, j) ∈ pairs → i < j ∧ j < dirtyRegions.length)
    (refs : ∀ ref ∈ heap, ref < entries.length) (space : k + pairs.length ≤ heap.length)
    (done : ∀ q < k, SlotOk dirtyRegions.length heap entries q) :
    ∃ entries', fillHeap unionArea dirtyRegions heap pairs k entries = .ok entries' ∧
      entries'.length = entries.length ∧
      ∀ q < k + pairs.length, SlotOk dirtyRegions.length heap entries' q := by
  induction pairs generalizing k entries with
  | nil => exact ⟨entries, rfl, rfl, by simpa using done⟩
  | cons pair pairs ih =>
    obtain ⟨i, j⟩ := pair
    obtain ⟨hij, hj⟩ := order i j (by simp)
    simp only [List.length_cons] at space
    have hk : k < heap.length := by omega
    have href : heap[k] < entries.length := refs heap[k] (List.getElem_mem hk)
    obtain ⟨area, harea⟩ := @unifiedRegionArea_ok F _ unionArea dirtyRegions i j _ _
      (List.getElem?_eq_getElem (by omega)) (List.getElem?_eq_getElem hj)
    have done' : ∀ q < k + 1, SlotOk dirtyRegions.length heap (entries.set heap[k] ⟨area, i, j⟩) q := by
      intro q hq ref hqref
      by_cases same : heap[k] = ref
      · exact ⟨⟨area, i, j⟩, by rw [← same]; exact List.getElem?_set_self href, hij, hj⟩
      · have hqk : q ≠ k := by
          intro heq
          rw [heq, List.getElem?_eq_getElem hk] at hqref
          exact same (Option.some.inj hqref)
        rw [List.getElem?_set_ne same]
        exact done q (by omega) ref hqref
    obtain ⟨entries', hfill, hlen, hok⟩ := ih (k + 1) (entries.set heap[k] ⟨area, i, j⟩)
      (fun i j h => order i j (by simp [h])) (by simpa using refs) (by omega) done'
    refine ⟨entries', ?_, by simpa using hlen, fun q hq => hok q (by simp only [List.length_cons] at hq; omega)⟩
    simp only [fillHeap, harea, ok_bind, readSlot_eq hk, writeSlot_eq href]
    exact hfill

/-- The heap of a container: absent, or with a slot for each pair. -/
def HeapShape (c : DirtyRegionContainer F) : Prop :=
  ∀ heap, c.heap = some heap →
    heap.length = c.dirtyRegions.length * (c.dirtyRegions.length - 1) / 2 ∧ ∀ ref ∈ heap, ref < c.entries.length

omit [LinearOrder F] in
theorem HeapShape.allocateHeap {c : DirtyRegionContainer F} (h : HeapShape c) :
    c.allocateHeap.1.length = c.dirtyRegions.length * (c.dirtyRegions.length - 1) / 2 ∧
      ∀ ref ∈ c.allocateHeap.1, ref < c.allocateHeap.2.length := by
  unfold DirtyRegionContainer.allocateHeap
  cases hheap : c.heap with
  | some heap => exact h heap hheap
  | none => simp

/-- The compression of a full container: it keeps what the rounds of the merging keep, and the
compaction leaves the regions that are their own target. -/
theorem compressHeap_runs {c : DirtyRegionContainer F} (large : 2 ≤ c.dirtyRegions.length)
    (full : c.emptyIndex = c.dirtyRegions.length) (shape : HeapShape c) {inv : Nat → Merging F → Prop}
    (keeps : ∀ m s s', inv m s → Links s s' → inv (m + 1) s')
    (start : ∀ heap entries, inv 0 ⟨c.dirtyRegions, List.range c.dirtyRegions.length, 0, heap.length, heap, entries⟩) :
    ∃ m s e regions', compressHeap unionArea c = .ok ⟨regions', e, some s.heap, s.entries⟩ ∧ inv m s ∧
      Linked c.dirtyRegions.length m s ∧ m ≤ c.dirtyRegions.length ∧ e < c.dirtyRegions.length ∧
      regions'.length = c.dirtyRegions.length ∧ (∀ b ∈ regions', b ∈ s.dirtyRegions) ∧
      (∀ p < c.dirtyRegions.length, s.map[p]? = some p → ∃ q < e, regions'[q]? = s.dirtyRegions[p]?) ∧
      HeapShape (⟨regions', e, some s.heap, s.entries⟩ : DirtyRegionContainer F) := by
  obtain ⟨hlen, hrefs⟩ := shape.allocateHeap
  obtain ⟨heap0, entries0, hallocate⟩ : ∃ heap entries, c.allocateHeap = (heap, entries) := ⟨_, _, rfl⟩
  rw [hallocate] at hlen hrefs
  dsimp only at hlen hrefs
  obtain ⟨n, hn⟩ : ∃ n, n = c.dirtyRegions.length := ⟨_, rfl⟩
  rw [← hn] at hlen
  have hpairs : n / 2 ≤ n * (n - 1) / 2 := by
    apply Nat.div_le_div_right
    calc n = n * 1 := (Nat.mul_one n).symm
      _ ≤ n * (n - 1) := Nat.mul_le_mul_left n (by omega)
  obtain ⟨entries1, hfill, helen, hslots⟩ := @fillHeap_spec F _ unionArea c.dirtyRegions heap0
    (indexPairs n) 0 entries0 (fun i j h => hn ▸ indexPairs_order h) hrefs
    (by rw [indexPairs_length, hlen]; omega) (fun q hq => by omega)
  have hok1 : HeapOk n heap0 entries1 := by
    constructor
    intro ref hmem
    obtain ⟨q, hq, hget⟩ := List.getElem_of_mem hmem
    rw [hn]
    exact hslots q (by rw [indexPairs_length, ← hlen]; omega) ref (by rw [List.getElem?_eq_getElem hq, hget])
  obtain ⟨heap2, hheapify, hlen2, hsub2⟩ := heapify_spec (heap0.length / 2) heap0 hok1 le_rfl
    (Nat.div_le_self _ _)
  have hok2 := hok1.of_subset hsub2
  -- the first pair is merged, whatever it is
  obtain ⟨rounds, hrounds⟩ : ∃ rounds, n / 2 = rounds + 1 := ⟨n / 2 - 1, by omega⟩
  have linked : Linked n 0 (⟨c.dirtyRegions, List.range n, 0, heap2.length, heap2, entries1⟩ : Merging F) :=
    ⟨hn.symm, by simp, fun idx hidx => ⟨idx, resolveMap_of_root (by simp [hidx]) 0, hidx⟩⟩
  obtain ⟨s1, hpair, hlinks, linked1, heapOk1, hheap1, hsize1, hfirst⟩ := @mergePair_links F _ unionArea _ _ _ linked
    (Nat.zero_le _) hok2 le_rfl (by show 0 < heap2.length; omega)
  change s1.heap.length = heap2.length at hheap1
  change s1.heapSize = heap2.length - 1 at hsize1
  have hinv1 := keeps 0 _ s1 (start heap2 entries1) (hn ▸ hlinks)
  obtain ⟨s2, hpairs2, hinv2, linked2, heapOk2, hheap2, p, hp, hnot⟩ := @mergePairs_links F _ unionArea _ _ _ inv keeps
    rounds hinv1 linked1 (by omega) heapOk1 (by omega) (by omega) (hfirst rfl)
  obtain ⟨r0, b0, hr0, hb0, hroot0⟩ := linked2.resolve (by omega) (by omega : 0 < n)
  have hr0n : r0 < n := by rw [← linked2.map]; exact (List.getElem?_eq_some_iff.mp hroot0).1
  obtain ⟨e, regions', hcompact, hle, hlen', hsub', hkeep, hfewer⟩ := compact_spec (n + 1) 0 c.emptyIndex s2.map
    s2.dirtyRegions (by rw [linked2.map, linked2.regions]) (by rw [linked2.map]; omega) (by omega) (by omega)
    (fun p hp => by omega) ⟨r0, by omega, hroot0⟩
  rw [← hn]
  refine ⟨0 + 1 + rounds, s2, e, regions', ?_, hinv2, linked2, by omega, ?_, hlen'.trans linked2.regions, hsub',
    fun p hp => hkeep p (by omega), ?_⟩
  · unfold compressHeap
    rw [hallocate, ← hn]
    simp only [hfill, ok_bind, hheapify, hrounds, mergePairs, hpair, hpairs2, hcompact, pure_eq_ok]
  · rcases hfewer with fewer | all
    · omega
    · exact absurd (all p (by omega)) hnot
  · intro heap hheap
    cases hheap
    refine ⟨?_, fun ref hmem => ?_⟩
    · show s2.heap.length = regions'.length * (regions'.length - 1) / 2
      rw [hheap2, hheap1, hlen2, hlen, hlen', linked2.regions]
    · obtain ⟨entry, hentry, -⟩ := heapOk2.entry ref hmem
      exact (List.getElem?_eq_some_iff.mp hentry).1

theorem compressHeap_spec {c : DirtyRegionContainer F} (large : 2 ≤ c.dirtyRegions.length)
    (full : c.emptyIndex = c.dirtyRegions.length) (nonempty : ∀ b ∈ c.dirtyRegions, b.isEmpty = false)
    (shape : HeapShape c) :
    ∃ c', compressHeap unionArea c = .ok c' ∧ c'.dirtyRegions.length = c.dirtyRegions.length ∧
      c'.emptyIndex < c.dirtyRegions.length ∧ (∀ b ∈ c'.dirtyRegions, b.isEmpty = false) ∧ HeapShape c' ∧
      ∀ b ∈ c.dirtyRegions, ∃ b' ∈ c'.regions, Within b b' := by
  have start : ∀ heap entries, Merged c.dirtyRegions 0
      (⟨c.dirtyRegions, List.range c.dirtyRegions.length, 0, heap.length, heap, entries⟩ : Merging F) := by
    intro heap entries
    refine ⟨rfl, by simp, nonempty, fun idx o ho => ?_⟩
    have inside : idx < c.dirtyRegions.length := (List.getElem?_eq_some_iff.mp ho).1
    exact ⟨idx, o, resolveMap_of_root (by simp [inside]) 0, ho, Within.refl o⟩
  obtain ⟨m, s, e, regions', hcompress, merged, -, -, hfree, hlen, hsub, hkeep, hshape⟩ :=
    @compressHeap_runs F _ unionArea c large full shape _ (fun _ _ _ h hlinks => h.links hlinks) start
  refine ⟨_, hcompress, hlen, hfree, fun b hb => merged.nonempty b (hsub b hb), hshape, fun b hb => ?_⟩
  obtain ⟨idx, hidx, rfl⟩ := List.getElem_of_mem hb
  obtain ⟨r, b', hresolve, hb', within⟩ := merged.resolves idx _ (List.getElem?_eq_getElem hidx)
  have hroot := resolveMap_root hresolve
  have hr : r < c.dirtyRegions.length := by rw [← merged.map]; exact (List.getElem?_eq_some_iff.mp hroot).1
  obtain ⟨q, hq, hregion⟩ := hkeep r hr hroot
  rw [hb'] at hregion
  refine ⟨b', ?_, within⟩
  show b' ∈ regions'.take e
  exact List.mem_of_getElem? (by rw [List.getElem?_take_of_lt hq]; exact hregion)

end Compress

/-! ## Adding a region -/

section Add

omit [LinearOrder F] in
theorem mem_take_iff {b : RectBounds F} {l : List (RectBounds F)} {n : Nat} :
    b ∈ l.take n ↔ ∃ q < n, l[q]? = some b := by
  constructor
  · intro h
    obtain ⟨q, hq⟩ := List.getElem?_of_mem h
    by_cases inside : q < n
    · exact ⟨q, inside, by rw [List.getElem?_take_of_lt inside] at hq; exact hq⟩
    · rw [List.getElem?_take_eq_none (by omega)] at hq
      cases hq
  · rintro ⟨q, hq, hget⟩
    exact List.mem_of_getElem? (by rw [List.getElem?_take_of_lt hq]; exact hget)

/-- What the loop of `addDirtyRegion` leaves: every region in use is in the new
one or still in use. -/
structure Absorbed (region : RectBounds F) (dirtyRegions : List (RectBounds F)) (emptyIndex : Nat)
    (region' : RectBounds F) (dirtyRegions' : List (RectBounds F)) (emptyIndex' : Nat) : Prop where
  fewer : emptyIndex' ≤ emptyIndex
  length : dirtyRegions'.length = dirtyRegions.length
  nonempty : region'.isEmpty = false
  within : Within region region'
  covered : ∀ b ∈ dirtyRegions.take emptyIndex, Within b region' ∨ b ∈ dirtyRegions'.take emptyIndex'
  old : ∀ b ∈ dirtyRegions'.take emptyIndex', b ∈ dirtyRegions.take emptyIndex

theorem absorb_spec (rounds tempIndex : Nat) (region : RectBounds F) (dirtyRegions : List (RectBounds F))
    (emptyIndex : Nat) (counted : tempIndex + rounds = emptyIndex) (inside : emptyIndex ≤ dirtyRegions.length)
    (nonempty : region.isEmpty = false) (regionsNonempty : ∀ b ∈ dirtyRegions.take emptyIndex, b.isEmpty = false) :
    ∃ region' dirtyRegions' emptyIndex', absorb rounds tempIndex region dirtyRegions emptyIndex
        = .ok (region', dirtyRegions', emptyIndex') ∧
      Absorbed region dirtyRegions emptyIndex region' dirtyRegions' emptyIndex' := by
  induction rounds generalizing tempIndex region dirtyRegions emptyIndex with
  | zero =>
    exact ⟨region, dirtyRegions, emptyIndex, rfl, le_rfl, rfl, nonempty, Within.refl region, fun b => Or.inr,
      fun b => id⟩
  | succ rounds ih =>
    have htemp : tempIndex < dirtyRegions.length := by omega
    unfold absorb
    simp only [readSlot_eq htemp, ok_bind]
    by_cases meets : region.intersects dirtyRegions[tempIndex] = true
    · rw [if_pos meets, if_neg (by omega)]
      obtain ⟨swapped, hswap, hlen, hatTemp, hatLast, hother, -⟩ :=
        @swapSlots_spec _ dirtyRegions tempIndex (emptyIndex - 1) htemp (by omega)
      have drNonempty : dirtyRegions[tempIndex].isEmpty = false := by
        apply regionsNonempty
        exact mem_take_iff.mpr ⟨tempIndex, by omega, List.getElem?_eq_getElem htemp⟩
      obtain ⟨within1, within2, unionNonempty⟩ := union_spec nonempty drNonempty
      have kept : ∀ b ∈ swapped.take (emptyIndex - 1), b ∈ dirtyRegions.take emptyIndex := by
        intro b hb
        obtain ⟨q, hq, hget⟩ := mem_take_iff.mp hb
        by_cases here : q = tempIndex
        · rw [here, hatTemp] at hget
          exact mem_take_iff.mpr ⟨emptyIndex - 1, by omega, hget⟩
        · rw [hother q here (by omega)] at hget
          exact mem_take_iff.mpr ⟨q, by omega, hget⟩
      obtain ⟨region', dirtyRegions', emptyIndex', habsorb, h⟩ := ih tempIndex _ swapped (emptyIndex - 1)
        (by omega) (by omega) unionNonempty (fun b hb => regionsNonempty b (kept b hb))
      simp only [hswap, ok_bind]
      refine ⟨region', dirtyRegions', emptyIndex', habsorb, ?_⟩
      refine ⟨by have := h.fewer; omega, h.length.trans hlen, h.nonempty, within1.trans h.within, ?_,
        fun b hb => kept b (h.old b hb)⟩
      intro b hb
      obtain ⟨q, hq, hget⟩ := mem_take_iff.mp hb
      by_cases here : q = tempIndex
      · left
        rw [here, List.getElem?_eq_getElem htemp] at hget
        cases hget
        exact within2.trans h.within
      · apply h.covered
        by_cases last : q = emptyIndex - 1
        · exact mem_take_iff.mpr ⟨tempIndex, by omega, by rw [hatTemp, ← last]; exact hget⟩
        · exact mem_take_iff.mpr ⟨q, by omega, by rw [hother q here last]; exact hget⟩
    · rw [if_neg meets]
      exact ih (tempIndex + 1) region dirtyRegions emptyIndex (by omega) inside nonempty regionsNonempty

/-- The invariant of a container of capacity `n`. -/
structure Kept (n : Nat) (c : DirtyRegionContainer F) : Prop where
  capacity : c.dirtyRegions.length = n
  size : c.emptyIndex ≤ n
  nonempty : ∀ b ∈ c.regions, b.isEmpty = false
  heap : HeapShape c

theorem kept_create (blank : RectBounds F) (n : Nat) : Kept n (create blank n) :=
  ⟨by simp [create], Nat.zero_le n, by simp [regions, create], by simp [HeapShape, create]⟩

variable {n : Nat} {c : DirtyRegionContainer F} {blank region : RectBounds F}

/-- Every one of `bs` is contained in a region in use. -/
def Covers (c : DirtyRegionContainer F) (bs : List (RectBounds F)) : Prop :=
  ∀ b ∈ bs, ∃ b' ∈ c.regions, Within b b'

theorem Absorbed.place {region' : RectBounds F} {dirtyRegions' : List (RectBounds F)} {emptyIndex' : Nat}
    (h : Kept n c) (absorbed : Absorbed region c.dirtyRegions c.emptyIndex region' dirtyRegions' emptyIndex')
    (space : emptyIndex' < dirtyRegions'.length) :
    Kept n ⟨dirtyRegions'.set emptyIndex' region', emptyIndex' + 1, c.heap, c.entries⟩ ∧
      Covers ⟨dirtyRegions'.set emptyIndex' region', emptyIndex' + 1, c.heap, c.entries⟩ (region :: c.regions) := by
  have hlen := absorbed.length
  have hcap := h.capacity
  have stays : ∀ b ∈ dirtyRegions'.take emptyIndex',
      b ∈ (dirtyRegions'.set emptyIndex' region').take (emptyIndex' + 1) := by
    intro b hb
    obtain ⟨q, hq, hget⟩ := mem_take_iff.mp hb
    exact mem_take_iff.mpr ⟨q, by omega, by rw [List.getElem?_set_ne (by omega)]; exact hget⟩
  have placed : region' ∈ (dirtyRegions'.set emptyIndex' region').take (emptyIndex' + 1) :=
    mem_take_iff.mpr ⟨emptyIndex', by omega, List.getElem?_set_self space⟩
  refine ⟨⟨by simp [hlen, hcap], by show emptyIndex' + 1 ≤ n; omega, ?_, ?_⟩, ?_⟩
  · intro b hb
    obtain ⟨q, hq, hget⟩ := mem_take_iff.mp hb
    by_cases new : q = emptyIndex'
    · rw [new] at hget
      change (dirtyRegions'.set emptyIndex' region')[emptyIndex']? = _ at hget
      rw [List.getElem?_set_self space] at hget
      cases hget
      exact absorbed.nonempty
    · change (dirtyRegions'.set emptyIndex' region')[q]? = _ at hget
      change q < emptyIndex' + 1 at hq
      rw [List.getElem?_set_ne (Ne.symm new)] at hget
      exact h.nonempty b (absorbed.old b (mem_take_iff.mpr ⟨q, by omega, hget⟩))
  · intro heap hheap
    obtain ⟨hheapLen, hrefs⟩ := h.heap heap hheap
    exact ⟨by simpa [hlen] using hheapLen, hrefs⟩
  · intro b hb
    rcases List.mem_cons.mp hb with rfl | hb
    · exact ⟨region', placed, absorbed.within⟩
    · rcases absorbed.covered b hb with within | kept
      · exact ⟨region', placed, within⟩
      · exact ⟨b, stays b kept, Within.refl b⟩

theorem Covers.trans {c' : DirtyRegionContainer F} {bs : List (RectBounds F)} (h : Covers c bs)
    (h' : Covers c' c.regions) : Covers c' bs := by
  intro b hb
  obtain ⟨b1, hb1, within1⟩ := h b hb
  obtain ⟨b2, hb2, within2⟩ := h' b1 hb1
  exact ⟨b2, hb2, within1.trans within2⟩

theorem add_of_space (h : Kept n c) (space : c.emptyIndex < n) (nonempty : region.isEmpty = false) (fuel : Nat) :
    ∃ c', addDirtyRegion unionArea blank (fuel + 1) region c = .ok c' ∧ Kept n c' ∧
      Covers c' (region :: c.regions) := by
  have hcap := h.capacity
  obtain ⟨region', dirtyRegions', emptyIndex', habsorb, absorbed⟩ := absorb_spec c.emptyIndex 0 region
    c.dirtyRegions c.emptyIndex (by omega) (by omega) nonempty h.nonempty
  have hfewer := absorbed.fewer
  have hlen := absorbed.length
  obtain ⟨kept, covers⟩ := absorbed.place h (by omega)
  refine ⟨_, ?_, kept, covers⟩
  rw [addDirtyRegion, if_neg (by simp [nonempty])]
  simp only [habsorb, ok_bind]
  rw [if_pos (by omega)]
  simp only [RectBounds.deriveWithNewBounds, absorbed.nonempty, Bool.false_eq_true, if_false,
    writeSlot_eq (by omega : emptyIndex' < dirtyRegions'.length), ok_bind, pure_eq_ok]

theorem single_grows {region' only : RectBounds F} (h : Kept 1 c)
    (absorbed : Absorbed region c.dirtyRegions c.emptyIndex region' [only] 1) :
    Kept 1 ⟨[only.unionWith region'], 1, c.heap, c.entries⟩ ∧
      Covers ⟨[only.unionWith region'], 1, c.heap, c.entries⟩ (region :: c.regions) := by
  have hcap := h.capacity
  have onlyNonempty : only.isEmpty = false := h.nonempty only (absorbed.old only (by simp))
  obtain ⟨within1, within2, unionNonempty⟩ := union_spec onlyNonempty absorbed.nonempty
  refine ⟨⟨rfl, le_rfl, ?_, ?_⟩, ?_⟩
  · intro b hb
    have hb' : b = only.unionWith region' := by simpa [regions] using hb
    rw [hb']
    exact unionNonempty
  · intro heap hheap
    obtain ⟨hheapLen, hrefs⟩ := h.heap heap hheap
    rw [hcap] at hheapLen
    exact ⟨hheapLen, hrefs⟩
  · intro b hb
    refine ⟨only.unionWith region', by simp [regions], ?_⟩
    rcases List.mem_cons.mp hb with rfl | hb
    · exact absorbed.within.trans within2
    · rcases absorbed.covered b hb with within | kept
      · exact within.trans within2
      · have : b = only := by simpa using kept
        rw [this]
        exact within1

theorem addDirtyRegion_spec (large : 1 ≤ n) (h : Kept n c) (nonempty : region.isEmpty = false) :
    ∃ c', addDirtyRegion unionArea blank 2 region c = .ok c' ∧ Kept n c' ∧ Covers c' (region :: c.regions) := by
  have hcap := h.capacity
  have hsize := h.size
  obtain ⟨region', dirtyRegions', emptyIndex', habsorb, absorbed⟩ := absorb_spec c.emptyIndex 0 region
    c.dirtyRegions c.emptyIndex (by omega) (by omega) nonempty h.nonempty
  have hfewer := absorbed.fewer
  have hlen := absorbed.length
  rw [addDirtyRegion, if_neg (by simp [nonempty])]
  simp only [habsorb, ok_bind]
  by_cases space : emptyIndex' < dirtyRegions'.length
  · rw [if_pos space]
    obtain ⟨kept, covers⟩ := absorbed.place h space
    refine ⟨_, ?_, kept, covers⟩
    simp only [RectBounds.deriveWithNewBounds, absorbed.nonempty, Bool.false_eq_true, if_false,
      writeSlot_eq space, ok_bind, pure_eq_ok]
  · rw [if_neg space]
    by_cases single : dirtyRegions'.length = 1
    · rw [if_pos single]
      obtain ⟨only, rfl⟩ := List.length_eq_one_iff.mp single
      have hn : n = 1 := by omega
      have hone : emptyIndex' = 1 := by omega
      subst hn hone
      obtain ⟨kept, covers⟩ := single_grows h absorbed
      exact ⟨_, rfl, kept, covers⟩
    · rw [if_neg single]
      have allUsed : dirtyRegions'.take emptyIndex' = dirtyRegions' := List.take_of_length_le (by omega)
      have shape : HeapShape (⟨dirtyRegions', emptyIndex', c.heap, c.entries⟩ : DirtyRegionContainer F) := by
        intro heap hheap
        obtain ⟨hheapLen, hrefs⟩ := h.heap heap hheap
        exact ⟨by simpa [hlen] using hheapLen, hrefs⟩
      obtain ⟨c1, hcompress, hcap1, hfree, nonempty1, shape1, covers1⟩ := @compressHeap_spec F _ unionArea
        ⟨dirtyRegions', emptyIndex', c.heap, c.entries⟩ (by show 2 ≤ dirtyRegions'.length; omega)
        (by show emptyIndex' = dirtyRegions'.length; omega)
        (fun b hb => h.nonempty b (absorbed.old b (by rw [allUsed]; exact hb))) shape
      change c1.dirtyRegions.length = dirtyRegions'.length at hcap1
      change c1.emptyIndex < dirtyRegions'.length at hfree
      have kept1 : Kept n c1 :=
        ⟨by omega, by omega, fun b hb => nonempty1 b (List.mem_of_mem_take hb), shape1⟩
      obtain ⟨c2, hadd, kept2, covers2⟩ :=
        @add_of_space F _ unionArea n c1 blank region' kept1 (by omega) absorbed.nonempty 0
      refine ⟨c2, ?_, kept2, ?_⟩
      · simp only [hcompress, ok_bind]
        exact hadd
      · obtain ⟨b', hb', within'⟩ := covers2 region' (by simp)
        have coversOld : Covers c2 c1.regions := fun b hb => covers2 b (by simp [hb])
        intro b hb
        rcases List.mem_cons.mp hb with rfl | hb
        · exact ⟨b', hb', absorbed.within.trans within'⟩
        · rcases absorbed.covered b hb with within | kept
          · exact ⟨b', hb', within.trans within'⟩
          · rw [allUsed] at kept
            obtain ⟨b1, hb1, within1⟩ := covers1 b kept
            obtain ⟨b2, hb2, within2⟩ := coversOld b1 hb1
            exact ⟨b2, hb2, within1.trans within2⟩

/-! ## Runs -/

/-- A sequence of calls.  The recursion of a call is two deep at most. -/
def addDirtyRegions (unionArea : RectBounds F → Int) (blank : RectBounds F) :
    List (RectBounds F) → DirtyRegionContainer F → Except Fault (DirtyRegionContainer F)
  | [], c => .ok c
  | region :: rest, c => do
      let c ← addDirtyRegion unionArea blank 2 region c
      addDirtyRegions unionArea blank rest c

theorem addDirtyRegions_spec (large : 1 ≤ n) (added : List (RectBounds F)) (h : Kept n c)
    (nonempty : ∀ b ∈ added, b.isEmpty = false) :
    ∃ c', addDirtyRegions unionArea blank added c = .ok c' ∧ Kept n c' ∧ Covers c' (added ++ c.regions) := by
  induction added generalizing c with
  | nil => exact ⟨c, rfl, h, fun b hb => ⟨b, hb, Within.refl b⟩⟩
  | cons region rest ih =>
    obtain ⟨c1, hadd, kept1, covers1⟩ := @addDirtyRegion_spec F _ unionArea n c blank region large h
      (nonempty region (by simp))
    obtain ⟨c2, hrest, kept2, covers2⟩ := ih kept1 (fun b hb => nonempty b (by simp [hb]))
    refine ⟨c2, by simp only [addDirtyRegions, hadd, ok_bind]; exact hrest, kept2, ?_⟩
    have coversOld : Covers c2 c1.regions := fun b hb => covers2 b (List.mem_append_right rest hb)
    intro b hb
    simp only [List.cons_append, List.mem_cons, List.mem_append] at hb
    rcases hb with rfl | hb | hb
    · exact covers1.trans coversOld b (by simp)
    · exact covers2 b (List.mem_append_left _ hb)
    · exact covers1.trans coversOld b (by simp [hb])

/-- Dirty regions are never lost: whatever rectangles are added to a container
of capacity `n`, every call returns, at most `n` regions are in use, and one of
them contains each rectangle ever added and each region held before. -/
theorem added_regions_covered (unionArea : RectBounds F → Int) (blank : RectBounds F) (n : Nat) (large : 1 ≤ n)
    (added : List (RectBounds F)) (nonempty : ∀ b ∈ added, b.isEmpty = false) :
    ∃ c, addDirtyRegions unionArea blank added (create blank n) = .ok c ∧ c.emptyIndex ≤ n ∧ Covers c added ∧
      ∀ region, region.isEmpty = false →
        ∃ c', addDirtyRegion unionArea blank 2 region c = .ok c' ∧ c'.emptyIndex ≤ n ∧
          Covers c' (region :: c.regions) := by
  obtain ⟨c, hrun, kept, covers⟩ := @addDirtyRegions_spec F _ unionArea n (create blank n) blank large added
    (kept_create blank n) nonempty
  refine ⟨c, hrun, kept.size, fun b hb => covers b (List.mem_append_left _ hb), fun region hregion => ?_⟩
  obtain ⟨c', hadd, kept', covers'⟩ := @addDirtyRegion_spec F _ unionArea n c blank region large kept hregion
  exact ⟨c', hadd, kept'.size, covers'⟩

/-- Seven squares along a diagonal in a container for four regions. -/
theorem added_regions_covered_diagonal : ∃ c : DirtyRegionContainer Int,
    addDirtyRegions (fun b => (b.maxX - b.minX) * (b.maxY - b.minY)) ⟨0, 0, -1, -1⟩
        [⟨0, 0, 2, 2⟩, ⟨10, 10, 12, 12⟩, ⟨20, 20, 22, 22⟩, ⟨30, 30, 32, 32⟩, ⟨40, 40, 42, 42⟩, ⟨50, 50, 52, 52⟩,
          ⟨60, 60, 62, 62⟩] (create ⟨0, 0, -1, -1⟩ 4) = .ok c ∧ c.emptyIndex ≤ 4 ∧
      Covers c [⟨0, 0, 2, 2⟩, ⟨10, 10, 12, 12⟩, ⟨20, 20, 22, 22⟩, ⟨30, 30, 32, 32⟩, ⟨40, 40, 42, 42⟩,
        ⟨50, 50, 52, 52⟩, ⟨60, 60, 62, 62⟩] ∧
      ∀ region, region.isEmpty = false →
        ∃ c', addDirtyRegion (fun b => (b.maxX - b.minX) * (b.maxY - b.minY)) ⟨0, 0, -1, -1⟩ 2 region c = .ok c' ∧
          c'.emptyIndex ≤ 4 ∧ Covers c' (region :: c.regions) :=
  added_regions_covered _ _ 4 (by decide) _ (by decide)

end Add

end OpenJfx.Geometry.DirtyRegionContainer
