import Mathlib.Data.List.Basic
import Mathlib.Tactic.Ring
import OpenJfx.Geometry.DirtyRegionContainer

/-! # The heap of a compression

Nothing about the order of the heap is needed: its slots stay references to
entries of two different regions, every loop ends, and a root that `siftDown`
replaces is replaced by one of smaller area. -/
set_option autoImplicit false
namespace OpenJfx.Geometry

section Arrays
variable {α : Type} {a : List α} {i j : Nat}

theorem readSlot_eq (h : i < a.length) : readSlot a i = .ok a[i] := by
  simp [readSlot, List.getElem?_eq_getElem h]

theorem readSlot_of_getElem? {v : α} (h : a[i]? = some v) : readSlot a i = .ok v := by
  simp [readSlot, h]

theorem readSlot_eq_ok {v : α} (h : readSlot a i = .ok v) : a[i]? = some v := by
  unfold readSlot at h
  split at h
  next w hw => rw [hw, Except.ok.inj h]
  next => cases h

theorem writeSlot_eq (h : i < a.length) (v : α) : writeSlot a i v = .ok (a.set i v) := by
  simp [writeSlot, h]

@[simp] theorem ok_bind {β γ : Type} (x : β) (f : β → Except Fault γ) : (Except.ok x >>= f) = f x := rfl

@[simp] theorem pure_eq_ok {β : Type} (x : β) : (pure x : Except Fault β) = .ok x := rfl

theorem swapSlots_spec (hi : i < a.length) (hj : j < a.length) :
    ∃ b, swapSlots a i j = .ok b ∧ b.length = a.length ∧ b[i]? = a[j]? ∧ b[j]? = a[i]? ∧
      (∀ k, k ≠ i → k ≠ j → b[k]? = a[k]?) ∧ ∀ x ∈ b, x ∈ a := by
  refine ⟨(a.set i a[j]).set j a[i], ?_, by simp, ?_, ?_, ?_, ?_⟩
  · simp only [swapSlots, readSlot_eq hi, readSlot_eq hj, ok_bind, writeSlot_eq hi]
    rw [writeSlot_eq (by simpa using hj)]
  · by_cases same : j = i
    · subst same
      simp [hj]
    · rw [List.getElem?_set_ne same, List.getElem?_set_self hi, List.getElem?_eq_getElem hj]
  · rw [List.getElem?_set_self (by simpa using hj), List.getElem?_eq_getElem hi]
  · intro k hki hkj
    rw [List.getElem?_set_ne (Ne.symm hkj), List.getElem?_set_ne (Ne.symm hki)]
  · intro x hx
    rcases List.mem_or_eq_of_mem_set hx with hx | rfl
    · rcases List.mem_or_eq_of_mem_set hx with hx | rfl
      · exact hx
      · exact List.getElem_mem hj
    · exact List.getElem_mem hi

end Arrays

namespace DirtyRegionContainer

/-- Every slot refers to an entry of two different regions out of `n`. -/
structure HeapOk (n : Nat) (heap : List Nat) (entries : List HeapEntry) : Prop where
  entry : ∀ ref ∈ heap, ∃ e, entries[ref]? = some e ∧ e.first < e.second ∧ e.second < n

section Sift
variable {n : Nat} {heap : List Nat} {entries : List HeapEntry}

theorem HeapOk.of_subset (h : HeapOk n heap entries) {heap' : List Nat} (sub : ∀ r ∈ heap', r ∈ heap) :
    HeapOk n heap' entries := ⟨fun ref hmem => h.entry ref (sub ref hmem)⟩

theorem HeapOk.areaAt (h : HeapOk n heap entries) {k : Nat} (hk : k < heap.length) :
    ∃ e, entries[heap[k]]? = some e ∧ areaAt entries heap k = .ok e.area := by
  obtain ⟨e, he, -⟩ := h.entry heap[k] (List.getElem_mem hk)
  exact ⟨e, he, by simp [DirtyRegionContainer.areaAt, readSlot_eq hk, readSlot_of_getElem? he]⟩

theorem HeapOk.smallerChild (h : HeapOk n heap entries) {heapSize i : Nat} (size : heapSize ≤ heap.length)
    (inner : i < heapSize / 2) :
    ∃ child, smallerChild entries heapSize heap i = .ok child ∧ i < child ∧ child < heapSize := by
  have hchild : 2 * i + 1 < heapSize := by omega
  obtain ⟨left, -, hleft⟩ := h.areaAt (k := 2 * i + 1) (by omega)
  unfold DirtyRegionContainer.smallerChild
  simp only [hleft, ok_bind]
  by_cases more : 2 * i + 1 + 1 < heapSize
  · obtain ⟨right, -, hright⟩ := h.areaAt (k := 2 * i + 1 + 1) (by omega)
    simp only [if_pos more, hright, ok_bind, pure_eq_ok]
    refine ⟨_, rfl, ?_, ?_⟩
    · split <;> omega
    · split <;> omega
  · simp only [if_neg more, pure_eq_ok]
    exact ⟨_, rfl, by omega, hchild⟩

/-- The areas of the entries that two references show. -/
def SmallerArea (entries : List HeapEntry) (ref ref' : Nat) : Prop :=
  ∃ e e', entries[ref]? = some e ∧ entries[ref']? = some e' ∧ e.area < e'.area

theorem siftDown_spec {heapSize : Nat} (fuel i : Nat) (heap : List Nat) (h : HeapOk n heap entries)
    (size : heapSize ≤ heap.length) (inside : i ≤ heapSize) (enough : heapSize < fuel + i) :
    ∃ heap', siftDown entries heapSize fuel i heap = .ok heap' ∧ heap'.length = heap.length ∧
      (∀ r ∈ heap', r ∈ heap) ∧ (∀ k < i, heap'[k]? = heap[k]?) ∧
      ∀ r r', heap[i]? = some r → heap'[i]? = some r' → r' = r ∨ SmallerArea entries r' r := by
  induction fuel generalizing i heap with
  | zero => omega
  | succ fuel ih =>
    have stay : ∀ r r', heap[i]? = some r → heap[i]? = some r' → r' = r ∨ SmallerArea entries r' r := by
      intro r r' hr hr'
      rw [hr] at hr'
      exact Or.inl (Option.some.inj hr').symm
    unfold siftDown
    by_cases inner : i < heapSize / 2
    · rw [if_pos inner]
      obtain ⟨child, hchild, after, before⟩ := h.smallerChild size inner
      obtain ⟨ce, hce, hcarea⟩ := h.areaAt (k := child) (by omega)
      obtain ⟨pe, hpe, hparea⟩ := h.areaAt (k := i) (by omega)
      simp only [hchild, hcarea, hparea, ok_bind]
      by_cases done : pe.area ≤ ce.area
      · rw [if_pos done]
        exact ⟨heap, rfl, rfl, fun _ => id, fun _ _ => rfl, stay⟩
      · rw [if_neg done]
        obtain ⟨swapped, hswap, hlen, hatChild, hatI, hother, hsub⟩ :=
          @swapSlots_spec _ heap child i (by omega) (by omega)
        obtain ⟨heap', hsift, hlen', hsub', hkeep, -⟩ :=
          ih child swapped (h.of_subset hsub) (by omega) (by omega) (by omega)
        simp only [hswap, ok_bind]
        refine ⟨heap', hsift, hlen'.trans hlen, fun r hr => hsub r (hsub' r hr), ?_, ?_⟩
        · intro k hk
          rw [hkeep k (by omega), hother k (by omega) (by omega)]
        · intro r r' hr hr'
          right
          rw [hkeep i after, hatI, List.getElem?_eq_getElem (by omega)] at hr'
          rw [List.getElem?_eq_getElem (by omega)] at hr
          cases hr
          cases hr'
          exact ⟨ce, pe, hce, hpe, by omega⟩
    · rw [if_neg inner]
      exact ⟨heap, rfl, rfl, fun _ => id, fun _ _ => rfl, stay⟩

theorem heapify_spec {heapSize : Nat} (i : Nat) (heap : List Nat) (h : HeapOk n heap entries)
    (size : heapSize ≤ heap.length) (inside : i ≤ heapSize) :
    ∃ heap', heapify entries heapSize i heap = .ok heap' ∧ heap'.length = heap.length ∧ ∀ r ∈ heap', r ∈ heap := by
  induction i generalizing heap with
  | zero =>
    obtain ⟨heap', hsift, hlen, hsub, -⟩ := siftDown_spec (heapSize + 1) 0 heap h size inside (by omega)
    exact ⟨heap', hsift, hlen, hsub⟩
  | succ i ih =>
    obtain ⟨sifted, hsift, hlen, hsub, -⟩ := siftDown_spec (heapSize + 1) (i + 1) heap h size inside (by omega)
    obtain ⟨heap', hheapify, hlen', hsub'⟩ := ih sifted (h.of_subset hsub) (by omega) (by omega)
    refine ⟨heap', ?_, hlen'.trans hlen, fun r hr => hsub r (hsub' r hr)⟩
    simp only [heapify, hsift, ok_bind]
    exact hheapify

end Sift

/-! ## The index map -/

section Resolve
variable {map : List Nat} {fuel idx r : Nat}

theorem resolveMap_mono (h : resolveMap map fuel idx = .ok r) {fuel' : Nat} (more : fuel ≤ fuel') :
    resolveMap map fuel' idx = .ok r := by
  induction fuel generalizing idx fuel' with
  | zero => cases h
  | succ fuel ih =>
    obtain ⟨fuel', rfl⟩ : ∃ k, fuel' = k + 1 := ⟨fuel' - 1, by omega⟩
    unfold resolveMap at h ⊢
    cases hread : readSlot map idx with
    | error x => rw [hread] at h; cases h
    | ok next =>
      rw [hread] at h
      simp only [ok_bind] at h ⊢
      by_cases root : next = idx
      · rw [if_pos root] at h ⊢
        exact h
      · rw [if_neg root] at h ⊢
        exact ih h (by omega)

theorem resolveMap_root (h : resolveMap map fuel idx = .ok r) : map[r]? = some r := by
  induction fuel generalizing idx with
  | zero => cases h
  | succ fuel ih =>
    unfold resolveMap at h
    cases hread : readSlot map idx with
    | error x => rw [hread] at h; cases h
    | ok next =>
      rw [hread] at h
      simp only [ok_bind] at h
      by_cases root : next = idx
      · rw [if_pos root] at h
        cases h
        rw [← root] at hread ⊢
        exact readSlot_eq_ok hread
      · rw [if_neg root] at h
        exact ih h

theorem resolveMap_of_root (hroot : map[idx]? = some idx) (fuel : Nat) :
    resolveMap map (fuel + 1) idx = .ok idx := by
  simp [resolveMap, readSlot_of_getElem? hroot]

theorem resolveMap_link {idx0 idx1 : Nat} (root0 : map[idx0]? = some idx0) (root1 : map[idx1]? = some idx1)
    (apart : idx0 ≠ idx1) (h : resolveMap map fuel idx = .ok r) :
    resolveMap (map.set idx1 idx0) (fuel + 1) idx = .ok (if r = idx1 then idx0 else r) := by
  have inside : idx1 < map.length := (List.getElem?_eq_some_iff.mp root1).1
  have hlink : (map.set idx1 idx0)[idx1]? = some idx0 := List.getElem?_set_self inside
  have hroot0 : (map.set idx1 idx0)[idx0]? = some idx0 := by
    rw [List.getElem?_set_ne (Ne.symm apart)]
    exact root0
  induction fuel generalizing idx with
  | zero => cases h
  | succ fuel ih =>
    unfold resolveMap at h
    cases hread : readSlot map idx with
    | error x => rw [hread] at h; cases h
    | ok next =>
      rw [hread] at h
      simp only [ok_bind] at h
      by_cases root : next = idx
      · rw [if_pos root] at h
        have hr : r = idx := (Except.ok.inj h).symm
        rw [hr]
        by_cases linked : idx = idx1
        · rw [if_pos linked, linked, resolveMap, readSlot_of_getElem? hlink]
          simp only [ok_bind, if_neg apart]
          exact resolveMap_of_root hroot0 fuel
        · rw [if_neg linked]
          apply resolveMap_of_root
          rw [List.getElem?_set_ne (Ne.symm linked)]
          rw [← root] at hread ⊢
          exact readSlot_eq_ok hread
      · rw [if_neg root] at h
        have other : idx ≠ idx1 := by
          intro same
          rw [same] at hread root
          have := (readSlot_eq_ok hread).symm.trans root1
          exact root (Option.some.inj this)
        have hread' : readSlot (map.set idx1 idx0) idx = .ok next := by
          apply readSlot_of_getElem?
          rw [List.getElem?_set_ne (Ne.symm other)]
          exact readSlot_eq_ok hread
        rw [resolveMap, hread']
        simp only [ok_bind, if_neg root]
        exact ih h

end Resolve

/-! ## The minimum -/

section Refresh
variable {n : Nat} {entries : List HeapEntry}

/-- The entries whose area is not the one `target` gives. -/
def unsettled (target : Nat → Nat → Int) (entries : List HeapEntry) : Nat :=
  entries.countP (fun e => decide (e.area ≠ target e.first e.second))

def below (area : Int) (entries : List HeapEntry) : Nat := entries.countP (fun e => decide (e.area < area))

theorem below_lt {ref : Nat} {e : HeapEntry} {area : Int} (he : entries[ref]? = some e) (less : e.area < area) :
    below e.area entries < below area entries := by
  obtain ⟨inside, hget⟩ := List.getElem?_eq_some_iff.mp he
  have hmem : e ∈ entries := hget ▸ List.getElem_mem inside
  obtain ⟨front, back, rfl⟩ := List.append_of_mem hmem
  have mono : ∀ l : List HeapEntry, below e.area l ≤ below area l := by
    intro l
    apply List.countP_mono_left
    intro x _ hx
    simp only [decide_eq_true_iff] at hx ⊢
    omega
  have hfront := mono front
  have hback := mono back
  unfold below at *
  simp only [List.countP_append, List.countP_cons, decide_eq_true_iff, lt_self_iff_false, decide_false,
    Bool.false_eq_true, if_false, less, if_true]
  omega

theorem unsettled_set (target : Nat → Nat → Int) {ref : Nat} {e : HeapEntry} (he : entries[ref]? = some e)
    (changed : e.area ≠ target e.first e.second) :
    unsettled target (entries.set ref { e with area := target e.first e.second }) + 1
      = unsettled target entries := by
  obtain ⟨inside, hget⟩ := List.getElem?_eq_some_iff.mp he
  obtain ⟨front, back, hsplit, hlen⟩ : ∃ front back, entries = front ++ e :: back ∧ front.length = ref :=
    ⟨entries.take ref, entries.drop (ref + 1), by
      rw [← hget, List.getElem_cons_drop, List.take_append_drop], by simp; omega⟩
  subst hsplit
  rw [← hlen, List.set_append_right _ _ le_rfl, Nat.sub_self, List.set_cons_zero]
  unfold unsettled
  simp only [List.countP_append, List.countP_cons]
  simp [changed]
  omega

/-- What the loop needs: the two regions of an entry resolve, and their union has
the area `target`. -/
def Computes {F : Type} [LinearOrder F] (unionArea : RectBounds F → Int) (dirtyRegions : List (RectBounds F))
    (map : List Nat) (n : Nat) (target : Nat → Nat → Int) : Prop :=
  ∀ first second, first < n → second < n → ∃ i0 i1, resolveMap map (map.length + 1) first = .ok i0 ∧
    resolveMap map (map.length + 1) second = .ok i1 ∧
    unifiedRegionArea unionArea dirtyRegions i0 i1 = .ok (target first second)

theorem HeapOk.setArea {heap : List Nat} (h : HeapOk n heap entries) {ref : Nat} {e : HeapEntry}
    (he : entries[ref]? = some e) (area : Int) : HeapOk n heap (entries.set ref { e with area := area }) := by
  constructor
  intro other hmem
  obtain ⟨o, ho, order, inside⟩ := h.entry other hmem
  by_cases same : ref = other
  · subst same
    rw [he] at ho
    cases ho
    exact ⟨{ e with area := area }, List.getElem?_set_self (List.getElem?_eq_some_iff.mp he).1, order, inside⟩
  · exact ⟨o, by rw [List.getElem?_set_ne same]; exact ho, order, inside⟩

variable {F : Type} [LinearOrder F] {unionArea : RectBounds F → Int} {dirtyRegions : List (RectBounds F)}
  {map : List Nat} {invalidMask : BitVec 64}

theorem refreshRoot_spec {target : Nat → Nat → Int} {heapSize : Nat}
    (computes : Computes unionArea dirtyRegions map n target) (fuel : Nat) (heap : List Nat)
    (entries : List HeapEntry) (h : HeapOk n heap entries) (size : heapSize ≤ heap.length) (some_left : 0 < heap.length)
    (enough : ∀ (ref : Nat) (e : HeapEntry), heap[0]? = some ref → entries[ref]? = some e →
      unsettled target entries * (entries.length + 1) + below e.area entries < fuel) :
    ∃ heap' entries', refreshRoot unionArea dirtyRegions map invalidMask heapSize fuel heap entries
        = .ok (heap', entries') ∧ HeapOk n heap' entries' ∧ heap'.length = heap.length ∧
      entries'.length = entries.length := by
  induction fuel generalizing heap entries with
  | zero =>
    obtain ⟨e, he, -⟩ := h.entry heap[0] (List.getElem_mem some_left)
    have := enough heap[0] e (List.getElem?_eq_getElem some_left) he
    omega
  | succ fuel ih =>
    obtain ⟨e, he, order, inside⟩ := h.entry heap[0] (List.getElem_mem some_left)
    have hbound := enough heap[0] e (List.getElem?_eq_getElem some_left) he
    unfold refreshRoot
    simp only [readSlot_eq some_left, readSlot_of_getElem? he, ok_bind]
    by_cases invalid : isInvalid invalidMask e = true
    · rw [if_pos invalid]
      obtain ⟨i0, i1, hi0, hi1, harea⟩ := computes e.first e.second (by omega) inside
      have hinside : heap[0] < entries.length := (List.getElem?_eq_some_iff.mp he).1
      have hok := h.setArea he (target e.first e.second)
      obtain ⟨heap', hsift, hlen, hsub, -, hroot⟩ := siftDown_spec (heapSize + 1) 0 heap hok size (by omega) (by omega)
      have some_left' : 0 < heap'.length := by omega
      simp only [hi0, hi1, harea, ok_bind, writeSlot_eq hinside, hsift, readSlot_eq some_left']
      by_cases same : heap'[0] = heap[0]
      · rw [if_pos same]
        exact ⟨heap', _, rfl, hok.of_subset hsub, hlen, by simp⟩
      · rw [if_neg same]
        have smaller := (hroot heap[0] heap'[0] (List.getElem?_eq_getElem some_left)
          (List.getElem?_eq_getElem some_left')).resolve_left same
        have enough' : ∀ (ref : Nat) (e' : HeapEntry), heap'[0]? = some ref →
            (entries.set heap[0] { e with area := target e.first e.second })[ref]? = some e' →
            unsettled target (entries.set heap[0] { e with area := target e.first e.second })
              * ((entries.set heap[0] { e with area := target e.first e.second }).length + 1)
              + below e'.area (entries.set heap[0] { e with area := target e.first e.second }) < fuel := by
          intro ref e' href he'
          rw [List.getElem?_eq_getElem some_left'] at href
          cases href
          obtain ⟨small, root, hsmall, hrootEntry, less⟩ := smaller
          rw [he'] at hsmall
          cases hsmall
          rw [List.getElem?_set_self hinside] at hrootEntry
          cases hrootEntry
          rw [List.length_set]
          by_cases settled : e.area = target e.first e.second
          · have hset : entries.set heap[0] { e with area := target e.first e.second } = entries := by
              have hget : entries[heap[0]] = e := (List.getElem?_eq_some_iff.mp he).2
              calc entries.set heap[0] { e with area := target e.first e.second }
                  = entries.set heap[0] entries[heap[0]] := by rw [← settled, hget]
                _ = entries := List.set_getElem_self hinside
            rw [hset] at he' ⊢
            have hless := below_lt he' less
            rw [← settled] at hless
            change below e'.area entries < below e.area entries at hless
            omega
          · have hle : below e'.area (entries.set heap[0] { e with area := target e.first e.second })
                ≤ entries.length := by
              have := List.countP_le_length (p := fun x : HeapEntry => decide (x.area < e'.area))
                (l := entries.set heap[0] { e with area := target e.first e.second })
              rwa [List.length_set] at this
            have hcount := unsettled_set target he settled
            have hmul : (unsettled target (entries.set heap[0] { e with area := target e.first e.second }) + 1)
                * (entries.length + 1) = unsettled target entries * (entries.length + 1) := by rw [hcount]
            rw [Nat.add_mul] at hmul
            omega
        obtain ⟨heap'', entries'', hrest, hok'', hlen'', helen⟩ :=
          ih heap' _ (hok.of_subset hsub) (by omega) some_left' enough'
        exact ⟨heap'', entries'', hrest, hok'', hlen''.trans hlen, helen.trans (by simp)⟩
    · rw [if_neg invalid]
      exact ⟨heap, entries, rfl, h, rfl, rfl⟩

theorem takeMinWithMap_spec {target : Nat → Nat → Int} {heapSize : Nat} {heap : List Nat}
    (computes : Computes unionArea dirtyRegions map n target) (h : HeapOk n heap entries)
    (size : heapSize ≤ heap.length) (some_left : 0 < heapSize) :
    ∃ min heap' entries', takeMinWithMap unionArea dirtyRegions map invalidMask heapSize heap entries
        = .ok (min, heap', entries') ∧ HeapOk n heap' entries' ∧ heap'.length = heap.length ∧
      min.first < min.second ∧ min.second < n := by
  have enough : ∀ (ref : Nat) (e : HeapEntry), heap[0]? = some ref → entries[ref]? = some e →
      unsettled target entries * (entries.length + 1) + below e.area entries
        < (entries.length + 1) * (entries.length + 1) := by
    intro ref e _ _
    have h1 : unsettled target entries ≤ entries.length := List.countP_le_length
    have h2 : below e.area entries ≤ entries.length := List.countP_le_length
    have h3 := Nat.mul_le_mul_right (entries.length + 1) h1
    rw [Nat.add_mul]
    omega
  obtain ⟨heap1, entries1, hrefresh, hok1, hlen1, -⟩ := @refreshRoot_spec n F _ unionArea dirtyRegions map
    invalidMask target heapSize computes _ heap entries h size (by omega) enough
  obtain ⟨e, he, order, inside⟩ := hok1.entry heap1[0] (List.getElem_mem (by omega))
  have hok2 : HeapOk n (heap1.set (heapSize - 1) heap1[0]) entries1 := by
    apply hok1.of_subset
    intro r hr
    rcases List.mem_or_eq_of_mem_set hr with hr | rfl
    · exact hr
    · exact List.getElem_mem (by omega)
  obtain ⟨heap2, hsift, hlen2, hsub, -⟩ := @siftDown_spec n entries1 heapSize (heapSize + 1) 0
    (heap1.set (heapSize - 1) heap1[0]) hok2 (by rw [List.length_set]; omega) (by omega) (by omega)
  refine ⟨e, heap2, entries1, ?_, hok2.of_subset hsub, by rw [hlen2, List.length_set, hlen1], order, inside⟩
  unfold takeMinWithMap
  rw [hrefresh]
  simp only [ok_bind, readSlot_eq (by omega : 0 < heap1.length), readSlot_of_getElem? he,
    writeSlot_eq (by omega : heapSize - 1 < heap1.length), hsift, pure_eq_ok]

end Refresh

end DirtyRegionContainer
end OpenJfx.Geometry
