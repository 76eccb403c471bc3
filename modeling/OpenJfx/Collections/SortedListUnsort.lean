import Mathlib
import OpenJfx.Collections.SortPermutation
import OpenJfx.Collections.SortedListPermutation

/-! # Clearing the comparator of a `SortedList`

Without a comparator the list follows the cycles of the old order in place.  A round
either goes on to the next slot or brings one element home, so that the slots that are
left and the elements that are away decrease. -/
set_option autoImplicit false
namespace OpenJfx.Collections
open OpenJfx.Lib

namespace SortedList
variable {E : Type}

def fireChange (change : Change E) (s : SortedList E) : SortedList E :=
  { s with builder := { s.builder with fired := s.builder.fired ++ [change] } }

/-- The list and the local variables of the loop of `doSortWithPermutationChange`. -/
structure Unsorting (E : Type) where
  list : SortedList E
  perm : List Int
  rperm : List Int
  idx : Int
  changed : Bool
deriving DecidableEq, Repr

namespace Unsorting

def start (s : SortedList E) : Unsorting E := ⟨s, intRange 0 s.size, intRange 0 s.size, 0, false⟩

def round (k : Unsorting E) : Except Exn (Unsorting E) := do
  let element ← readAt k.list.sorted k.idx
  let otherIdx := element.index
  if otherIdx = k.idx then .ok { k with idx := k.idx + 1 }
  else do
    let other ← readAt k.list.sorted otherIdx
    let sorted ← writeAt k.list.sorted otherIdx element
    let sorted ← writeAt sorted k.idx other
    let listPerm ← writeAt k.list.perm k.idx k.idx
    let listPerm ← writeAt listPerm otherIdx otherIdx
    let tp ← readAt k.rperm k.idx
    let perm ← writeAt k.perm tp otherIdx
    let rother ← readAt k.rperm otherIdx
    let perm ← writeAt perm rother k.idx
    let rperm ← writeAt k.rperm k.idx rother
    let rperm ← writeAt rperm otherIdx tp
    .ok ⟨{ k.list with sorted := sorted, perm := listPerm }, perm, rperm, k.idx, true⟩

/-- The loop; `none` when it has not ended after the given number of rounds. -/
def loop : Nat → Unsorting E → Option (Outcome Exn (Unsorting E))
  | 0, k => if k.idx < k.list.size then none else some (.done k)
  | rounds + 1, k =>
      if k.idx < k.list.size then
        match k.round with
        | .error x => some (.thrown x k)
        | .ok k' => loop rounds k'
      else some (.done k)

end Unsorting

/-- `doSortWithPermutationChange`; the number of rounds is for the loop of the branch
without a comparator. -/
def doSortWithPermutationChange (comparator : Option (Comparator E)) (rounds : Nat) (s : SortedList E) :
    Option (Outcome Exn (SortedList E)) :=
  match comparator with
  | some comparator => some (match SortHelper.sort (elementComparator comparator) s.sorted 0 s.size with
      | .error x => .thrown x s
      | .ok (sorted, perm) =>
          (renewPerm { s with sorted := sorted }).map (fireChange (simplePermutationChange 0 s.size perm)))
  | none => ((Unsorting.start s).loop rounds).map fun o => o.map fun k =>
      if k.changed then k.list.fireChange (simplePermutationChange 0 s.size k.perm) else k.list

/-- The elements of the source, each once and in any order, with both index arrays in step. -/
structure Indexed (source : List E) (s : SortedList E) : Prop where
  size : s.sorted.length = source.length
  permSize : s.perm.length = source.length
  element : ∀ el ∈ s.sorted, ∃ j : Nat, el.index = j ∧ source[j]? = some el.e
  inverse : ∀ i j : Nat, s.perm[j]? = some (i : Int) ↔ ∃ el, s.sorted[i]? = some el ∧ el.index = j

theorem Represents.indexed {comparator : Comparator E} {source : List E} {s : SortedList E}
    (h : Represents comparator source s) : Indexed source s :=
  ⟨h.size, h.permSize, h.element, h.inverse⟩

/-- The element in the slot `i` is the element `i` of the source. -/
def Home (els : List (Element E)) (i : Nat) : Prop := ∃ el, els[i]? = some el ∧ el.index = i

/-- The view is the source; equal elements count as different ones. -/
def InPlace (s : SortedList E) : Prop := ∀ i < s.size, Home s.sorted i

theorem Indexed.slot_unique {source : List E} {s : SortedList E} (h : Indexed source s) {i i' : Nat} {el el' : Element E}
    (hi : s.sorted[i]? = some el) (hi' : s.sorted[i']? = some el') (heq : el.index = el'.index) : i = i' := by
  obtain ⟨j, hj, -⟩ := h.element el (List.mem_of_getElem? hi)
  have hperm := (h.inverse i j).mpr ⟨el, hi, hj⟩
  have hperm' := (h.inverse i' j).mpr ⟨el', hi', heq ▸ hj⟩
  rw [hperm] at hperm'
  exact Int.ofNat_inj.mp (Option.some.inj hperm')

theorem Indexed.inPlace_iff {source : List E} {s : SortedList E} (h : Indexed source s) (distinct : source.Nodup) :
    InPlace s ↔ s.view = source := by
  have hat : ∀ (i : Nat) (hi : i < s.size), ∃ j : Nat, s.sorted[i].index = j ∧ source[j]? = s.view[i]? := by
    intro i hi
    obtain ⟨j, hj, hget⟩ := h.element _ (List.getElem_mem hi)
    refine ⟨j, hj, ?_⟩
    rw [hget, view, List.getElem?_map, List.getElem?_eq_getElem hi]
    rfl
  constructor
  · intro hplace
    apply List.ext_getElem?
    intro i
    by_cases hi : i < s.size
    · obtain ⟨j, hj, hget⟩ := hat i hi
      obtain ⟨el, hel, hindex⟩ := hplace i hi
      rw [List.getElem?_eq_getElem hi] at hel
      cases Option.some.inj hel
      obtain rfl : i = j := by omega
      exact hget.symm
    · have hout : source.length ≤ i := h.size ▸ Nat.le_of_not_lt hi
      have hview : s.view.length ≤ i := by
        rw [view, List.length_map]
        exact Nat.le_of_not_lt hi
      rw [List.getElem?_eq_none hview, List.getElem?_eq_none hout]
  · intro hview i hi
    obtain ⟨j, hj, hget⟩ := hat i hi
    have hlt : i < source.length := h.size ▸ hi
    rw [hview, List.getElem?_eq_getElem hlt] at hget
    obtain ⟨hjlt, hsame⟩ := List.getElem?_eq_some_iff.mp hget
    have hji : j = i := (List.Nodup.getElem_inj_iff distinct).mp hsame
    exact ⟨s.sorted[i], List.getElem?_eq_getElem hi, by rw [hj, hji]⟩

theorem Indexed.index_lt {source : List E} {s : SortedList E} (h : Indexed source s) {i : Nat} {el : Element E}
    (hi : s.sorted[i]? = some el) : ∃ j : Nat, el.index = j ∧ j < s.sorted.length := by
  obtain ⟨j, hj, hget⟩ := h.element el (List.mem_of_getElem? hi)
  exact ⟨j, hj, h.size ▸ (List.getElem?_eq_some_iff.mp hget).1⟩

/-! ## A round -/

/-- The loop in front of a round, for the list `s`: the element in the slot `j` was in the
slot `rperm[j]`, and `perm` is the inverse. -/
structure Undoing (s : SortedList E) (k : Unsorting E) : Prop where
  sortedLength : k.list.sorted.length = s.sorted.length
  listPermLength : k.list.perm.length = s.sorted.length
  permLength : k.perm.length = s.sorted.length
  rpermLength : k.rperm.length = s.sorted.length
  rest : k.list.builder = s.builder ∧ k.list.capacity = s.capacity
  slot : ∃ a : Nat, k.idx = a ∧ a ≤ s.sorted.length
  came : ∀ j < s.sorted.length, ∃ m : Nat, k.rperm[j]? = some (m : Int) ∧ m < s.sorted.length ∧
    k.list.sorted[j]? = s.sorted[m]? ∧ k.perm[m]? = some (j : Int)
  home : ∀ j : Nat, (j : Int) < k.idx → Home k.list.sorted j
  viewed : ∀ j, Home k.list.sorted j → k.list.perm[j]? = some (j : Int)
  changed : k.changed = true → ¬ InPlace s
  unchanged : k.changed = false → k.list = s

/-- The number of slots with an element that belongs elsewhere. -/
noncomputable def away (els : List (Element E)) : Nat := by
  classical
  exact ((Finset.range els.length).filter fun i => ¬ Home els i).card

/-- What decreases. -/
noncomputable def Unsorting.left (k : Unsorting E) : Nat := away k.list.sorted + (k.list.sorted.length - k.idx.toNat)

theorem away_lt {els els' : List (Element E)} (length : els'.length = els.length) {b : Nat} (hb : b < els.length)
    (was : ¬ Home els b) (is : Home els' b) (keeps : ∀ i < els.length, Home els i → Home els' i) : away els' < away els := by
  classical
  unfold away
  rw [length]
  apply Finset.card_lt_card
  constructor
  · intro i hi
    obtain ⟨hlt, haway⟩ := Finset.mem_filter.mp hi
    exact Finset.mem_filter.mpr ⟨hlt, fun h => haway (keeps i (Finset.mem_range.mp hlt) h)⟩
  · intro hsub
    have := hsub (Finset.mem_filter.mpr ⟨Finset.mem_range.mpr hb, was⟩)
    exact (Finset.mem_filter.mp this).2 is

theorem away_le (els : List (Element E)) : away els ≤ els.length := by
  classical
  have := Finset.card_filter_le (Finset.range els.length) fun i => ¬ Home els i
  rwa [Finset.card_range] at this

section Round
variable {source : List E} {s : SortedList E} {k : Unsorting E}

theorem undoing_start (h : Indexed source s) : Undoing s (.start s) := by
  have hlength : (intRange 0 s.size).length = s.sorted.length := by
    rw [intRange_length, Int.sub_zero, Int.toNat_natCast, SortedList.size]
  have hget : ∀ j < s.sorted.length, (intRange 0 s.size)[j]? = some (j : Int) := by
    intro j hj
    rw [getElem?_intRange (by rw [Int.zero_add, SortedList.size]; omega), Int.zero_add]
  refine ⟨rfl, h.permSize.trans h.size.symm, hlength, hlength, ⟨rfl, rfl⟩, ⟨0, rfl, Nat.zero_le _⟩, ?_, ?_, ?_, ?_,
    fun _ => rfl⟩
  · intro j hj
    exact ⟨j, hget j hj, hj, rfl, hget j hj⟩
  · intro j hj
    exact absurd hj (by change ¬ (j : Int) < 0; omega)
  · intro j hhome
    exact (h.inverse j j).mpr hhome
  · intro hchanged
    cases hchanged

theorem Undoing.slot_unique (hk : Undoing s k) (h : Indexed source s) {i i' : Nat} {el el' : Element E}
    (hi : k.list.sorted[i]? = some el) (hi' : k.list.sorted[i']? = some el') (heq : el.index = el'.index) : i = i' := by
  have hlt := (List.getElem?_eq_some_iff.mp hi).1
  have hlt' := (List.getElem?_eq_some_iff.mp hi').1
  rw [hk.sortedLength] at hlt hlt'
  obtain ⟨m, -, -, hm, hperm⟩ := hk.came i hlt
  obtain ⟨m', -, -, hm', hperm'⟩ := hk.came i' hlt'
  rw [hi] at hm
  rw [hi'] at hm'
  obtain rfl := h.slot_unique hm.symm hm'.symm heq
  rw [hperm] at hperm'
  exact Int.ofNat_inj.mp (Option.some.inj hperm')

theorem getElem?_set_set {α : Type} {l : List α} {a b : Nat} (x y : α) (ha : a < l.length) (hb : b < l.length) (j : Nat) :
    ((l.set a x).set b y)[j]? = if j = b then some y else if j = a then some x else l[j]? := by
  rw [List.getElem?_set]
  by_cases hjb : b = j
  · subst hjb
    rw [if_pos rfl, if_pos rfl, if_pos (by rwa [List.length_set])]
  · rw [if_neg hjb, if_neg (Ne.symm hjb), List.getElem?_set]
    by_cases hja : a = j
    · subst hja
      rw [if_pos rfl, if_pos rfl, if_pos ha]
    · rw [if_neg hja, if_neg (Ne.symm hja)]

/-- The state after the element in the slot `a` has changed places with the one in the slot
`b`; they came from `m` and `m'`. -/
def Unsorting.exchanged (k : Unsorting E) (a b m m' : Nat) (element other : Element E) : Unsorting E :=
  ⟨{ k.list with
      sorted := (k.list.sorted.set b element).set a other
      perm := (k.list.perm.set a (a : Int)).set b (b : Int) },
    (k.perm.set m (b : Int)).set m' (a : Int), (k.rperm.set a (m' : Int)).set b (m : Int), k.idx, true⟩

theorem round_exchanges {a b m m' : Nat} {element other : Element E} (hidx : k.idx = a) (hne : b ≠ a)
    (helement : k.list.sorted[a]? = some element) (hindex : element.index = b) (hother : k.list.sorted[b]? = some other)
    (hm : k.rperm[a]? = some (m : Int)) (hm' : k.rperm[b]? = some (m' : Int))
    (hlist : k.list.perm.length = k.list.sorted.length)
    (hperm : m < k.perm.length ∧ m' < k.perm.length) : k.round = .ok (k.exchanged a b m m' element other) := by
  obtain ⟨ha, hgeta⟩ := List.getElem?_eq_some_iff.mp helement
  obtain ⟨hb, hgetb⟩ := List.getElem?_eq_some_iff.mp hother
  obtain ⟨hra, hgetm⟩ := List.getElem?_eq_some_iff.mp hm
  obtain ⟨hrb, hgetm'⟩ := List.getElem?_eq_some_iff.mp hm'
  have hindexes : ¬ ((b : Int) = a) := fun heq => hne (Int.ofNat_inj.mp heq)
  rw [Unsorting.round, hidx, readAt_natCast _ _ ha, hgeta]
  simp only [bind, Except.bind, hindex, if_neg hindexes]
  rw [readAt_natCast _ _ hb, hgetb, writeAt_natCast _ _ _ hb]
  dsimp only
  rw [writeAt_natCast _ _ _ (by rwa [List.length_set]), writeAt_natCast _ _ _ (by omega)]
  dsimp only
  rw [writeAt_natCast _ _ _ (by rw [List.length_set]; omega), readAt_natCast _ _ hra, hgetm]
  dsimp only
  rw [writeAt_natCast _ _ _ hperm.1, readAt_natCast _ _ hrb, hgetm']
  dsimp only
  rw [writeAt_natCast _ _ _ (by rw [List.length_set]; exact hperm.2), writeAt_natCast _ _ _ hra]
  dsimp only
  rw [writeAt_natCast _ _ _ (by rwa [List.length_set]), Unsorting.exchanged, hidx]

/-- The element in the slot `idx` is in its place. -/
theorem Undoing.advance (hk : Undoing s k) {a : Nat} (ha : k.idx = a) (halt : a < s.sorted.length)
    (hhome : Home k.list.sorted a) : k.round = .ok { k with idx := k.idx + 1 } ∧ Undoing s { k with idx := k.idx + 1 } ∧
      ({ k with idx := k.idx + 1 } : Unsorting E).left < k.left := by
  obtain ⟨el, hel, hindex⟩ := id hhome
  have hsize := hk.sortedLength
  refine ⟨?_, ?_, ?_⟩
  · rw [Unsorting.round, ha, readAt_natCast _ _ (by omega)]
    have helement : k.list.sorted[a] = el := by
      rw [List.getElem?_eq_getElem (by omega)] at hel
      exact Option.some.inj hel
    simp only [bind, Except.bind, helement, hindex, if_true]
  · refine ⟨hk.sortedLength, hk.listPermLength, hk.permLength, hk.rpermLength, hk.rest, ⟨a + 1, ?_, halt⟩, hk.came, ?_,
      hk.viewed, hk.changed, hk.unchanged⟩
    · change k.idx + 1 = _
      rw [ha, Nat.cast_add, Nat.cast_one]
    · intro j hj
      change (j : Int) < k.idx + 1 at hj
      by_cases hja : j = a
      · rw [hja]
        exact hhome
      · exact hk.home j (by omega)
  · change away k.list.sorted + (k.list.sorted.length - (k.idx + 1).toNat) < _
    rw [Unsorting.left]
    omega

section Exchange
variable {a b m m' : Nat} (hk : Undoing s k) (hne : b ≠ a) (ha : k.idx = a) (halt : a < s.sorted.length)
  (hblt : b < s.sorted.length) (hmlt : m < s.sorted.length) (hmlt' : m' < s.sorted.length)
  (hpm : k.perm[m]? = some (a : Int)) (hpm' : k.perm[m']? = some (b : Int))
include hk halt hblt

theorem exchanged_sorted (element other : Element E) (j : Nat) : (k.exchanged a b m m' element other).list.sorted[j]? =
    if j = a then some other else if j = b then some element else k.list.sorted[j]? := by
  have hsize := hk.sortedLength
  exact getElem?_set_set _ _ (by omega) (by omega) j

include hne hmlt hmlt' hpm hpm'

/-- Where the elements came from, after the exchange. -/
theorem exchanged_came (j : Nat) (hj : j < s.sorted.length) :
    ∃ i : Nat, (k.exchanged a b m m' s.sorted[m] s.sorted[m']).rperm[j]? = some (i : Int) ∧ i < s.sorted.length ∧
      (k.exchanged a b m m' s.sorted[m] s.sorted[m']).list.sorted[j]? = s.sorted[i]? ∧
      (k.exchanged a b m m' s.sorted[m] s.sorted[m']).perm[i]? = some (j : Int) := by
  have hmm : m ≠ m' := by
    intro heq
    rw [heq, hpm'] at hpm
    exact hne (Int.ofNat_inj.mp (Option.some.inj hpm))
  have hrpermAt : (k.exchanged a b m m' s.sorted[m] s.sorted[m']).rperm[j]?
      = if j = b then some (m : Int) else if j = a then some (m' : Int) else k.rperm[j]? :=
    getElem?_set_set _ _ (by rw [hk.rpermLength]; exact halt) (by rw [hk.rpermLength]; exact hblt) j
  have hpermAt : ∀ i, (k.exchanged a b m m' s.sorted[m] s.sorted[m']).perm[i]?
      = if i = m' then some (a : Int) else if i = m then some (b : Int) else k.perm[i]? :=
    getElem?_set_set _ _ (by rw [hk.permLength]; exact hmlt) (by rw [hk.permLength]; exact hmlt')
  rw [hrpermAt, exchanged_sorted hk halt hblt]
  by_cases hjb : j = b
  · refine ⟨m, ?_, hmlt, ?_, ?_⟩
    · rw [if_pos hjb]
    · rw [if_neg (hjb ▸ hne), if_pos hjb, List.getElem?_eq_getElem hmlt]
    · rw [hpermAt, if_neg hmm, if_pos rfl, hjb]
  · by_cases hja : j = a
    · refine ⟨m', ?_, hmlt', ?_, ?_⟩
      · rw [if_neg hjb, if_pos hja]
      · rw [if_pos hja, List.getElem?_eq_getElem hmlt']
      · rw [hpermAt, if_pos rfl, hja]
    · obtain ⟨i, hri, hilt, hsi, hpi⟩ := hk.came j hj
      have him : i ≠ m := by
        intro heq
        rw [heq, hpm] at hpi
        exact hja (Int.ofNat_inj.mp (Option.some.inj hpi)).symm
      have him' : i ≠ m' := by
        intro heq
        rw [heq, hpm'] at hpi
        exact hjb (Int.ofNat_inj.mp (Option.some.inj hpi)).symm
      refine ⟨i, ?_, hilt, ?_, ?_⟩
      · rw [if_neg hjb, if_neg hja, hri]
      · rw [if_neg hja, if_neg hjb, hsi]
      · rw [hpermAt, if_neg him', if_neg him, hpi]

include ha

/-- The element of the slot `a` goes home to `b`, and the one that was there comes to `a`. -/
theorem Undoing.exchange (hb : s.sorted[m].index = b) (hawayA : ¬ Home k.list.sorted a)
    (hawayB : ¬ Home k.list.sorted b) : Undoing s (k.exchanged a b m m' s.sorted[m] s.sorted[m']) ∧
      (k.exchanged a b m m' s.sorted[m] s.sorted[m']).left < k.left := by
  have hsize := hk.sortedLength
  have hsortedAt := @exchanged_sorted E s k a b m m' hk halt hblt s.sorted[m] s.sorted[m']
  have hlistPermAt : ∀ j, (k.exchanged a b m m' s.sorted[m] s.sorted[m']).list.perm[j]?
      = if j = b then some (b : Int) else if j = a then some (a : Int) else k.list.perm[j]? :=
    getElem?_set_set _ _ (by rw [hk.listPermLength]; exact halt) (by rw [hk.listPermLength]; exact hblt)
  have hhomeB : Home (k.exchanged a b m m' s.sorted[m] s.sorted[m']).list.sorted b :=
    ⟨s.sorted[m], by rw [hsortedAt, if_neg hne, if_pos rfl], hb⟩
  have hhomeOther : ∀ j, j ≠ a → j ≠ b → (Home (k.exchanged a b m m' s.sorted[m] s.sorted[m']).list.sorted j ↔
      Home k.list.sorted j) := by
    intro j hja hjb
    rw [Home, Home, hsortedAt, if_neg hja, if_neg hjb]
  have hkeeps : ∀ j, Home k.list.sorted j → Home (k.exchanged a b m m' s.sorted[m] s.sorted[m']).list.sorted j := by
    intro j hhome
    have hja : j ≠ a := fun heq => hawayA (heq ▸ hhome)
    have hjb : j ≠ b := fun heq => hawayB (heq ▸ hhome)
    exact (hhomeOther j hja hjb).mpr hhome
  have hlength : (k.exchanged a b m m' s.sorted[m] s.sorted[m']).list.sorted.length = k.list.sorted.length := by
    rw [Unsorting.exchanged, List.length_set, List.length_set]
  refine ⟨⟨hlength.trans hsize, ?_, ?_, ?_, hk.rest, ⟨a, ha, halt.le⟩,
    exchanged_came hk hne halt hblt hmlt hmlt' hpm hpm', ?_, ?_, ?_, ?_⟩, ?_⟩
  · rw [Unsorting.exchanged, List.length_set, List.length_set, hk.listPermLength]
  · rw [Unsorting.exchanged, List.length_set, List.length_set, hk.permLength]
  · rw [Unsorting.exchanged, List.length_set, List.length_set, hk.rpermLength]
  · intro j hj
    exact hkeeps j (hk.home j hj)
  · intro j hhome
    rw [hlistPermAt]
    by_cases hjb : j = b
    · rw [if_pos hjb, hjb]
    · by_cases hja : j = a
      · rw [if_neg hjb, if_pos hja, hja]
      · rw [if_neg hjb, if_neg hja]
        exact hk.viewed j ((hhomeOther j hja hjb).mp hhome)
  · intro _ hplace
    cases hc : k.changed with
    | true => exact hk.changed hc hplace
    | false =>
      rw [hk.unchanged hc] at hawayA
      exact absurd (hplace a halt) hawayA
  · intro hc
    cases hc
  · have hless := away_lt hlength (by omega) hawayB hhomeB fun i _ => hkeeps i
    rw [Unsorting.left, Unsorting.left, hlength]
    change _ + (_ - k.idx.toNat) < _ + (_ - k.idx.toNat)
    omega

end Exchange

theorem Undoing.round (hk : Undoing s k) (h : Indexed source s) (hidx : k.idx < s.sorted.length) :
    ∃ k', k.round = .ok k' ∧ Undoing s k' ∧ k'.left < k.left := by
  obtain ⟨a, ha, -⟩ := hk.slot
  have halt : a < s.sorted.length := by omega
  obtain ⟨m, hrm, hmlt, hsorted, hpm⟩ := hk.came a halt
  have hget : k.list.sorted[a]? = some s.sorted[m] := by rw [hsorted, List.getElem?_eq_getElem hmlt]
  obtain ⟨b, hb, hblt⟩ := h.index_lt (List.getElem?_eq_getElem hmlt)
  by_cases hsame : b = a
  · exact ⟨_, hk.advance ha halt ⟨_, hget, by rw [hb, hsame]⟩⟩
  · obtain ⟨m', hrm', hmlt', hsorted', hpm'⟩ := hk.came b hblt
    have hother : k.list.sorted[b]? = some s.sorted[m'] := by rw [hsorted', List.getElem?_eq_getElem hmlt']
    refine ⟨_, round_exchanges ha hsame hget hb hother hrm hrm' (by rw [hk.listPermLength, hk.sortedLength])
      (by rw [hk.permLength]; exact ⟨hmlt, hmlt'⟩), hk.exchange hsame ha halt hblt hmlt hmlt' hpm hpm' hb ?_ ?_⟩
    · intro hhome
      obtain ⟨el, hel, hindex⟩ := hhome
      rw [hget] at hel
      cases hel
      omega
    · intro hhome
      obtain ⟨el, hel, hindex⟩ := hhome
      exact hsame (hk.slot_unique h hel hget (by omega))

theorem Undoing.loop (h : Indexed source s) (d : Nat) (k : Unsorting E) (hk : Undoing s k) (hleft : k.left ≤ d) :
    ∃ k', Undoing s k' ∧ k'.idx = s.size ∧ ∀ rounds ≥ d, k.loop rounds = some (.done k') := by
  induction d generalizing k with
  | zero =>
    obtain ⟨a, ha, hle⟩ := hk.slot
    have hsize : k.list.size = s.size := hk.sortedLength
    have hend : k.idx = s.size := by
      rw [Unsorting.left, hk.sortedLength] at hleft
      rw [SortedList.size]
      omega
    refine ⟨k, hk, hend, fun rounds _ => ?_⟩
    have hstop : ¬ k.idx < k.list.size := by omega
    cases rounds with
    | zero => rw [Unsorting.loop, if_neg hstop]
    | succ rounds => rw [Unsorting.loop, if_neg hstop]
  | succ d ih =>
    have hsize : k.list.size = s.size := hk.sortedLength
    by_cases hidx : k.idx < s.sorted.length
    · obtain ⟨k₁, hround, hk₁, hless⟩ := hk.round h hidx
      obtain ⟨k', hk', hend, hloop⟩ := ih k₁ hk₁ (by omega)
      refine ⟨k', hk', hend, fun rounds hrounds => ?_⟩
      cases rounds with
      | zero => omega
      | succ rounds =>
        have hgoes : k.idx < k.list.size := by rw [hsize]; exact hidx
        rw [Unsorting.loop, if_pos hgoes, hround]
        exact hloop rounds (by omega)
    · obtain ⟨a, ha, hle⟩ := hk.slot
      have hend : k.idx = s.size := by
        rw [SortedList.size]
        omega
      refine ⟨k, hk, hend, fun rounds _ => ?_⟩
      have hstop : ¬ k.idx < k.list.size := by omega
      cases rounds with
      | zero => rw [Unsorting.loop, if_neg hstop]
      | succ rounds => rw [Unsorting.loop, if_neg hstop]

theorem Undoing.all_home (hk : Undoing s k) (hend : k.idx = s.size) (i : Nat) (hi : i < s.size) :
    Home k.list.sorted i ∧ k.list.perm[i]? = some (i : Int) := by
  have hhome := hk.home i (by omega)
  exact ⟨hhome, hk.viewed i hhome⟩

theorem Undoing.view_eq (h : Indexed source s) (hk : Undoing s k) (hend : k.idx = s.size) : k.list.view = source := by
  apply List.ext_getElem?
  intro i
  rw [view, List.getElem?_map]
  by_cases hi : i < s.size
  · obtain ⟨el, hel, hindex⟩ := (hk.all_home hend i hi).1
    obtain ⟨m, -, hmlt, hsorted, -⟩ := hk.came i hi
    rw [hel, List.getElem?_eq_getElem hmlt] at hsorted
    cases Option.some.inj hsorted
    obtain ⟨j, hj, hget⟩ := h.element _ (List.getElem_mem hmlt)
    obtain rfl : i = j := by omega
    rw [hel, hget]
    rfl
  · have hsource : source.length ≤ i := by
      rw [← h.size]
      exact Nat.le_of_not_lt hi
    have hsorted : k.list.sorted.length ≤ i := by
      rw [hk.sortedLength]
      exact Nat.le_of_not_lt hi
    rw [List.getElem?_eq_none hsorted, List.getElem?_eq_none hsource]
    rfl

theorem Undoing.changed_iff (hk : Undoing s k) (hend : k.idx = s.size) : k.changed = true ↔ ¬ InPlace s := by
  refine ⟨hk.changed, fun haway => ?_⟩
  cases hc : k.changed with
  | true => rfl
  | false =>
    refine absurd (fun i hi => ?_) haway
    have := (hk.all_home hend i hi).1
    rwa [hk.unchanged hc] at this

theorem Undoing.perm_slot (h : Indexed source s) (hk : Undoing s k) (hend : k.idx = s.size) {m : Nat} {el : Element E}
    (hm : s.sorted[m]? = some el) : k.perm[m]? = some el.index := by
  obtain ⟨j, hj, hlt⟩ := h.index_lt hm
  obtain ⟨m', -, -, hsorted, hperm⟩ := hk.came j hlt
  obtain ⟨el', hel', hindex⟩ := (hk.all_home hend j hlt).1
  rw [hel'] at hsorted
  obtain rfl := h.slot_unique hm hsorted.symm (by rw [hj, hindex])
  rw [hperm, hj]

theorem Undoing.perm_range (hk : Undoing s k) : IsRangePerm 0 k.perm := by
  apply isRangePerm_of_mem
  intro j hlo hhi
  rw [hk.permLength, Int.zero_add] at hhi
  obtain ⟨m, -, -, -, hm⟩ := hk.came j.toNat (by omega)
  rw [Int.toNat_of_nonneg hlo] at hm
  exact List.mem_of_getElem? hm

theorem start_left_le (s : SortedList E) : (Unsorting.start s).left ≤ 2 * s.size := by
  have := away_le s.sorted
  change away s.sorted + (s.sorted.length - (0 : Int).toNat) ≤ 2 * s.sorted.length
  omega

/-- What a list has fired on the way from `s` to `t`: nothing when it has been in place, and
else one permutation, which sends the old slot of every element to its new one. -/
def FiresUnsorting (s t : SortedList E) : Prop :=
  (InPlace s ∧ t = s) ∨
  (¬ InPlace s ∧ ∃ perm : List Int, IsRangePerm 0 perm ∧ perm.length = s.size ∧
    t.builder = (s.fireChange (simplePermutationChange 0 s.size perm)).builder ∧
    ∀ (i : Nat) (el : Element E), s.sorted[i]? = some el →
      ∃ j : Nat, perm[i]? = some (j : Int) ∧ t.sorted[j]? = some el)

theorem Undoing.follows (h : Indexed source s) (hk : Undoing s k) (hend : k.idx = s.size) {i : Nat} {el : Element E}
    (hi : s.sorted[i]? = some el) : ∃ j : Nat, k.perm[i]? = some (j : Int) ∧ k.list.sorted[j]? = some el := by
  obtain ⟨j, hj, hlt⟩ := h.index_lt hi
  have hperm := hk.perm_slot h hend hi
  obtain ⟨el', hel', hindex⟩ := (hk.all_home hend j hlt).1
  obtain ⟨m, -, -, hsorted, -⟩ := hk.came j hlt
  rw [hel'] at hsorted
  obtain rfl := h.slot_unique hi hsorted.symm (by rw [hj, hindex])
  rw [hi] at hsorted
  rw [hj] at hperm
  exact ⟨j, hperm, hel'.trans hsorted⟩

end Round

/-- Without a comparator the loop ends, the view is the source, and the change that is fired
says where the elements have gone. -/
theorem clearing_unsorts {source : List E} {s : SortedList E} (h : Indexed source s) :
    ∃ t : SortedList E, (∀ rounds ≥ 2 * s.size, doSortWithPermutationChange none rounds s = some (.done t)) ∧
      t.size = s.size ∧ (∀ i < s.size, Home t.sorted i ∧ t.perm[i]? = some (i : Int)) ∧ t.view = source ∧
      FiresUnsorting s t ∧ (source.Nodup → (InPlace s ↔ s.view = source)) := by
  obtain ⟨k, hk, hend, hloop⟩ := Undoing.loop h _ (.start s) (undoing_start h) (start_left_le s)
  have hhome := hk.all_home hend
  have hview := hk.view_eq h hend
  have hrun : ∀ rounds ≥ 2 * s.size, doSortWithPermutationChange none rounds s
      = some (.done (if k.changed then k.list.fireChange (simplePermutationChange 0 s.size k.perm) else k.list)) := by
    intro rounds hrounds
    rw [doSortWithPermutationChange, hloop rounds hrounds]
    rfl
  by_cases hplace : InPlace s
  · have hsame : k.changed = false := by
      cases hc : k.changed with
      | false => rfl
      | true => exact absurd hplace ((hk.changed_iff hend).mp hc)
    rw [hsame] at hrun
    exact ⟨k.list, hrun, hk.sortedLength, hhome, hview, Or.inl ⟨hplace, hk.unchanged hsame⟩, h.inPlace_iff⟩
  · have hchanged := (hk.changed_iff hend).mpr hplace
    rw [hchanged] at hrun
    refine ⟨_, hrun, hk.sortedLength, hhome, hview, Or.inr ⟨hplace, k.perm, hk.perm_range, hk.permLength, ?_, ?_⟩,
      h.inPlace_iff⟩
    · rw [if_pos rfl, fireChange, fireChange, hk.rest.1]
    · intro i el hi
      exact hk.follows h hend hi

/-- The sorted view of `[3, 1, 2]` becomes `[3, 1, 2]` again. -/
theorem sortedThree_unsorts :
    Indexed [3, 1, 2] sortedThree ∧
      ∃ t : SortedList Int, (∀ rounds ≥ 6, doSortWithPermutationChange none rounds sortedThree = some (.done t)) ∧
        t.size = 3 ∧ (∀ i < 3, Home t.sorted i ∧ t.perm[i]? = some (i : Int)) ∧ t.view = [3, 1, 2] ∧
        FiresUnsorting sortedThree t ∧ (([3, 1, 2] : List Int).Nodup → (InPlace sortedThree ↔ sortedThree.view = [3, 1, 2])) :=
  ⟨represents_sortedThree.indexed, clearing_unsorts represents_sortedThree.indexed⟩

end SortedList
end OpenJfx.Collections
