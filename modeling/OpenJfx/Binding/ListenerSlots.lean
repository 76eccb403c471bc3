import Mathlib.Data.List.Basic

/-! # The listener arrays of a helper

The `Generic` helpers keep the listeners of one kind in an array together with
the number of slots in use.  A notification holds on to the array it started
with, so arrays are objects: `Heap` lists all arrays created so far, an index
into it is a reference, and a store through one reference is seen through all
others.  A slot is `none` when it holds null. -/
set_option autoImplicit false
namespace OpenJfx.Binding

abbrev Heap (L : Type) := List (List (Option L))

structure Slots where
  array : Option Nat
  size : Nat
deriving DecidableEq, Repr

namespace Slots
variable {L : Type}

def empty : Slots := ⟨none, 0⟩

def listeners (heap : Heap L) (s : Slots) : List (Option L) :=
  match s.array with
  | some r => heap.getD r []
  | none => []

def registered (heap : Heap L) (s : Slots) : List (Option L) := (s.listeners heap).take s.size

def create (ls : List L) (heap : Heap L) : Heap L × Slots :=
  (heap ++ [ls.map some], ⟨some heap.length, ls.length⟩)

/-- A slot with a weak listener whose target was garbage collected. -/
def isCollected (collected : L → Bool) : Option L → Bool
  | some l => collected l
  | none => false

/-- `ExpressionHelperBase.trim`: the listeners that are left move to the front,
and null is stored behind them. -/
def trim (collected : L → Bool) (size : Nat) (listeners : List (Option L)) : Nat × List (Option L) :=
  let kept := (listeners.take size).filter (fun slot => !isCollected collected slot)
  (kept.length, kept ++ (List.replicate (size - kept.length) none ++ listeners.drop size))

/-- `Arrays.copyOf` for a capacity that is not smaller. -/
def copyOf (listeners : List (Option L)) (capacity : Nat) : List (Option L) :=
  listeners ++ List.replicate (capacity - listeners.length) none

/-- `addListener` of a `Generic`. -/
def add (locked : Bool) (collected : L → Bool) (listener : L) (heap : Heap L) (s : Slots) : Heap L × Slots :=
  match s.array with
  | none => create [listener] heap
  | some r =>
      let listeners := s.listeners heap
      let oldCapacity := listeners.length
      if locked then
        let newCapacity := if s.size < oldCapacity then oldCapacity else oldCapacity * 3 / 2 + 1
        (heap ++ [(copyOf listeners newCapacity).set s.size (some listener)], ⟨some heap.length, s.size + 1⟩)
      else if s.size = oldCapacity then
        let (size, trimmed) := trim collected s.size listeners
        if size = oldCapacity then
          (heap ++ [(copyOf trimmed (oldCapacity * 3 / 2 + 1)).set size (some listener)],
            ⟨some heap.length, size + 1⟩)
        else (heap.set r (trimmed.set size (some listener)), ⟨some r, size + 1⟩)
      else (heap.set r (listeners.set s.size (some listener)), ⟨some r, s.size + 1⟩)

/-- The index at which the loop of `removeListener` stops. -/
def indexOf [BEq L] (listener : L) (heap : Heap L) (s : Slots) : Option Nat :=
  (s.registered heap).findIdx? (fun slot => match slot with
    | some l => listener == l
    | none => false)

/-- The general case of `removeListener`: the listeners behind `index` move down,
in the array itself or, under the lock, in a copy. -/
def removeAt (locked : Bool) (index : Nat) (heap : Heap L) (s : Slots) : Heap L × Slots :=
  match s.array with
  | none => (heap, s)
  | some r =>
      let listeners := s.listeners heap
      let moved := listeners.take index ++ (listeners.take s.size).drop (index + 1)
      if locked then
        (heap ++ [moved ++ List.replicate (listeners.length - moved.length) none],
          ⟨some heap.length, s.size - 1⟩)
      else (heap.set r (moved ++ none :: listeners.drop s.size), ⟨some r, s.size - 1⟩)

/-! ## The listeners that are registered -/

/-- The slots in use hold the listeners `ls`. -/
def Represents (heap : Heap L) (s : Slots) (ls : List L) : Prop :=
  s.size = ls.length ∧ ((s.array = none ∧ ls = []) ∨
    ∃ r arr, s.array = some r ∧ heap[r]? = some arr ∧ arr.take ls.length = ls.map some)

theorem represents_empty (heap : Heap L) : Represents heap empty [] := ⟨rfl, Or.inl ⟨rfl, rfl⟩⟩

theorem Represents.registered_eq {heap : Heap L} {s : Slots} {ls : List L} (h : Represents heap s ls) :
    s.registered heap = ls.map some := by
  obtain ⟨hsize, hnone | ⟨r, arr, harray, hget, htake⟩⟩ := h
  · rw [registered, listeners, hnone.1, hnone.2, List.take_nil, List.map_nil]
  · rw [registered, listeners, harray, hsize]
    dsimp only
    rw [List.getD_eq_getElem?_getD, hget]
    exact htake

theorem represents_new {arr : List (Option L)} {ls : List L} (heap : Heap L)
    (h : arr.take ls.length = ls.map some) : Represents (heap ++ [arr]) ⟨some heap.length, ls.length⟩ ls := by
  refine ⟨rfl, Or.inr ⟨heap.length, arr, rfl, ?_, h⟩⟩
  rw [List.getElem?_append_right (Nat.le_refl _), Nat.sub_self, List.getElem?_cons_zero]

theorem represents_stored {arr : List (Option L)} {ls : List L} {heap : Heap L} {r : Nat} (hr : r < heap.length)
    (h : arr.take ls.length = ls.map some) : Represents (heap.set r arr) ⟨some r, ls.length⟩ ls :=
  ⟨rfl, Or.inr ⟨r, arr, rfl, List.getElem?_set_self hr, h⟩⟩

theorem represents_create (ls : List L) (heap : Heap L) :
    Represents (create ls heap).1 (create ls heap).2 ls := by
  apply represents_new
  rw [List.take_of_length_le (by simp)]

theorem take_set_append {arr : List (Option L)} {ls : List L} {l : L} (htake : arr.take ls.length = ls.map some)
    (hroom : ls.length < arr.length) :
    (arr.set ls.length (some l)).take (ls ++ [l]).length = (ls ++ [l]).map some := by
  rw [List.length_append, List.length_singleton, List.take_add_one, List.take_set_of_le (Nat.le_refl _), htake,
    List.getElem?_set_self hroom, List.map_append]
  rfl

theorem take_copyOf {arr : List (Option L)} {n capacity : Nat} (h : n ≤ arr.length) :
    (copyOf arr capacity).take n = arr.take n := by
  rw [copyOf, List.take_append_of_le_length h]

theorem filter_map_some (collected : L → Bool) (ls : List L) :
    (ls.map some).filter (fun slot => !isCollected collected slot) =
      (ls.filter (fun l => !collected l)).map some := by
  rw [List.filter_map]
  rfl

/-- Whether `addListener` compacts the array first. -/
def purges (locked : Bool) (heap : Heap L) (s : Slots) : Bool :=
  !locked && decide (s.size = (s.listeners heap).length)

theorem add_represents {heap : Heap L} {s : Slots} {ls : List L} (h : Represents heap s ls)
    (locked : Bool) (collected : L → Bool) (l : L) :
    Represents (s.add locked collected l heap).1 (s.add locked collected l heap).2
      ((if s.purges locked heap then ls.filter (fun l => !collected l) else ls) ++ [l]) := by
  obtain ⟨hsize, ⟨harray, hnil⟩ | ⟨r, arr, harray, hget, htake⟩⟩ := h
  · rw [add, harray, hnil, List.filter_nil, ite_self]
    exact represents_create [l] heap
  · have hlisteners : s.listeners heap = arr := by
      rw [listeners, harray]
      dsimp only
      rw [List.getD_eq_getElem?_getD, hget, Option.getD_some]
    have hle : ls.length ≤ arr.length := by
      have := congrArg List.length htake
      rw [List.length_take, List.length_map] at this
      omega
    have hr := (List.getElem?_eq_some_iff.mp hget).1
    rw [purges, add, harray]
    dsimp only
    rw [hlisteners, hsize]
    have hplus : ∀ ks : List L, (ks ++ [l]).length = ks.length + 1 := by
      intro ks
      rw [List.length_append, List.length_singleton]
    split
    · rename_i hlocked
      rw [hlocked, Bool.not_true, Bool.false_and, if_neg Bool.false_ne_true, ← hplus ls]
      apply represents_new
      apply take_set_append
      · rw [take_copyOf hle, htake]
      · rw [copyOf, List.length_append, List.length_replicate]
        split
        · omega
        · omega
    · rename_i hlocked
      rw [Bool.eq_false_iff.mpr hlocked, Bool.not_false, Bool.true_and]
      split
      · rename_i hfull
        rw [if_pos (decide_eq_true hfull)]
        have hall : arr = ls.map some := by
          rw [← htake, hfull, List.take_length]
        have hkept : (arr.take ls.length).filter (fun slot => !isCollected collected slot) =
            (ls.filter (fun l => !collected l)).map some := by
          rw [htake, filter_map_some]
        rw [trim]
        dsimp only
        rw [hkept, List.length_map]
        have hfront : ∀ back : List (Option L), ((ls.filter (fun l => !collected l)).map some ++ back).take
            (ls.filter (fun l => !collected l)).length = (ls.filter (fun l => !collected l)).map some := by
          intro back
          rw [List.take_left' (by rw [List.length_map])]
        have hless : (ls.filter (fun l => !collected l)).length ≤ ls.length := List.length_filter_le _ _
        split
        · rw [← hplus]
          apply represents_new
          apply take_set_append
          · rw [take_copyOf (by
              simp only [List.length_append, List.length_map]
              omega), hfront]
          · rw [copyOf]
            simp only [List.length_append, List.length_map, List.length_replicate, List.length_drop]
            omega
        · rw [← hplus]
          apply represents_stored hr
          apply take_set_append
          · exact hfront _
          · simp only [List.length_append, List.length_map, List.length_replicate, List.length_drop]
            omega
      · rename_i hroom
        rw [decide_eq_false hroom, if_neg Bool.false_ne_true, ← hplus ls]
        apply represents_stored hr
        apply take_set_append htake
        omega

theorem add_keeps {heap : Heap L} {s : Slots} {ls : List L} (h : Represents heap s ls)
    (locked : Bool) (collected : L → Bool) (l : L) :
    ∃ kept, (kept = ls ∨ kept = ls.filter (fun l => !collected l)) ∧
      Represents (s.add locked collected l heap).1 (s.add locked collected l heap).2 (kept ++ [l]) := by
  refine ⟨_, ?_, add_represents h locked collected l⟩
  split
  · exact Or.inr rfl
  · exact Or.inl rfl

theorem kept_of_not_collected {collected : L → Bool} (hnone : ∀ x, collected x = false) {kept ls : List L}
    (h : kept = ls ∨ kept = ls.filter (fun l => !collected l)) : kept = ls := by
  rcases h with rfl | rfl
  · rfl
  · apply List.filter_eq_self.mpr
    intro x _
    rw [hnone x]
    rfl

theorem removeAt_represents {heap : Heap L} {s : Slots} {ls : List L} (h : Represents heap s ls)
    (locked : Bool) {index : Nat} (hindex : index < ls.length) :
    Represents (s.removeAt locked index heap).1 (s.removeAt locked index heap).2 (ls.eraseIdx index) := by
  obtain ⟨hsize, ⟨harray, hnil⟩ | ⟨r, arr, harray, hget, htake⟩⟩ := h
  · rw [hnil] at hindex
    exact absurd hindex (Nat.not_lt_zero _)
  · have hlisteners : s.listeners heap = arr := by
      rw [listeners, harray]
      dsimp only
      rw [List.getD_eq_getElem?_getD, hget, Option.getD_some]
    have hr := (List.getElem?_eq_some_iff.mp hget).1
    have hmoved : arr.take index ++ (arr.take ls.length).drop (index + 1) = (ls.eraseIdx index).map some := by
      rw [htake, show arr.take index = (ls.map some).take index by
        rw [← htake, List.take_take, Nat.min_eq_left (by omega)], List.eraseIdx_eq_take_drop_succ, List.map_append,
        List.map_take, List.map_drop]
    have hlen : (ls.eraseIdx index).length = ls.length - 1 := List.length_eraseIdx_of_lt hindex
    have hfront : ∀ back : List (Option L), ((ls.eraseIdx index).map some ++ back).take (ls.eraseIdx index).length =
        (ls.eraseIdx index).map some := by
      intro back
      rw [List.take_left' (by rw [List.length_map])]
    rw [removeAt, harray]
    dsimp only
    rw [hlisteners, hsize, hmoved]
    rw [← hlen]
    split
    · exact represents_new _ (hfront _)
    · exact represents_stored hr (hfront _)

theorem indexOf_represents [BEq L] {heap : Heap L} {s : Slots} {ls : List L} (h : Represents heap s ls) (l : L) :
    s.indexOf l heap = ls.findIdx? (fun x => l == x) := by
  rw [indexOf, h.registered_eq, List.findIdx?_map]
  rfl

/-! ## Slots that are still to be read

A notification that started with the array and size `cur` has read the slots
below `next`.  `Reads` says that it will find the listeners `ls` in the others,
whatever the fields `s` of the helper are by now. -/

/-- The listener that a notification finds; a null slot is `none`. -/
def get (heap : Heap L) (cur : Slots) (i : Nat) : Option L := ((cur.listeners heap)[i]?).getD none

/-- The first slot that the compaction in `add` changes, when it takes place. -/
def trimsFrom (locked : Bool) (collected : L → Bool) (heap : Heap L) (s : Slots) : Option Nat :=
  if locked = false ∧ s.size = (s.listeners heap).length then
    (s.listeners heap).findIdx? (isCollected collected)
  else none

structure Reads (heap : Heap L) (s cur : Slots) (next : Nat) (ls : List L) : Prop where
  length : ls.length = cur.size
  slots : ∀ j l, next ≤ j → ls[j]? = some l →
    ∃ r arr, cur.array = some r ∧ heap[r]? = some arr ∧ arr[j]? = some (some l)
  behind : next < cur.size → cur.array = s.array → cur.size ≤ s.size

section Reads
variable {heap : Heap L} {s cur : Slots} {next : Nat} {ls : List L}

theorem reads_start (h : Represents heap s ls) : Reads heap s s 0 ls := by
  obtain ⟨hsize, ⟨harray, hnil⟩ | ⟨r, arr, harray, hget, htake⟩⟩ := h
  · refine ⟨hsize.symm, ?_, fun _ _ => Nat.le_refl _⟩
    intro j l _ hl
    rw [hnil] at hl
    cases hl
  · refine ⟨hsize.symm, ?_, fun _ _ => Nat.le_refl _⟩
    intro j l _ hl
    refine ⟨r, arr, harray, hget, ?_⟩
    rw [← List.getElem?_take_of_lt (List.getElem?_eq_some_iff.mp hl).1, htake, List.getElem?_map, hl]
    rfl

theorem Reads.get_eq (h : Reads heap s cur next ls) {l : L} (hl : ls[next]? = some l) :
    cur.get heap next = some l := by
  obtain ⟨r, arr, harray, hget, hslot⟩ := h.slots next l (Nat.le_refl _) hl
  rw [get, listeners, harray]
  dsimp only
  rw [List.getD_eq_getElem?_getD, hget, Option.getD_some, hslot]
  rfl

theorem Reads.mono (h : Reads heap s cur next ls) {later : Nat} (hle : next ≤ later) :
    Reads heap s cur later ls :=
  ⟨h.length, fun j l hj hl => h.slots j l (by omega) hl, fun hlt => h.behind (by omega)⟩

theorem Reads.append (h : Reads heap s cur next ls) (more : Heap L) {s' : Slots}
    (hnew : ∀ r, s'.array = some r → heap.length ≤ r) : Reads (heap ++ more) s' cur next ls := by
  refine ⟨h.length, ?_, ?_⟩
  · intro j l hj hl
    obtain ⟨r, arr, harray, hget, hslot⟩ := h.slots j l hj hl
    refine ⟨r, arr, harray, ?_, hslot⟩
    rw [List.getElem?_append_left (List.getElem?_eq_some_iff.mp hget).1, hget]
  · intro hlt heq
    have hlen := h.length
    obtain ⟨l, hl⟩ : ∃ l, ls[next]? = some l := ⟨_, List.getElem?_eq_getElem (by omega)⟩
    obtain ⟨r, arr, harray, hget, -⟩ := h.slots next l (Nat.le_refl _) hl
    have hr := (List.getElem?_eq_some_iff.mp hget).1
    have := hnew r (heq.symm.trans harray)
    omega

theorem Reads.set (h : Reads heap s cur next ls) {r size k : Nat} {arr arr' : List (Option L)}
    (harray : s.array = some r) (hget : heap[r]? = some arr) (hsame : ∀ j < k, arr'[j]? = arr[j]?)
    (hcur : cur.array = some r → cur.size ≤ next ∨ cur.size ≤ k ∧ cur.size ≤ size) :
    Reads (heap.set r arr') ⟨some r, size⟩ cur next ls := by
  have hr := (List.getElem?_eq_some_iff.mp hget).1
  refine ⟨h.length, ?_, ?_⟩
  · intro j l hj hl
    obtain ⟨r', arr₀, harray', hget', hslot⟩ := h.slots j l hj hl
    by_cases hrr : r' = r
    · subst hrr
      have hjlt := (List.getElem?_eq_some_iff.mp hl).1
      have hlen := h.length
      have hbelow := hcur harray'
      rw [hget] at hget'
      cases hget'
      exact ⟨r', arr', harray', List.getElem?_set_self hr, by rw [hsame j (by omega), hslot]⟩
    · exact ⟨r', arr₀, harray', by rw [List.getElem?_set_ne (Ne.symm hrr), hget'], hslot⟩
  · intro hlt heq
    have := hcur heq
    dsimp only
    omega

theorem filter_before_findIdx {p : Option L → Bool} {arr : List (Option L)} {k j : Nat}
    (hk : arr.findIdx? p = some k) (hj : j < k) : (arr.filter (fun slot => !p slot))[j]? = arr[j]? := by
  induction arr generalizing k j with
  | nil => cases hk
  | cons a arr ih =>
    rw [List.findIdx?_cons] at hk
    split at hk
    · cases hk
      omega
    · rename_i ha
      obtain ⟨k', hk', rfl⟩ := Option.map_eq_some_iff.mp hk
      rw [List.filter_cons_of_pos (by simp [ha])]
      cases j with
      | zero => rfl
      | succ j =>
        rw [List.getElem?_cons_succ, List.getElem?_cons_succ]
        exact ih hk' (by omega)

theorem findIdx_le_filter {p : Option L → Bool} {arr : List (Option L)} {k : Nat}
    (hk : arr.findIdx? p = some k) : k ≤ (arr.filter (fun slot => !p slot)).length := by
  by_contra hlt
  have hsame := filter_before_findIdx hk (Nat.lt_of_not_le hlt)
  rw [List.getElem?_eq_none (Nat.le_refl _)] at hsame
  have hkl := (List.findIdx?_eq_some_iff_getElem.mp hk).1
  have := List.getElem?_eq_none_iff.mp hsame.symm
  omega

theorem add_reads {reg : List L} (hreg : Represents heap s reg) (h : Reads heap s cur next ls) {locked : Bool}
    {collected : L → Bool} (l : L) (hclear : ∀ k, trimsFrom locked collected heap s = some k →
      cur.array = s.array → cur.size ≤ next ∨ cur.size ≤ k) :
    Reads (s.add locked collected l heap).1 (s.add locked collected l heap).2 cur next ls := by
  obtain ⟨hsize, ⟨harray, hnil⟩ | ⟨r, arr, harray, hget, htake⟩⟩ := hreg
  · rw [add, harray]
    apply h.append
    intro r hr
    cases hr
    exact Nat.le_refl _
  · have hlisteners : s.listeners heap = arr := by
      rw [listeners, harray]
      dsimp only
      rw [List.getD_eq_getElem?_getD, hget, Option.getD_some]
    have hfresh : ∀ (n : Nat) (r : Nat), (⟨some heap.length, n⟩ : Slots).array = some r → heap.length ≤ r := by
      intro n r hr
      cases hr
      exact Nat.le_refl _
    have hlast : cur.array = some r → cur.size ≤ next ∨ cur.size ≤ s.size := by
      intro hcur
      by_cases hlt : next < cur.size
      · exact Or.inr (h.behind hlt (hcur.trans harray.symm))
      · exact Or.inl (by omega)
    rw [add, harray]
    dsimp only
    rw [hlisteners]
    split
    · exact h.append _ (hfresh _)
    · rename_i hunlocked
      split
      · rename_i hfull
        rw [trim, hfull, List.take_length]
        dsimp only
        split
        · exact h.append _ (hfresh _)
        · rename_i hless
          -- something is collected, from slot `k` on
          obtain ⟨k, hk⟩ : ∃ k, arr.findIdx? (isCollected collected) = some k := by
            cases hfind : arr.findIdx? (isCollected collected) with
            | some k => exact ⟨k, rfl⟩
            | none =>
              have hnone := List.findIdx?_eq_none_iff.mp hfind
              have hall : arr.filter (fun slot => !isCollected collected slot) = arr := by
                apply List.filter_eq_self.mpr
                intro slot hslot
                rw [hnone slot hslot]
                rfl
              rw [hall] at hless
              exact absurd rfl hless
          have hkle := findIdx_le_filter hk
          have htrims : trimsFrom locked collected heap s = some k := by
            rw [trimsFrom, hlisteners, if_pos ⟨by simpa using hunlocked, hfull⟩, hk]
          apply h.set harray hget (k := k)
          · intro j hj
            rw [List.getElem?_set_ne (by omega), List.getElem?_append_left (by omega)]
            exact filter_before_findIdx hk hj
          · intro hcur
            have := hclear k htrims (hcur.trans harray.symm)
            omega
      · apply h.set harray hget (k := s.size)
        · intro j hj
          rw [List.getElem?_set_ne (by omega)]
        · intro hcur
          have := hlast hcur
          omega

theorem removeAt_reads {reg : List L} (hreg : Represents heap s reg) (h : Reads heap s cur next ls) {locked : Bool}
    {index : Nat} (hindex : index < reg.length) (hclear : locked = false →
      cur.array = s.array → cur.size ≤ next ∨ cur.size ≤ index) :
    Reads (s.removeAt locked index heap).1 (s.removeAt locked index heap).2 cur next ls := by
  obtain ⟨hsize, ⟨harray, hnil⟩ | ⟨r, arr, harray, hget, htake⟩⟩ := hreg
  · rw [hnil] at hindex
    exact absurd hindex (Nat.not_lt_zero _)
  · have hlisteners : s.listeners heap = arr := by
      rw [listeners, harray]
      dsimp only
      rw [List.getD_eq_getElem?_getD, hget, Option.getD_some]
    have hle : reg.length ≤ arr.length := by
      have := congrArg List.length htake
      rw [List.length_take, List.length_map] at this
      omega
    rw [removeAt, harray]
    dsimp only
    rw [hlisteners]
    split
    · apply h.append
      intro r' hr'
      cases hr'
      exact Nat.le_refl _
    · rename_i hunlocked
      apply h.set harray hget (k := index)
      · intro j hj
        rw [List.append_assoc, List.getElem?_append_left (by rw [List.length_take]; omega),
          List.getElem?_take_of_lt hj]
      · intro hcur
        have := hclear (by simpa using hunlocked) (hcur.trans harray.symm)
        omega

end Reads

end Slots
end OpenJfx.Binding
