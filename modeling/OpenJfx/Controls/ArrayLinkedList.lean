import OpenJfx.Lib.Arrays
import OpenJfx.Lib.Run

/-! # `VirtualFlow.ArrayLinkedList`

A list kept in the middle of an array.  The elements are references, and `none` is
null.  An exception comes from the first access of a call to the array, so that it
leaves the list as it was. -/
set_option autoImplicit false
namespace OpenJfx.Controls
open OpenJfx.Lib

structure ArrayLinkedList (α : Type) where
  array : List (Option α)
  firstIndex : Int
  lastIndex : Int

namespace ArrayLinkedList
variable {α : Type}

def new : ArrayLinkedList α := ⟨List.replicate 50 none, -1, -1⟩

section Code
variable (l : ArrayLinkedList α)

def getFirst : Except Exn (Option α) := if l.firstIndex = -1 then .ok none else readAt l.array l.firstIndex

def getLast : Except Exn (Option α) := if l.lastIndex = -1 then .ok none else readAt l.array l.lastIndex

def addFirst (cell : Option α) : Except Exn (ArrayLinkedList α) :=
  if l.firstIndex = -1 then
    let middle : Int := (l.array.length / 2 : Nat)
    (writeAt l.array middle cell).map fun array => ⟨array, middle, middle⟩
  else if l.firstIndex = 0 then .ok { l with array := cell :: l.array, lastIndex := l.lastIndex + 1 }
  else (writeAt l.array (l.firstIndex - 1) cell).map fun array =>
    { l with array := array, firstIndex := l.firstIndex - 1 }

def addLast (cell : Option α) : Except Exn (ArrayLinkedList α) :=
  if l.firstIndex = -1 then
    let middle : Int := (l.array.length / 2 : Nat)
    (writeAt l.array middle cell).map fun array => ⟨array, middle, middle⟩
  else if l.lastIndex = l.array.length - 1 then
    .ok { l with array := l.array ++ [cell], lastIndex := l.lastIndex + 1 }
  else (writeAt l.array (l.lastIndex + 1) cell).map fun array =>
    { l with array := array, lastIndex := l.lastIndex + 1 }

def size : Int := if l.firstIndex = -1 then 0 else l.lastIndex - l.firstIndex + 1

def isEmpty : Bool := l.firstIndex = -1

def get (index : Int) : Except Exn (Option α) :=
  if index > l.lastIndex - l.firstIndex ∨ index < 0 then .ok none else readAt l.array (l.firstIndex + index)

def clear : ArrayLinkedList α := ⟨l.array.map fun _ => none, -1, -1⟩

/-- The loop of `remove` from `i` on, with the number of its turns. -/
def shift : Nat → Int → List (Option α) → Except Exn (List (Option α))
  | 0, _, array => .ok array
  | turns + 1, i, array =>
      (readAt array i).bind fun cell => (writeAt array (i - 1) cell).bind fun array => shift turns (i + 1) array

def remove (index : Int) : Except Exn (Option α × ArrayLinkedList α) :=
  if index > l.lastIndex - l.firstIndex ∨ index < 0 then .error .arrayIndexOutOfBounds
  else if index = 0 then
    (readAt l.array l.firstIndex).bind fun cell => (writeAt l.array l.firstIndex none).map fun array =>
      (cell, if l.firstIndex = l.lastIndex then ⟨array, -1, -1⟩ else { l with array := array, firstIndex := l.firstIndex + 1 })
  else if index = l.lastIndex - l.firstIndex then
    (readAt l.array l.lastIndex).bind fun cell => (writeAt l.array l.lastIndex none).map fun array =>
      (cell, { l with array := array, lastIndex := l.lastIndex - 1 })
  else
    (readAt l.array (l.firstIndex + index)).bind fun cell =>
    (writeAt l.array (l.firstIndex + index) none).bind fun array =>
    (shift (l.lastIndex - (l.firstIndex + index)).toNat (l.firstIndex + index + 1) array).bind fun array =>
    (writeAt array l.lastIndex none).map fun array => (cell, { l with array := array, lastIndex := l.lastIndex - 1 })

def removeFirst : Except Exn (Option α × ArrayLinkedList α) := if l.isEmpty then .ok (none, l) else l.remove 0

def removeLast : Except Exn (Option α × ArrayLinkedList α) :=
  if l.isEmpty then .ok (none, l) else l.remove (l.lastIndex - l.firstIndex)

end Code

inductive Call (α : Type) where
  | addFirst (cell : Option α)
  | addLast (cell : Option α)
  | remove (index : Int)
  | removeFirst
  | removeLast
  | clear
  | get (index : Int)
deriving DecidableEq, Repr

/-- The answer of a call, null where it has none, and the list afterwards. -/
def call (l : ArrayLinkedList α) : Call α → Except Exn (Option α × ArrayLinkedList α)
  | .addFirst cell => (l.addFirst cell).map fun l => (none, l)
  | .addLast cell => (l.addLast cell).map fun l => (none, l)
  | .remove index => l.remove index
  | .removeFirst => l.removeFirst
  | .removeLast => l.removeLast
  | .clear => .ok (none, l.clear)
  | .get index => (l.get index).map fun cell => (cell, l)

/-! ## The plain list -/

/-- The same calls on a plain list; `none` is an exception, as for an index out
of range. -/
def plainCall (items : List (Option α)) : Call α → Option (Option α × List (Option α))
  | .addFirst cell => some (none, cell :: items)
  | .addLast cell => some (none, items ++ [cell])
  | .remove index =>
      if 0 ≤ index ∧ index < items.length then some (items[index.toNat]?.join, items.eraseIdx index.toNat) else none
  | .removeFirst => some (items.head?.join, items.tail)
  | .removeLast => some (items.getLast?.join, items.dropLast)
  | .clear => some (none, [])
  | .get index => if 0 ≤ index ∧ index < items.length then some (items[index.toNat]?.join, items) else none

/-- The calls of the plain list, but an index out of range reads null; only the
index 0 of an empty list is refused. -/
def lenientCall (items : List (Option α)) (c : Call α) : Option (Option α × List (Option α)) :=
  match c with
  | .get index =>
      if 0 ≤ index ∧ index < items.length then some (items[index.toNat]?.join, items)
      else if index = 0 then none
      else some (none, items)
  | c => plainCall items c

/-- What can be seen of the list, and the slots outside its indices. -/
structure Shows (l : ArrayLinkedList α) (items : List (Option α)) : Prop where
  size : l.size = items.length
  first : l.getFirst = .ok items.head?.join
  last : l.getLast = .ok items.getLast?.join
  get : ∀ i : Nat, i < items.length → l.get i = .ok items[i]?.join
  slots : ∀ i : Nat, i < l.array.length → (i : Int) < l.firstIndex ∨ l.lastIndex < i → l.array[i]? = some none

section Reference
variable (reference : List (Option α) → Call α → Option (Option α × List (Option α)))

def step (c : Call α) (s : ArrayLinkedList α × List (Option α)) : ArrayLinkedList α × List (Option α) :=
  (((s.1.call c).toOption.map Prod.snd).getD s.1, ((reference s.2 c).map Prod.snd).getD s.2)

/-- The call has the answer it has on the other list, and leaves the same elements. -/
def Agrees (c : Call α) (s : ArrayLinkedList α × List (Option α)) : Prop :=
  (s.1.call c).toOption.map Prod.fst = (reference s.2 c).map Prod.fst ∧
    Shows (step reference c s).1 (step reference c s).2

end Reference

/-! ## The elements in the array -/

/-- The slots in front of the elements and behind them are null. -/
inductive Holds : ArrayLinkedList α → List (Option α) → Prop where
  | empty (n : Nat) (hn : 0 < n) : Holds ⟨List.replicate n none, -1, -1⟩ []
  | between (a b : Nat) (items : List (Option α)) (nonempty : items ≠ []) (last : Int)
      (hlast : last = a + items.length - 1) :
      Holds ⟨List.replicate a none ++ (items ++ List.replicate b none), a, last⟩ items

theorem writeAt_middle {n : Nat} (hn : 0 < n) (cell : Option α) :
    writeAt (List.replicate n none) ((n / 2 : Nat) : Int) cell =
      .ok (List.replicate (n / 2) none ++ ([cell] ++ List.replicate (n - n / 2 - 1) none)) := by
  have hsplit : List.replicate n (none : Option α) = List.replicate (n / 2) none ++ none :: List.replicate (n - n / 2 - 1) none := by
    rw [← List.replicate_succ, List.replicate_append_replicate]
    congr 1
    omega
  rw [hsplit, writeAt_split (by simp)]
  rfl

section Calls
variable {l : ArrayLinkedList α} {items : List (Option α)}

theorem addFirst_holds (h : Holds l items) (cell : Option α) :
    ∃ l', l.addFirst cell = .ok l' ∧ Holds l' (cell :: items) := by
  cases h with
  | empty n hn =>
    refine ⟨⟨List.replicate (n / 2) none ++ ([cell] ++ List.replicate (n - n / 2 - 1) none), (n / 2 : Nat), (n / 2 : Nat)⟩, ?_, ?_⟩
    · rw [addFirst, if_pos rfl]
      simp only [List.length_replicate, writeAt_middle hn, Except.map]
    · exact .between _ _ [cell] (by simp) _ (by simp)
  | between a b items nonempty last hlast =>
    rw [addFirst]
    simp only
    rw [if_neg (by omega)]
    cases a with
    | zero =>
      rw [if_pos Nat.cast_zero]
      exact ⟨_, rfl, .between 0 b (cell :: items) (by simp) _ (by rw [hlast, List.length_cons]; omega)⟩
    | succ a =>
      rw [if_neg (by omega), List.replicate_succ', List.append_assoc, List.singleton_append,
        writeAt_split (by simp)]
      refine ⟨_, rfl, ?_⟩
      have hholds := Holds.between a b (cell :: items) (by simp) last (by rw [hlast, List.length_cons]; omega)
      have hindex : ((a + 1 : Nat) : Int) - 1 = a := by omega
      rw [hindex]
      exact hholds

theorem addLast_holds (h : Holds l items) (cell : Option α) :
    ∃ l', l.addLast cell = .ok l' ∧ Holds l' (items ++ [cell]) := by
  cases h with
  | empty n hn =>
    refine ⟨⟨List.replicate (n / 2) none ++ ([cell] ++ List.replicate (n - n / 2 - 1) none), (n / 2 : Nat), (n / 2 : Nat)⟩, ?_, ?_⟩
    · rw [addLast, if_pos rfl]
      simp only [List.length_replicate, writeAt_middle hn, Except.map]
    · exact .between _ _ [cell] (by simp) _ (by simp)
  | between a b items nonempty last hlast =>
    have hlength : (items ++ [cell]).length = items.length + 1 := by simp
    rw [addLast]
    simp only
    rw [if_neg (by omega)]
    cases b with
    | zero =>
      rw [if_pos (by simp only [List.length_append, List.length_replicate]; omega)]
      refine ⟨_, rfl, ?_⟩
      have hholds := Holds.between a 0 (items ++ [cell]) (by simp) (last + 1) (by omega)
      simp only [List.replicate_zero, List.append_nil] at hholds ⊢
      rw [List.append_assoc]
      exact hholds
    | succ b =>
      rw [if_neg (by simp only [List.length_append, List.length_replicate]; omega), List.replicate_succ,
        ← List.append_assoc, writeAt_split (by simp only [List.length_append, List.length_replicate]; omega)]
      refine ⟨_, rfl, ?_⟩
      have hholds := Holds.between a b (items ++ [cell]) (by simp) (last + 1) (by omega)
      simp only [List.append_assoc, List.singleton_append] at hholds ⊢
      exact hholds

theorem get_holds (h : Holds l items) {i : Nat} (hi : i < items.length) : l.get i = .ok items[i]?.join := by
  cases h with
  | empty => exact absurd hi (by simp)
  | between a b items nonempty last hlast =>
    rw [ArrayLinkedList.get]
    simp only
    rw [if_neg (by omega)]
    have hindex : (a : Int) + i = ((a + i : Nat) : Int) := by omega
    rw [hindex, readAt_natCast _ _ (by simp only [List.length_append, List.length_replicate]; omega)]
    rw [List.getElem_append_right (by simp), List.getElem_append_left (by simp; omega), List.getElem?_eq_getElem hi]
    simp

theorem shift_append (front cells back : List (Option α)) (cell : Option α) :
    shift cells.length (front.length + 1 : Nat) (front ++ cell :: (cells ++ back)) =
      .ok (front ++ (cells ++ (cell :: cells).getLast (by simp) :: back)) := by
  induction cells generalizing front cell with
  | nil => rfl
  | cons next cells ih =>
    have hread : readAt (front ++ cell :: (next :: cells ++ back)) (front.length + 1 : Nat) = .ok next := by
      have := @readAt_split _ (front ++ [cell]) (cells ++ back) next (front.length + 1 : Nat) (by simp)
      simpa using this
    have hwrite : writeAt (front ++ cell :: (next :: cells ++ back)) ((front.length + 1 : Nat) - 1 : Int) next =
        .ok ((front ++ [next]) ++ next :: (cells ++ back)) := by
      rw [writeAt_split (by omega)]
      simp
    have hrest := ih (front ++ [next]) next
    rw [List.length_cons, shift, hread]
    simp only [Except.bind, hwrite]
    have hindex : ((front.length + 1 : Nat) : Int) + 1 = ((front ++ [next]).length + 1 : Nat) := by simp
    rw [hindex, hrest]
    simp

theorem remove_holds (h : Holds l items) {i : Nat} (hi : i < items.length) :
    ∃ l', l.remove i = .ok (items[i]?.join, l') ∧ Holds l' (items.eraseIdx i) := by
  cases h with
  | empty => exact absurd hi (by simp)
  | between a b items nonempty last hlast =>
    obtain ⟨front, x, back, rfl, rfl⟩ : ∃ front x back, items = front ++ x :: back ∧ i = front.length :=
      ⟨items.take i, items[i], items.drop (i + 1), by rw [← List.drop_eq_getElem_cons hi, List.take_append_drop],
        by rw [List.length_take_of_le (by omega)]⟩
    have hget : (front ++ x :: back)[front.length]?.join = x := by simp
    have herase : (front ++ x :: back).eraseIdx front.length = front ++ back := by simp [List.eraseIdx_append_of_length_le]
    have hlength : (front ++ x :: back).length = front.length + back.length + 1 := by
      rw [List.length_append, List.length_cons]
      omega
    rw [hget, herase, remove]
    simp only
    rw [if_neg (by omega)]
    have hcut : List.replicate a none ++ ((front ++ x :: back) ++ List.replicate b none) =
        (List.replicate a none ++ front) ++ x :: (back ++ List.replicate b none) := by simp
    by_cases hfirst : (front.length : Int) = 0
    · -- the first element
      obtain rfl : front = [] := List.length_eq_zero_iff.mp (by omega)
      rw [if_pos hfirst, hcut, List.append_nil, readAt_split (by simp), Except.bind, writeAt_split (by simp)]
      refine ⟨_, rfl, ?_⟩
      have hnull : List.replicate a (none : Option α) ++ none :: (back ++ List.replicate b none) =
          List.replicate (a + 1) none ++ (back ++ List.replicate b none) := by
        rw [List.replicate_succ', List.append_assoc, List.singleton_append]
      rw [hnull]
      by_cases hone : (a : Int) = last
      · obtain rfl : back = [] := List.length_eq_zero_iff.mp (by simp only [List.length_nil] at hlength; omega)
        rw [if_pos hone, List.nil_append, List.replicate_append_replicate]
        exact .empty _ (by omega)
      · rw [if_neg hone]
        have hback : back ≠ [] :=
          List.ne_nil_of_length_pos (by simp only [List.length_nil] at hlength; omega)
        have hholds := Holds.between (a + 1) b back hback last (by simp only [List.length_nil] at hlength; omega)
        exact hholds
    · rw [if_neg hfirst]
      have hfront : front ≠ [] := fun hnil => hfirst (by rw [hnil]; rfl)
      by_cases hend : (front.length : Int) = last - a
      · -- the last one
        obtain rfl : back = [] := List.length_eq_zero_iff.mp (by omega)
        rw [if_pos hend, hcut, readAt_split (by simp; omega), Except.bind, writeAt_split (by simp; omega)]
        refine ⟨_, rfl, ?_⟩
        have hholds := Holds.between a (b + 1) front hfront (last - 1) (by omega)
        rw [List.replicate_succ] at hholds
        simp only [List.nil_append, List.append_nil, List.append_assoc]
        exact hholds
      · -- one in between
        rw [if_neg hend, hcut, readAt_split (by simp), Except.bind, writeAt_split (by simp)]
        have hturns : (last - (a + (front.length : Int))).toNat = back.length := by omega
        have hindex : (a : Int) + front.length + 1 = ((List.replicate a (none : Option α) ++ front).length + 1 : Nat) := by
          simp
        rw [Except.bind, hturns, hindex, shift_append]
        have hback : back ≠ [] := List.ne_nil_of_length_pos (by omega)
        rw [List.getLast_cons hback, Except.bind, ← List.append_assoc, writeAt_split (by simp; omega)]
        refine ⟨_, rfl, ?_⟩
        have hholds := Holds.between a (b + 1) (front ++ back) (by simp [hfront]) (last - 1)
          (by rw [List.length_append]; omega)
        rw [List.replicate_succ] at hholds
        simp only [List.append_assoc] at hholds ⊢
        exact hholds

theorem Holds.length_pos (h : Holds l items) : 0 < l.array.length := by
  cases h with
  | empty n hn => rw [List.length_replicate]; exact hn
  | between a b items nonempty last hlast =>
    have := List.length_pos_iff.mpr nonempty
    simp only [List.length_append]
    omega

theorem Holds.isEmpty_iff (h : Holds l items) : l.isEmpty = true ↔ items = [] := by
  cases h with
  | empty n hn => simp [isEmpty]
  | between a b items nonempty last hlast =>
    simp only [isEmpty, decide_eq_true_eq]
    exact ⟨fun hneg => by omega, fun hnil => absurd hnil nonempty⟩

theorem clear_holds (h : Holds l items) : Holds l.clear [] := by
  have hmap : l.array.map (fun _ => (none : Option α)) = List.replicate l.array.length none := List.map_const' ..
  rw [clear, hmap]
  exact .empty _ h.length_pos

theorem Holds.shows (h : Holds l items) : Shows l items := by
  cases h with
  | empty n hn =>
    refine ⟨rfl, rfl, rfl, fun i hi => absurd hi (by simp), fun i hi _ => ?_⟩
    rw [List.length_replicate] at hi
    exact List.getElem?_replicate_of_lt hi
  | between a b items nonempty last hlast =>
    have hpos := List.length_pos_iff.mpr nonempty
    have hget := fun {i} => get_holds (Holds.between a b items nonempty last hlast) (i := i)
    have hread : ∀ i : Nat, i < items.length →
        readAt (List.replicate a none ++ (items ++ List.replicate b none)) ((a : Int) + i) = .ok items[i]?.join := by
      intro i hi
      rw [← hget hi, ArrayLinkedList.get]
      simp only
      rw [if_neg (by omega)]
    refine ⟨?_, ?_, ?_, fun i hi => hget hi, fun i hi hout => ?_⟩
    · simp only [size]
      rw [if_neg (by omega)]
      omega
    · have hfirst := hread 0 hpos
      rw [getFirst]
      simp only
      rw [if_neg (by omega), List.head?_eq_getElem?, ← hfirst]
      simp
    · have hindex : last = (a : Int) + (items.length - 1 : Nat) := by omega
      rw [getLast]
      simp only
      rw [if_neg (by omega), List.getLast?_eq_getElem?, hindex, hread _ (by omega)]
    · simp only [List.length_append, List.length_replicate] at hi hout
      rcases hout with hfront | hback
      · rw [List.getElem?_append_left (by rw [List.length_replicate]; omega)]
        exact List.getElem?_replicate_of_lt (by omega)
      · rw [← List.append_assoc, List.getElem?_append_right (by rw [List.length_append, List.length_replicate]; omega)]
        rw [List.length_append, List.length_replicate]
        exact List.getElem?_replicate_of_lt (by omega)

theorem get_outside (h : Holds l items) {index : Int} (outside : ¬ (0 ≤ index ∧ index < items.length)) :
    l.get index = if index = 0 then .error .arrayIndexOutOfBounds else .ok none := by
  cases h with
  | empty n hn =>
    by_cases hzero : index = 0
    · subst hzero
      rfl
    · rw [ArrayLinkedList.get, if_pos (by simp only; omega), if_neg hzero]
  | between a b items nonempty last hlast =>
    have := List.length_pos_iff.mpr nonempty
    rw [ArrayLinkedList.get, if_pos (by simp only; omega), if_neg (by omega)]

theorem call_holds (h : Holds l items) (c : Call α) :
    (∃ answer l' items', l.call c = .ok (answer, l') ∧ lenientCall items c = some (answer, items') ∧ Holds l' items') ∨
      (l.call c).toOption = none ∧ lenientCall items c = none := by
  cases c with
  | addFirst cell =>
    obtain ⟨l', hadd, hholds⟩ := addFirst_holds h cell
    exact .inl ⟨none, l', _, by rw [call, hadd]; rfl, rfl, hholds⟩
  | addLast cell =>
    obtain ⟨l', hadd, hholds⟩ := addLast_holds h cell
    exact .inl ⟨none, l', _, by rw [call, hadd]; rfl, rfl, hholds⟩
  | remove index =>
    by_cases hindex : 0 ≤ index ∧ index < items.length
    · obtain ⟨i, rfl⟩ := Int.eq_ofNat_of_zero_le hindex.1
      obtain ⟨l', hremove, hholds⟩ := remove_holds h (i := i) (by omega)
      refine .inl ⟨_, l', _, hremove, ?_, hholds⟩
      show plainCall items (.remove i) = _
      rw [plainCall, if_pos hindex, Int.toNat_natCast]
    · refine .inr ⟨?_, show plainCall items (.remove index) = none by rw [plainCall, if_neg hindex]⟩
      rw [call, remove]
      cases h with
      | empty n hn =>
        by_cases hzero : index = 0
        · subst hzero
          rfl
        · rw [if_pos (by simp only; omega)]
          rfl
      | between a b items nonempty last hlast =>
        rw [if_pos (by simp only; omega)]
        rfl
  | removeFirst =>
    rw [call, removeFirst]
    by_cases hnil : items = []
    · rw [if_pos (h.isEmpty_iff.mpr hnil)]
      subst hnil
      exact .inl ⟨none, l, [], rfl, rfl, h⟩
    · rw [if_neg (fun hempty => hnil (h.isEmpty_iff.mp hempty))]
      obtain ⟨l', hremove, hholds⟩ := remove_holds h (List.length_pos_iff.mpr hnil)
      rw [← List.head?_eq_getElem?, List.eraseIdx_zero] at *
      exact .inl ⟨_, l', _, hremove, rfl, hholds⟩
  | removeLast =>
    rw [call, removeLast]
    by_cases hnil : items = []
    · rw [if_pos (h.isEmpty_iff.mpr hnil)]
      subst hnil
      exact .inl ⟨none, l, [], rfl, rfl, h⟩
    · rw [if_neg (fun hempty => hnil (h.isEmpty_iff.mp hempty))]
      have hpos := List.length_pos_iff.mpr hnil
      obtain ⟨l', hremove, hholds⟩ := remove_holds h (i := items.length - 1) (by omega)
      have hindex : l.lastIndex - l.firstIndex = (items.length - 1 : Nat) := by
        cases h with
        | empty => exact absurd rfl hnil
        | between a b items nonempty last hlast => simp only; omega
      rw [← List.getLast?_eq_getElem?, List.eraseIdx_length_sub_one] at *
      exact .inl ⟨_, l', _, by rw [hindex]; exact hremove, rfl, hholds⟩
  | clear => exact .inl ⟨none, _, [], rfl, rfl, clear_holds h⟩
  | get index =>
    by_cases inside : 0 ≤ index ∧ index < items.length
    · obtain ⟨i, rfl⟩ := Int.eq_ofNat_of_zero_le inside.1
      refine .inl ⟨_, l, items, by rw [call, get_holds h (by omega)]; rfl, ?_, h⟩
      rw [lenientCall, if_pos inside, Int.toNat_natCast]
    · rw [call, get_outside h inside, lenientCall, if_neg inside]
      by_cases hzero : index = 0
      · rw [if_pos hzero, if_pos hzero]
        exact .inr ⟨rfl, rfl⟩
      · rw [if_neg hzero, if_neg hzero]
        exact .inl ⟨none, l, items, rfl, rfl, h⟩

end Calls

/-! ## Runs -/

section Runs
variable {s : ArrayLinkedList α × List (Option α)}

theorem agrees_of_holds (h : Holds s.1 s.2) (c : Call α) : Agrees lenientCall c s := by
  obtain ⟨l, items⟩ := s
  unfold Agrees step
  rcases call_holds h c with ⟨answer, l', items', hcall, hlenient, hholds⟩ | ⟨hcall, hlenient⟩
  · rw [hcall, hlenient]
    exact ⟨rfl, hholds.shows⟩
  · rw [hcall, hlenient]
    exact ⟨rfl, h.shows⟩

theorem step_holds (h : Holds s.1 s.2) (c : Call α) : Holds (step lenientCall c s).1 (step lenientCall c s).2 := by
  obtain ⟨l, items⟩ := s
  unfold step
  rcases call_holds h c with ⟨answer, l', items', hcall, hlenient, hholds⟩ | ⟨hcall, hlenient⟩
  · rw [hcall, hlenient]
    exact hholds
  · rw [hcall, hlenient]
    exact h

theorem Holds.agrees_along (h : Holds s.1 s.2) (calls : List (Call α)) :
    Guarded (Agrees lenientCall) (step lenientCall) calls s := by
  induction calls generalizing s with
  | nil => trivial
  | cons c calls ih => exact ⟨agrees_of_holds h c, ih (step_holds h c)⟩

end Runs

/-- In every run each call has the answer it has on the plain list, where an
index out of range reads null except for `get(0)` of the empty list, and leaves
the same elements. -/
theorem calls_refine_list (calls : List (Call α)) :
    Guarded (Agrees lenientCall) (step lenientCall) calls ((new, []) : ArrayLinkedList α × List (Option α)) :=
  Holds.agrees_along (.empty 50 (by decide)) calls

/-- A plain list refuses `get(1)` while it is empty; this one answers null. -/
theorem second_of_empty_null :
    (new : ArrayLinkedList Nat).get 1 = .ok none ∧ plainCall ([] : List (Option Nat)) (.get 1) = none ∧
      ¬ ∀ calls : List (Call Nat), Guarded (Agrees plainCall) (step plainCall) calls (new, []) := by
  refine ⟨rfl, rfl, ?_⟩
  intro agrees
  obtain ⟨⟨hanswer, -⟩, -⟩ := agrees [.get 1]
  cases hanswer

end ArrayLinkedList
end OpenJfx.Controls
