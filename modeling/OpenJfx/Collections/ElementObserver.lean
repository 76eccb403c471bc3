import OpenJfx.Lib.Positions
import OpenJfx.Lib.Run
import Mathlib.Data.List.Perm.Basic
import Mathlib.Logic.Function.Basic

/-! # Observed elements of a list

A list wrapper with an extractor registers one listener per element at the
observables of that element, and counts in `elementsMap` how often the element
occurs. Elements are identities; an absent one is `null`. -/
set_option autoImplicit false
namespace OpenJfx.Collections
open OpenJfx.Lib

/-! ## Observables -/

section Observables
variable {O L : Type} [DecidableEq O] [DecidableEq L]

def addListener (o : O) (l : L) (listeners : O → List L) : O → List L :=
  Function.update listeners o (listeners o ++ [l])

def removeListener (o : O) (l : L) (listeners : O → List L) : O → List L :=
  Function.update listeners o ((listeners o).erase l)

def addToAll (os : List O) (l : L) (listeners : O → List L) : O → List L :=
  os.foldl (fun listeners o => addListener o l listeners) listeners

def removeFromAll (os : List O) (l : L) (listeners : O → List L) : O → List L :=
  os.foldl (fun listeners o => removeListener o l listeners) listeners

theorem count_addToAll (os : List O) (l l' : L) (listeners : O → List L) (o : O) :
    (addToAll os l listeners o).count l' = (listeners o).count l' + if l' = l then os.count o else 0 := by
  induction os generalizing listeners with
  | nil => simp [addToAll]
  | cons o' os ih =>
    rw [addToAll, List.foldl_cons, ← addToAll, ih, addListener]
    by_cases ho : o = o'
    · subst ho
      rw [Function.update_self, List.count_append, List.count_cons_self]
      by_cases hl : l' = l
      · subst hl
        simp
        omega
      · simp [hl, Ne.symm hl]
    · rw [Function.update_of_ne ho, List.count_cons_of_ne (Ne.symm ho)]

theorem count_removeFromAll (os : List O) (l l' : L) (listeners : O → List L) (o : O) :
    (removeFromAll os l listeners o).count l' = (listeners o).count l' - if l' = l then os.count o else 0 := by
  induction os generalizing listeners with
  | nil => simp [removeFromAll]
  | cons o' os ih =>
    rw [removeFromAll, List.foldl_cons, ← removeFromAll, ih, removeListener]
    by_cases ho : o = o'
    · subst ho
      rw [Function.update_self, List.count_erase, List.count_cons_self]
      by_cases hl : l' = l
      · subst hl
        simp
        omega
      · simp [hl, Ne.symm hl]
    · rw [Function.update_of_ne ho, List.count_cons_of_ne (Ne.symm ho)]

end Observables

/-! ## The wrapper -/

/-- The listener of an element, by the number of the call that generated it, and the
number of its occurrences. -/
structure ElementsMapElement where
  listener : Nat
  counter : Nat
deriving DecidableEq, Repr

/-- An invalidation listener of the wrapper, by the element it was generated for and
the number of the call. -/
structure ElementListener (E : Type) where
  element : E
  serial : Nat
deriving DecidableEq, Repr

structure ObservableListWrapper (E O : Type) where
  backingList : List (Option E)
  elementsMap : E → Option ElementsMapElement
  listeners : O → List (ElementListener E)
  generated : Nat

namespace ObservableListWrapper
variable {E O : Type} [DecidableEq E] [DecidableEq O]

section Operations
variable (extractor : E → List O)

def attachListener (element : Option E) (w : ObservableListWrapper E O) : ObservableListWrapper E O :=
  match element with
  | none => w
  | some e =>
      match w.elementsMap e with
      | some el =>
          { w with elementsMap := Function.update w.elementsMap e (some { el with counter := el.counter + 1 }) }
      | none =>
          { w with
            elementsMap := Function.update w.elementsMap e (some ⟨w.generated, 1⟩)
            listeners := addToAll (extractor e) ⟨e, w.generated⟩ w.listeners
            generated := w.generated + 1 }

/-- `ElementObserver.detachListener`. The listener goes whatever the counter says. -/
def detachListener (element : Option E) (w : ObservableListWrapper E O) :
    Outcome Exn (ObservableListWrapper E O) :=
  match element with
  | none => .done w
  | some e =>
      match w.elementsMap e with
      | none => .thrown .nullPointer w
      | some el =>
          .done { w with
            listeners := removeFromAll (extractor e) ⟨e, el.listener⟩ w.listeners
            elementsMap := Function.update w.elementsMap e
              (if el.counter - 1 = 0 then none else some { el with counter := el.counter - 1 }) }

def create (list : List (Option E)) : ObservableListWrapper E O :=
  list.foldl (fun w element => attachListener extractor element w) ⟨list, fun _ => none, fun _ => [], 0⟩

def doAdd (index : Int) (element : Option E) (w : ObservableListWrapper E O) :
    Outcome Exn (ObservableListWrapper E O) :=
  let w := attachListener extractor element w
  if 0 ≤ index ∧ index ≤ w.backingList.length then
    .done { w with backingList := w.backingList.insertIdx index.toNat element }
  else .thrown .indexOutOfBounds w

def doSet (index : Int) (element : Option E) (w : ObservableListWrapper E O) :
    Outcome Exn (ObservableListWrapper E O) :=
  match readAt w.backingList index with
  | .error _ => .thrown .indexOutOfBounds w
  | .ok removed =>
      (detachListener extractor removed { w with backingList := w.backingList.set index.toNat element }).map
        (attachListener extractor element)

def doRemove (index : Int) (w : ObservableListWrapper E O) : Outcome Exn (ObservableListWrapper E O) :=
  match readAt w.backingList index with
  | .error _ => .thrown .indexOutOfBounds w
  | .ok removed => detachListener extractor removed { w with backingList := w.backingList.eraseIdx index.toNat }

def clear (w : ObservableListWrapper E O) : Outcome Exn (ObservableListWrapper E O) :=
  (Outcome.run (detachListener extractor) w.backingList w).map (fun w => { w with backingList := [] })

/-- `addAll(c)`: every element is added at the end. -/
def addAll (elements : List (Option E)) (w : ObservableListWrapper E O) : Outcome Exn (ObservableListWrapper E O) :=
  Outcome.run (fun element w => doAdd extractor w.backingList.length element w) elements w

/-- `addAll(index, c)`, with the range check of `AbstractList`. -/
def addAllAt (index : Int) (elements : List (Option E)) (w : ObservableListWrapper E O) :
    Outcome Exn (ObservableListWrapper E O) :=
  if 0 ≤ index ∧ index ≤ w.backingList.length then
    Outcome.run (fun (element, i) w => doAdd extractor i element w)
      (elements.zip (intRange index (index + elements.length))) w
  else .thrown .indexOutOfBounds w

/-- `remove(from, to)`. -/
def removeRange (fromIndex toIndex : Int) (w : ObservableListWrapper E O) :
    Outcome Exn (ObservableListWrapper E O) :=
  Outcome.run (fun _ w => doRemove extractor fromIndex w) (intRange fromIndex toIndex) w

/-- The loop of `removeAll` and `retainAll` over the set bits, the last one first. -/
def removeMarked (marked : Option E → Bool) (w : ObservableListWrapper E O) :
    Outcome Exn (ObservableListWrapper E O) :=
  Outcome.run (doRemove extractor) (positions 0 (w.backingList.map marked)).reverse w

def setAll (elements : List (Option E)) (w : ObservableListWrapper E O) : Outcome Exn (ObservableListWrapper E O) :=
  (clear extractor w).bind (addAll extractor elements)

end Operations

/-- The mutators. A collection argument of `removeAll` and `retainAll` answers
`contains`, `removeObject` is given what its argument is equal to. -/
inductive Mutator (E : Type) where
  | add (index : Int) (element : Option E)
  | addAll (elements : List (Option E))
  | addAllAt (index : Int) (elements : List (Option E))
  | set (index : Int) (element : Option E)
  | remove (index : Int)
  | removeObject (isEqual : Option E → Bool)
  | removeRange (fromIndex toIndex : Int)
  | removeAll (contains : Option E → Bool)
  | retainAll (contains : Option E → Bool)
  | setAll (elements : List (Option E))
  | clear

section Operations
variable (extractor : E → List O)

def call (m : Mutator E) (w : ObservableListWrapper E O) : Outcome Exn (ObservableListWrapper E O) :=
  match m with
  | .add index element => doAdd extractor index element w
  | .addAll elements => addAll extractor elements w
  | .addAllAt index elements => addAllAt extractor index elements w
  | .set index element => doSet extractor index element w
  | .remove index => doRemove extractor index w
  | .removeObject isEqual =>
      match w.backingList.findIdx? isEqual with
      | some i => doRemove extractor i w
      | none => .done w
  | .removeRange fromIndex toIndex => removeRange extractor fromIndex toIndex w
  | .removeAll contains => removeMarked extractor contains w
  | .retainAll contains => removeMarked extractor (fun element => !contains element) w
  | .setAll elements => setAll extractor elements w
  | .clear => clear extractor w

/-- A call of a mutator; an exception leaves the wrapper as it was then. -/
def step (m : Mutator E) (w : ObservableListWrapper E O) : ObservableListWrapper E O := (call extractor m w).state

end Operations

/-- The positions that the listener of `e` reports as updated. -/
def invalidated (w : ObservableListWrapper E O) (e : E) : List Int :=
  positions 0 (w.backingList.map (fun element => decide (element = some e)))

/-- The updates that an invalidation of `o` reports, listener by listener. -/
def updates (w : ObservableListWrapper E O) (o : O) : List (List Int) :=
  (w.listeners o).map (fun l => w.invalidated l.element)

end ObservableListWrapper

end OpenJfx.Collections
