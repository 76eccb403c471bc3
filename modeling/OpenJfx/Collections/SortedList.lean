import OpenJfx.Collections.SourceChange
import OpenJfx.Collections.SortHelper

/-! # `javafx.collections.transformation.SortedList`

The arrays `sorted` and `perm` have one length and one used part, of `size`
entries; the model keeps the used parts and the length.  The source and the
comparator are arguments: a listener sees the source in its final state.  Here the
list has a comparator; `SortedListUnsort` is about the loss of it. -/
set_option autoImplicit false
namespace OpenJfx.Collections
open OpenJfx.Lib

namespace SortedList

structure Element (E : Type) where
  e : E
  index : Int
deriving DecidableEq, Repr

/-- `ElementComparator`. -/
def elementComparator {E : Type} (comparator : Comparator E) : Comparator (Element E) :=
  comparator.comap Element.e

end SortedList

structure SortedList (E : Type) where
  sorted : List (SortedList.Element E)
  perm : List Int
  capacity : Nat
  builder : ListChangeBuilder E
deriving DecidableEq, Repr

namespace SortedList
variable {E : Type}

def size (s : SortedList E) : Nat := s.sorted.length

def view (s : SortedList E) : List E := s.sorted.map Element.e

def report (call : ListChangeBuilder E → Outcome Exn (ListChangeBuilder E)) (s : SortedList E) :
    Outcome Exn (SortedList E) :=
  (call s.builder).map (fun b => { s with builder := b })

/-- `perm[p] = i`; a write behind the used part changes nothing that is read. -/
def setPerm (p : Int) (i : Nat) (s : SortedList E) : Outcome Exn (SortedList E) :=
  if p < 0 ∨ p ≥ s.capacity then .thrown .arrayIndexOutOfBounds s
  else .done { s with perm := s.perm.set p.toNat i }

/-- One round of `updatePermutationIndexes`. -/
def updatePermutationIndex (change : SubChange E) (i : Nat) (s : SortedList E) : Outcome Exn (SortedList E) :=
  match s.sorted[i]? with
  | none => .thrown .nullPointer s
  | some element => match change.getPermutation element.index with
      | .error x => .thrown x s
      | .ok p => setPerm p i { s with sorted := s.sorted.set i { element with index := p } }

def updatePermutationIndexes (change : SubChange E) (s : SortedList E) : Outcome Exn (SortedList E) :=
  Outcome.run (updatePermutationIndex change) (List.range s.size) s

def ensureSize (size : Nat) (s : SortedList E) : SortedList E :=
  if s.capacity < size then { s with capacity := size * 3 / 2 + 1 } else s

def updateIndices (start viewStart difference : Int) (s : SortedList E) : SortedList E :=
  { s with
    sorted := s.sorted.map fun element =>
      if element.index ≥ start then { element with index := element.index + difference } else element
    perm := s.perm.map fun i => if i ≥ viewStart then i + difference else i }

variable (comparator : Comparator E)

def findPosition (e : E) (s : SortedList E) : Nat :=
  if s.capacity = 0 then 0
  else insertionPoint (binarySearch (elementComparator comparator) s.sorted ⟨e, -1⟩)

def insertToMapping (e : E) (idx : Int) (s : SortedList E) : Outcome Exn (SortedList E) :=
  let pos := s.findPosition comparator e
  let s := (s.ensureSize (s.size + 1)).updateIndices idx pos 1
  if idx < 0 ∨ idx > s.size then
    -- the second `arraycopy` throws when the first one has moved the elements
    .thrown .arrayIndexOutOfBounds { s with sorted := (s.sorted.insertIdx pos ⟨e, idx⟩).take s.size }
  else
    report (ListChangeBuilder.nextAdd pos (pos + 1))
      { s with sorted := s.sorted.insertIdx pos ⟨e, idx⟩, perm := s.perm.insertIdx idx.toNat pos }

/-- `this.perm[sorted[i].index] = i` for all elements. -/
def renewPerm (s : SortedList E) : Outcome Exn (SortedList E) :=
  Outcome.run (fun i s => match s.sorted[i]? with
    | none => .thrown .nullPointer s
    | some element => setPerm element.index i s) (List.range s.size) s

def setAllToMapping (list : List E) (toIdx : Int) (s : SortedList E) : Outcome Exn (SortedList E) :=
  let s := s.ensureSize toIdx.toNat
  if toIdx > list.length then .thrown .indexOutOfBounds s
  else
    let elements := (list.take toIdx.toNat).mapIdx fun i e => (⟨e, i⟩ : Element E)
    match SortHelper.sort (elementComparator comparator) elements 0 elements.length with
    | .error x => .thrown x s
    | .ok (sorted, perm) =>
        report (ListChangeBuilder.nextAdd 0 elements.length) { s with sorted := sorted, perm := perm }

def removeFromMapping (idx : Int) (e : E) (s : SortedList E) : Outcome Exn (SortedList E) :=
  match readAt s.perm idx with
  | .error x => .thrown x s
  | .ok pos =>
      if pos < 0 ∨ pos ≥ s.size then .thrown .arrayIndexOutOfBounds s
      else
        report (ListChangeBuilder.nextRemove pos e)
          (updateIndices (idx + 1) pos (-1)
            { s with sorted := s.sorted.eraseIdx pos.toNat, perm := s.perm.eraseIdx idx.toNat })

def removeAllFromMapping (s : SortedList E) : Outcome Exn (SortedList E) :=
  report (ListChangeBuilder.nextRemoveAll 0 s.view) { s with sorted := [], perm := [] }

def update (c : SubChange E) (s : SortedList E) : Outcome Exn (SortedList E) :=
  match SortHelper.sort (elementComparator comparator) s.sorted 0 s.size with
  | .error x => .thrown x s
  | .ok (sorted, perm) =>
      ((renewPerm { s with sorted := sorted }).bind fun s =>
        report (ListChangeBuilder.nextPermutation 0 s.size perm s.size) s).bind
          (Outcome.run (fun i s => match readAt s.perm i with
            | .error x => .thrown x s
            | .ok pos => report (ListChangeBuilder.nextUpdate pos) s) (intRange c.fromIdx c.toIdx))

/-- The removals of `addRemove`. -/
def removeEach (c : SubChange E) (s : SortedList E) : Outcome Exn (SortedList E) :=
  if c.fromIdx = 0 ∧ c.getRemovedSize = s.size then removeAllFromMapping s
  else Outcome.run (removeFromMapping c.fromIdx) c.getRemoved s

/-- The insertions of `addRemove`. -/
def insertEach (list : List E) (c : SubChange E) (s : SortedList E) : Outcome Exn (SortedList E) :=
  if s.size = 0 then setAllToMapping comparator list c.toIdx s
  else Outcome.run (fun i s => match readAt list i with
    | .error _ => .thrown .indexOutOfBounds s
    | .ok e => insertToMapping comparator e i s) (intRange c.fromIdx c.toIdx) s

def addRemove (list : List E) (c : SubChange E) (s : SortedList E) : Outcome Exn (SortedList E) :=
  (removeEach c s).bind (insertEach comparator list c)

/-- One round of the loop of `sourceChanged`. -/
def handle (list : List E) (c : SubChange E) (s : SortedList E) : Outcome Exn (SortedList E) :=
  if c.wasPermutated then updatePermutationIndexes c s
  else if c.wasUpdated then update comparator c s
  else addRemove comparator list c s

/-- `sourceChanged` of a list with a comparator; `list` is the source. -/
def sourceChanged (list : List E) (change : Change E) (s : SortedList E) : Outcome Exn (SortedList E) :=
  (Outcome.run (handle comparator list) change { s with builder := s.builder.beginChange }).bind
    (report ListChangeBuilder.endChange)

/-- The view of `source` in the order of the comparator, with both index arrays
in step. -/
structure Represents (source : List E) (s : SortedList E) : Prop where
  size : s.sorted.length = source.length
  permSize : s.perm.length = source.length
  fits : s.size ≤ s.capacity
  ordered : (elementComparator comparator).Sorted s.sorted
  element : ∀ el ∈ s.sorted, ∃ j : Nat, el.index = j ∧ source[j]? = some el.e
  viewed : ∀ j < source.length, ∃ i : Nat, s.perm[j]? = some (i : Int)
  inverse : ∀ i j : Nat, s.perm[j]? = some (i : Int) ↔ ∃ el, s.sorted[i]? = some el ∧ el.index = j

end SortedList
end OpenJfx.Collections
