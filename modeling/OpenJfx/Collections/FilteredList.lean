import OpenJfx.Collections.SourceChange
import OpenJfx.Collections.SortHelper

/-! # `javafx.collections.transformation.FilteredList`

The array `filtered` is represented by its used part `filtered[0..size)`, which
is all that is ever read, and by its length, which decides when a store fails.
The source and the predicate are arguments: a listener sees the source in its
final state, and a null predicate is the one that accepts everything. -/
set_option autoImplicit false
namespace OpenJfx.Collections
open OpenJfx.Lib

structure FilteredList (E : Type) where
  filtered : List Int
  capacity : Nat
  builder : ListChangeBuilder E
deriving DecidableEq, Repr

namespace FilteredList
variable {E : Type}

def size (s : FilteredList E) : Nat := s.filtered.length

def report (call : ListChangeBuilder E → Outcome Exn (ListChangeBuilder E)) (s : FilteredList E) :
    Outcome Exn (FilteredList E) :=
  (call s.builder).map (fun b => { s with builder := b })

def getSourceIndex (index : Nat) (s : FilteredList E) : Except Exn Int :=
  match s.filtered[index]? with
  | some i => .ok i
  | none => .error .indexOutOfBounds

def getViewIndex (index : Int) (s : FilteredList E) : Int := binarySearch compareInts s.filtered index

def findPosition (p : Int) (s : FilteredList E) : Nat :=
  if s.capacity = 0 then 0
  else if p = 0 then 0
  else insertionPoint (binarySearch compareInts s.filtered p)

def ensureSize (size : Nat) (s : FilteredList E) : FilteredList E :=
  if s.capacity < size then { s with capacity := size * 3 / 2 + 1 } else s

def updateIndexes (start : Nat) (delta : Int) (s : FilteredList E) : FilteredList E :=
  { s with filtered := s.filtered.take start ++ (s.filtered.drop start).map (fun i => i + delta) }

def permutate (c : SubChange E) (s : FilteredList E) : Outcome Exn (FilteredList E) :=
  let start := s.findPosition c.fromIdx
  let stop := s.findPosition c.toIdx
  if stop > start then
    match ((s.filtered.take stop).drop start).mapM c.getPermutation with
    | .error x => .thrown x s
    | .ok moved =>
        match SortHelper.sortInts (s.filtered.take start ++ (moved ++ s.filtered.drop stop)) start stop with
        | .error x => .thrown x s
        | .ok (filtered, perm) =>
            report (ListChangeBuilder.nextPermutation start stop perm s.size) { s with filtered := filtered }
  else .done s

/-- The local variables of the loops of `addRemove`; `next` is the index the
iterator returns next. -/
structure Cursor (E : Type) where
  list : FilteredList E
  fpos : Nat
  next : Int

/-- The loop that reuses the slots of removed elements; the last argument is what
the iterator still has to return. -/
def replaceLoop (pred : E → Bool) (stop : Nat) (toIdx : Int) :
    List E → Cursor E → Outcome Exn (Cursor E)
  | [], k => if k.fpos < stop ∧ k.next < toIdx then .thrown .noSuchElement k else .done k
  | x :: rest, k =>
      if k.fpos < stop ∧ k.next < toIdx then
        if pred x then
          ((report (ListChangeBuilder.nextAdd k.fpos (k.fpos + 1))
            { k.list with filtered := k.list.filtered.set k.fpos k.next }).map
              (fun s => ⟨s, k.fpos + 1, k.next + 1⟩)).bind (replaceLoop pred stop toIdx rest)
        else replaceLoop pred stop toIdx rest { k with next := k.next + 1 }
      else .done k

def insertLoop (pred : E → Bool) (toIdx : Int) : List E → Cursor E → Outcome Exn (Cursor E)
  | [], k => if k.next < toIdx then .thrown .noSuchElement k else .done k
  | x :: rest, k =>
      if k.next < toIdx then
        if pred x then
          if k.list.size + 1 > k.list.capacity then .thrown .arrayIndexOutOfBounds k
          else
            ((report (ListChangeBuilder.nextAdd k.fpos (k.fpos + 1))
              { k.list with filtered := k.list.filtered.insertIdx k.fpos k.next }).map
                (fun s => ⟨s, k.fpos + 1, k.next + 1⟩)).bind (insertLoop pred toIdx rest)
        else insertLoop pred toIdx rest { k with next := k.next + 1 }
      else .done k

/-- The removals that are reported first, all at the same view index. -/
def reportRemoved (c : SubChange E) (start : Nat) (indexes : List Int) (s : FilteredList E) :
    Outcome Exn (FilteredList E) :=
  Outcome.run (fun i s => match readAt c.getRemoved (i - c.fromIdx) with
    | .ok e => report (ListChangeBuilder.nextRemove start e) s
    | .error _ => .thrown .indexOutOfBounds s) indexes s

def addRemove (source : List E) (pred : E → Bool) (c : SubChange E) (s : FilteredList E) :
    Outcome Exn (FilteredList E) :=
  let s := s.ensureSize source.length
  let start := s.findPosition c.fromIdx
  let stop := s.findPosition (c.fromIdx + c.getRemovedSize)
  (reportRemoved c start ((s.filtered.take stop).drop start) s).bind fun s =>
    let s := s.updateIndexes stop (c.getAddedSize - c.getRemovedSize)
    if c.fromIdx < 0 ∨ c.fromIdx > source.length then .thrown .indexOutOfBounds s
    else
      ((replaceLoop pred stop c.toIdx (source.drop c.fromIdx.toNat) ⟨s, start, c.fromIdx⟩).bind fun k =>
        if k.fpos < stop then
          .done { k with list := { k.list with
            filtered := k.list.filtered.take k.fpos ++ k.list.filtered.drop stop } }
        else insertLoop pred c.toIdx (source.drop k.next.toNat) k).map Cursor.list

/-- The local variables of `update`; `index` is `sourceFrom`. -/
structure UpdateCursor (E : Type) where
  list : FilteredList E
  pos : Nat
  filterTo : Int
  index : Int

/-- One round of `update` for the element `el`. -/
def updateStep (pred : E → Bool) (el : E) (k : UpdateCursor E) : Outcome Exn (UpdateCursor E) :=
  if k.list.filtered[k.pos]? = some k.index then
    if !pred el then
      (report (ListChangeBuilder.nextRemove k.pos el) k.list).map (fun s =>
        ⟨{ s with filtered := s.filtered.eraseIdx k.pos }, k.pos, k.filterTo - 1, k.index + 1⟩)
    else
      (report (ListChangeBuilder.nextUpdate k.pos) k.list).map (fun s =>
        ⟨s, k.pos + 1, k.filterTo, k.index + 1⟩)
  else if pred el then
    ((report (ListChangeBuilder.nextAdd k.pos (k.pos + 1)) k.list).map (fun s =>
      { k with list := s })).bind (fun k =>
        if k.list.size + 1 > k.list.capacity then .thrown .arrayIndexOutOfBounds k
        else .done ⟨{ k.list with filtered := k.list.filtered.insertIdx k.pos k.index }, k.pos + 1,
          k.filterTo + 1, k.index + 1⟩)
  else .done { k with index := k.index + 1 }

def updateLoop (pred : E → Bool) (sourceTo : Int) : List E → UpdateCursor E → Outcome Exn (UpdateCursor E)
  | [], k => if k.pos < k.filterTo ∨ k.index < sourceTo then .thrown .noSuchElement k else .done k
  | el :: rest, k =>
      if k.pos < k.filterTo ∨ k.index < sourceTo then
        (updateStep pred el k).bind (updateLoop pred sourceTo rest)
      else .done k

def update (source : List E) (pred : E → Bool) (c : SubChange E) (s : FilteredList E) :
    Outcome Exn (FilteredList E) :=
  let s := s.ensureSize source.length
  let filterFrom := s.findPosition c.fromIdx
  let filterTo := s.findPosition c.toIdx
  if c.fromIdx < 0 ∨ c.fromIdx > source.length then .thrown .indexOutOfBounds s
  else
    (updateLoop pred c.toIdx (source.drop c.fromIdx.toNat) ⟨s, filterFrom, filterTo, c.fromIdx⟩).map
      UpdateCursor.list

def handle (source : List E) (pred : E → Bool) (c : SubChange E) (s : FilteredList E) :
    Outcome Exn (FilteredList E) :=
  if c.wasPermutated then permutate c s
  else if c.wasUpdated then update source pred c s
  else addRemove source pred c s

def sourceChanged (source : List E) (pred : E → Bool) (change : Change E) (s : FilteredList E) :
    Outcome Exn (FilteredList E) :=
  (Outcome.run (handle source pred) change { s with builder := s.builder.beginChange }).bind
    (report ListChangeBuilder.endChange)

def view (source : List E) (s : FilteredList E) : List E :=
  s.filtered.filterMap (fun i => source[i.toNat]?)

/-- The loop of `refilter`, from source index `i` on. -/
def refilterLoop (pred : E → Bool) : Int → List E → List Int → List Int
  | _, [], filtered => filtered
  | i, x :: rest, filtered =>
      refilterLoop pred (i + 1) rest (if pred x then filtered ++ [i] else filtered)

/-- `refilter`, called when the predicate is set; it fires a change of its own
when there are listeners. -/
def refilter (source : List E) (pred : E → Bool) (hasListeners : Bool) (s : FilteredList E) :
    FilteredList E :=
  let removed := s.view source
  let s := s.ensureSize source.length
  let filtered := refilterLoop pred 0 source []
  let change : Change E := [⟨0, filtered.length, some removed, [], false⟩]
  { s with
    filtered := filtered
    builder := if hasListeners then { s.builder with fired := s.builder.fired ++ [change] } else s.builder }

def create (source : List E) (pred : E → Bool) : FilteredList E :=
  refilter source pred false ⟨[], source.length * 3 / 2 + 1, ListChangeBuilder.new⟩

end FilteredList
end OpenJfx.Collections
