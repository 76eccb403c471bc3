import OpenJfx.Collections.ListChangeBuilder
import OpenJfx.Lib.JavaBitSet

/-! # `MultipleSelectionModelBase.SelectedIndicesList`

The list of the selected indices as a view of a bit set of rows, with the
position and the value of the last `get`, and the builder of its changes.
Inside an atomic block nothing is reported to the builder.  The number of items
of the model is an argument. -/
set_option autoImplicit false
namespace OpenJfx.Controls

open OpenJfx.Lib OpenJfx.Collections

structure SelectedIndicesList where
  bitset : JavaBitSet
  lastGetIndex : Int
  lastGetValue : Int
  atomicityCount : Nat
  builder : ListChangeBuilder Int
deriving DecidableEq, Repr

namespace SelectedIndicesList

def create : SelectedIndicesList := ⟨.empty, -1, -1, 0, .new⟩

def isAtomic (s : SelectedIndicesList) : Bool := decide (0 < s.atomicityCount)

def startAtomic (s : SelectedIndicesList) : SelectedIndicesList :=
  { s with atomicityCount := s.atomicityCount + 1 }

def stopAtomic (s : SelectedIndicesList) : SelectedIndicesList :=
  { s with atomicityCount := s.atomicityCount - 1 }

def size (s : SelectedIndicesList) : Nat := s.bitset.cardinality

def bitsetSize (s : SelectedIndicesList) : Nat := s.bitset.size

def reset (s : SelectedIndicesList) : SelectedIndicesList := { s with lastGetIndex := -1, lastGetValue := -1 }

/-- `bitset.clone()`, as far as it changes this list. -/
def cloned (s : SelectedIndicesList) : SelectedIndicesList := { s with bitset := s.bitset.trimToSize }

/-! ## Reading -/

/-- The loop of `get` that counts from the first selected row on. -/
def scan (bitset : JavaBitSet) (index : Int) : Nat → Int → Int → Int × Int × Int
  | 0, lastGetIndex, lastGetValue => (-1, lastGetIndex, lastGetValue)
  | fuel + 1, lastGetIndex, lastGetValue =>
      if 0 ≤ lastGetValue ∨ lastGetIndex = index then
        if lastGetIndex = index then (lastGetValue, lastGetIndex, lastGetValue)
        else scan bitset index fuel (lastGetIndex + 1) (bitset.nextSetBit (lastGetValue + 1))
      else (-1, lastGetIndex, lastGetValue)

def get (s : SelectedIndicesList) (index : Int) : Except Exn (Int × SelectedIndicesList) :=
  let itemCount : Int := s.size
  if index < 0 ∨ itemCount ≤ index then .error .indexOutOfBounds
  else if index = s.lastGetIndex + 1 ∧ s.lastGetValue < itemCount then
    let value := s.bitset.nextSetBit (s.lastGetValue + 1)
    .ok (value, { s with lastGetIndex := s.lastGetIndex + 1, lastGetValue := value })
  else if index = s.lastGetIndex - 1 ∧ 0 < s.lastGetValue then
    let value := s.bitset.previousSetBit (s.lastGetValue - 1)
    .ok (value, { s with lastGetIndex := s.lastGetIndex - 1, lastGetValue := value })
  else
    let (value, lastGetIndex, lastGetValue) := scan s.bitset index (s.size + 1) 0 (s.bitset.nextSetBit 0)
    .ok (value, { s with lastGetIndex := lastGetIndex, lastGetValue := lastGetValue })

/-- The loop of `ReadOnlyUnbackedObservableList.indexOf`, with the number of
positions left. -/
def indexOfLoop (obj : Int) : Nat → Int → SelectedIndicesList → Except Exn (Int × SelectedIndicesList)
  | 0, _, s => .ok (-1, s)
  | rest + 1, i, s =>
      match s.get i with
      | .error x => .error x
      | .ok (value, s) => if value = obj then .ok (i, s) else indexOfLoop obj rest (i + 1) s

def indexOf (obj : Int) (s : SelectedIndicesList) : Except Exn (Int × SelectedIndicesList) :=
  indexOfLoop obj s.size 0 s.reset

def isValidIndex (itemCount index : Int) : Bool := decide (0 ≤ index) && decide (index < itemCount)

def isSelected (s : SelectedIndicesList) (index : Int) : Bool := s.bitset.get index

/-! ## Reporting -/

/-- A call of the builder, left out in an atomic block. -/
def report (call : ListChangeBuilder Int → Outcome Exn (ListChangeBuilder Int)) (s : SelectedIndicesList) :
    Outcome Exn SelectedIndicesList :=
  if s.isAtomic then .done s else (call s.builder).map (fun b => { s with builder := b })

def beginChange (s : SelectedIndicesList) : Outcome Exn SelectedIndicesList :=
  s.report (fun b => .done b.beginChange)

def endChange (s : SelectedIndicesList) : Outcome Exn SelectedIndicesList := s.report ListChangeBuilder.endChange

def nextAdd (lo hi : Int) (s : SelectedIndicesList) : Outcome Exn SelectedIndicesList :=
  s.report (ListChangeBuilder.nextAdd lo hi)

def nextRemove (idx removed : Int) (s : SelectedIndicesList) : Outcome Exn SelectedIndicesList :=
  s.report (ListChangeBuilder.nextRemove idx removed)

def nextRemoveAll (idx : Int) (removed : List Int) (s : SelectedIndicesList) : Outcome Exn SelectedIndicesList :=
  s.report (ListChangeBuilder.nextRemoveAll idx removed)

/-- `indexOf`, which also moves the cursor of `get`. -/
def positionOf (obj : Int) (s : SelectedIndicesList) (next : Int → SelectedIndicesList → Outcome Exn SelectedIndicesList) :
    Outcome Exn SelectedIndicesList :=
  match s.indexOf obj with
  | .error x => .thrown x s
  | .ok (index, s) => next index s

/-! ## Changes -/

/-- `set(int)`. -/
def set (itemCount index : Int) (s : SelectedIndicesList) : Outcome Exn SelectedIndicesList :=
  if isValidIndex itemCount index = false ∨ s.isSelected index = true then .done s
  else
    s.beginChange.bind fun s =>
    let s := { s with bitset := s.bitset.set index.toNat }
    s.positionOf index fun indicesIndex s =>
    (s.nextAdd indicesIndex (indicesIndex + 1)).bind endChange

/-- The distinct valid rows that are not selected yet, in order. -/
def sortedNewIndices (itemCount : Int) (indices : List Int) (s : SelectedIndicesList) : List Int :=
  treeSet (indices.filter (fun i => isValidIndex itemCount i && !s.isSelected i))

/-- The loop of the bulk `set`, over the new rows behind `pos`. -/
def groupLoop (size : Nat) : List Int → Nat → Int → Int → Int → SelectedIndicesList →
    Outcome Exn SelectedIndicesList
  | [], _, _, _, _, s => .done s
  | value :: rest, pos, start, stop, endValue, s =>
      let previousEndValue := endValue
      let pos := pos + 1
      let stop := stop + 1
      if previousEndValue ≠ value - 1 then
        (s.nextAdd start stop).bind (groupLoop size rest pos stop stop value)
      else if pos = size then
        (s.nextAdd start (start + pos)).bind (groupLoop size rest pos start stop value)
      else groupLoop size rest pos start stop value s

/-- `set(int, int...)`. -/
def setAll (itemCount index : Int) (indices : List Int) (s : SelectedIndicesList) : Outcome Exn SelectedIndicesList :=
  if indices = [] then s.set itemCount index
  else
    let sorted := s.sortedNewIndices itemCount (index :: indices)
    (Outcome.run (set itemCount) sorted s.startAtomic).bind fun s =>
    let s := s.stopAtomic
    match sorted with
    | [] => .done s
    | [only] => s.beginChange.bind fun s => (s.nextAdd only (only + 1)).bind endChange
    | startValue :: rest =>
        s.beginChange.bind fun s =>
        s.positionOf startValue fun start s =>
        (groupLoop sorted.length rest 1 start (start + 1) startValue s).bind endChange

/-- `set(int, int, boolean)`; rows are taken out without a report. -/
def setRange (index stop : Int) (isSet : Bool) (s : SelectedIndicesList) : Outcome Exn SelectedIndicesList :=
  s.beginChange.bind fun s =>
  let changed :=
    -- `BitSet.set` checks its range
    if index < 0 ∨ stop < index then .thrown .indexOutOfBounds s
    else if isSet then
      let s := { s with bitset := s.bitset.setRange index stop }
      s.positionOf index fun indicesIndex s =>
      let span := stop - index
      s.nextAdd indicesIndex (indicesIndex + span)
    else .done { s with bitset := s.bitset.clearRange index stop }
  changed.bind endChange

/-- `clear()`. -/
def clearAll (s : SelectedIndicesList) : Outcome Exn SelectedIndicesList :=
  s.beginChange.bind fun s =>
  let removed := s.bitset.bits
  let s := { s with bitset := s.bitset.clearAll }
  (s.nextRemoveAll 0 removed).bind endChange

/-- `clear(int)`; a negative index is no bit. -/
def clear (index : Int) (s : SelectedIndicesList) : Outcome Exn SelectedIndicesList :=
  if index < 0 then .thrown .indexOutOfBounds s
  else if s.bitset.get index = false then .done s
  else
    s.beginChange.bind fun s =>
    let s := { s with bitset := s.bitset.clear index }
    (s.nextRemove index index).bind endChange

end SelectedIndicesList
end OpenJfx.Controls
