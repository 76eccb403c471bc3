import Mathlib.Data.List.Sort
import OpenJfx.Controls.ItemSelection

/-! # `MultipleSelectionModelBase.shiftSelection`

The rows of the selection are moved when items are inserted or removed.  The
shifts are pairs of a position and a signed number of items, the callback of
`shiftSelection` is `null`, and the items are those after the change. -/
set_option autoImplicit false
namespace OpenJfx.Controls

open OpenJfx.Lib OpenJfx.Collections

/-- The key of a shift is its position. -/
abbrev Shift := Int × Int

/-- The variables of the loops of `doShift`. -/
structure Shifting where
  selectedIndices : SelectedIndicesList
  perm : List Int
  idx : Int
deriving DecidableEq, Repr

namespace Shifting

/-- `selectedIndices.clear(row)`. -/
def clear (row : Int) (w : Shifting) : Outcome Exn Shifting :=
  (w.selectedIndices.clear row).map (fun s => { w with selectedIndices := s })

/-- `selectedIndices.set(row, isSet)`. -/
def set (itemCount row : Int) (isSet : Bool) (w : Shifting) : Outcome Exn Shifting :=
  if isSet then (w.selectedIndices.set itemCount row).map (fun s => { w with selectedIndices := s })
  else w.clear row

/-- `perm[idx++] = value`; the counter is advanced before the store fails. -/
def note (value : Int) (w : Shifting) : Outcome Exn Shifting :=
  Outcome.ofExcept { w with idx := w.idx + 1 } (fun perm => { w with perm := perm, idx := w.idx + 1 })
    (writeAt w.perm w.idx value)

/-- The body of both loops: row `row` goes to `target`, and `value` is noted. -/
def moveRow (itemCount row target value : Int) (w : Shifting) : Outcome Exn Shifting :=
  let selected := w.selectedIndices.isSelected row
  (w.clear row).bind fun w =>
  (w.set itemCount target selected).bind fun w =>
  if selected then w.note value else .done w

/-- The loop for `shift > 0`, from the last bit down. -/
def insertLoop (itemCount position shift : Int) (size : Int) (w : Shifting) : Outcome Exn Shifting :=
  Outcome.run (fun i => moveRow itemCount i (i + shift) (i + 1))
    ((intRange (max position 0) size).reverse) w

/-- The loop for `shift < 0`, with its two `continue`s. -/
def removeLoop (itemCount position shift : Int) (size : Int) (w : Shifting) : Outcome Exn Shifting :=
  Outcome.run (fun i w =>
      if i + shift < 0 then .done w
      else if i + 1 + shift < position then .done w
      else moveRow itemCount (i + 1) (i + 1 + shift) i w)
    (intRange position size) w

end Shifting

/-- `Arrays.stream(perm).filter(value -> value > -1).count()`. -/
def noted (perm : List Int) : Int := (perm.filter (fun value => decide (value > -1))).length

def doShift (itemCount : Int) (shiftPair : Shift) (w : SelectedIndicesList × List Int) :
    Outcome Exn (SelectedIndicesList × List Int) :=
  let (position, shift) := shiftPair
  let (selectedIndices, perm) := w
  if position < 0 then .done w
  else if shift = 0 then .done w
  else
    let idx := noted perm
    let selectedIndicesSize := selectedIndices.bitsetSize - idx
    let w : Shifting := ⟨selectedIndices, perm, idx⟩
    if 0 < shift then
      ((w.insertLoop itemCount position shift selectedIndicesSize).bind (Shifting.clear position)).map
        (fun w => (w.selectedIndices, w.perm))
    else
      (w.removeLoop itemCount position shift selectedIndicesSize).map (fun w => (w.selectedIndices, w.perm))

/-- The shifts from the highest position to the lowest; `Collections.sort` is stable. -/
def sortShifts (shifts : List Shift) : List Shift := shifts.insertionSort (fun s1 s2 => s2.1 ≤ s1.1)

/-- The lead behind the shifts at or in front of it. -/
def newSelectionLead (shifts : List Shift) (selectedIndex : Int) : Int :=
  let totalShift := ((shifts.filter (fun shift => decide (shift.1 ≤ selectedIndex))).map Prod.snd).sum
  max 0 (selectedIndex + totalShift)

/-- The model, with the added and the removed rows of the
`MultipleAdditionAndRemovedChange` that the observers are called with. -/
structure ShiftedSelection (T : Type) where
  model : ItemSelection T
  change : Option (List Int × List Int)
deriving DecidableEq, Repr

namespace ItemSelection
variable {T : Type}

def shiftLead (equals : T → T → Bool) (items : List (Option T)) (shifts : List Shift) (hasSelectionChanged : Bool)
    (m : ItemSelection T) : Outcome Exn (ItemSelection T) :=
  let newSelectionLead := newSelectionLead shifts m.selectedIndex
  let m := m.setSelectedIndex items newSelectionLead
  if hasSelectionChanged then m.onIndices (SelectedIndicesList.set (getItemCount items) newSelectionLead)
  else m.select equals items newSelectionLead

/-- The change is built from clones of both bit sets. -/
def callObservers (selectedIndicesCopy : List Int) (m : ItemSelection T) : ShiftedSelection T :=
  let now := m.selectedIndices.bitset.bits
  ⟨{ m with selectedIndices := m.selectedIndices.cloned.reset },
    some (now.filter (fun row => decide (row ∉ selectedIndicesCopy)),
      selectedIndicesCopy.filter (fun row => decide (row ∉ now)))⟩

/-- `shiftSelection(shifts, null)`; `shifts.get` fails on an empty list. -/
def shiftSelection (equals : T → T → Bool) (items : List (Option T)) (shifts : List Shift) (m : ItemSelection T) :
    Outcome Exn (ShiftedSelection T) :=
  if m.selectedIndices.size = 0 then .done ⟨m, none⟩
  else
    let perm : List Int := List.replicate m.selectedIndices.bitsetSize (-1)
    let shifts := sortShifts shifts
    match shifts.getLast? with
    | none => .thrown .indexOutOfBounds ⟨m, none⟩
    | some (lowestShiftPosition, _) =>
        let selectedIndicesCopy := m.selectedIndices.bitset.bits
        match Outcome.run (doShift (getItemCount items)) shifts (m.selectedIndices.cloned.startAtomic, perm) with
        | .thrown x (selectedIndices, _) => .thrown x ⟨{ m with selectedIndices := selectedIndices }, none⟩
        | .done (selectedIndices, perm) =>
            let m := { m with selectedIndices := selectedIndices.stopAtomic }
            let hasSelectionChanged := decide (0 < noted perm)
            let led :=
              if lowestShiftPosition ≤ m.selectedIndex ∧ -1 < m.selectedIndex then
                m.shiftLead equals items shifts hasSelectionChanged
              else .done m
            match led with
            | .thrown x m => .thrown x ⟨m, none⟩
            | .done m => .done (if hasSelectionChanged then m.callObservers selectedIndicesCopy else ⟨m, none⟩)

end ItemSelection
end OpenJfx.Controls
