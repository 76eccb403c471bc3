import OpenJfx.Controls.SelectedIndicesList

/-! # The operations of `MultipleSelectionModelBase`

The selection over a fixed list of items, some of which may be null.  `focus` is
abstract in the class; here it sets the focused index.  `equals` is the `equals`
of the items, the equality of references is Lean's. -/
set_option autoImplicit false
namespace OpenJfx.Controls

open OpenJfx.Lib OpenJfx.Collections

inductive SelectionMode where
  | single
  | multiple
deriving DecidableEq, Repr

structure ItemSelection (T : Type) where
  selectionMode : SelectionMode
  selectedIndices : SelectedIndicesList
  selectedIndex : Int
  selectedItem : Option T
  focusedIndex : Int
  observed : List (Change Int)
deriving DecidableEq, Repr

namespace ItemSelection
variable {T : Type}

/-- A new model with the focus on row `focusedIndex`. -/
def create (selectionMode : SelectionMode) (focusedIndex : Int) : ItemSelection T :=
  ⟨selectionMode, .create, -1, none, focusedIndex, []⟩

def getItemCount (items : List (Option T)) : Int := items.length

/-- The item of a row; there is none outside of the list. -/
def getModelItem (items : List (Option T)) : Int → Option T
  | .ofNat i => (items[i]?).join
  | .negSucc _ => none

/-- The listener of the selected index keeps the selected item. -/
def setSelectedIndex (items : List (Option T)) (value : Int) (m : ItemSelection T) : ItemSelection T :=
  if value = m.selectedIndex then m
  else { m with selectedIndex := value, selectedItem := getModelItem items value }

@[simp] theorem setSelectedIndex_selectionMode (items : List (Option T)) (value : Int) (m : ItemSelection T) :
    (m.setSelectedIndex items value).selectionMode = m.selectionMode := by
  unfold setSelectedIndex
  split <;> rfl

@[simp] theorem setSelectedIndex_selectedIndices (items : List (Option T)) (value : Int) (m : ItemSelection T) :
    (m.setSelectedIndex items value).selectedIndices = m.selectedIndices := by
  unfold setSelectedIndex
  split <;> rfl

@[simp] theorem setSelectedIndex_focusedIndex (items : List (Option T)) (value : Int) (m : ItemSelection T) :
    (m.setSelectedIndex items value).focusedIndex = m.focusedIndex := by
  unfold setSelectedIndex
  split <;> rfl

@[simp] theorem setSelectedIndex_observed (items : List (Option T)) (value : Int) (m : ItemSelection T) :
    (m.setSelectedIndex items value).observed = m.observed := by
  unfold setSelectedIndex
  split <;> rfl

@[simp] theorem setSelectedIndex_selectedIndex (items : List (Option T)) (value : Int) (m : ItemSelection T) :
    (m.setSelectedIndex items value).selectedIndex = value := by
  unfold setSelectedIndex
  split
  · rename_i same
    exact same.symm
  · rfl

def focus (index : Int) (m : ItemSelection T) : ItemSelection T := { m with focusedIndex := index }

def startAtomic (m : ItemSelection T) : ItemSelection T :=
  { m with selectedIndices := m.selectedIndices.startAtomic }

def stopAtomic (m : ItemSelection T) : ItemSelection T := { m with selectedIndices := m.selectedIndices.stopAtomic }

def onIndices (call : SelectedIndicesList → Outcome Exn SelectedIndicesList) (m : ItemSelection T) :
    Outcome Exn (ItemSelection T) :=
  (call m.selectedIndices).map (fun s => { m with selectedIndices := s })

def isSelected (index : Int) (m : ItemSelection T) : Bool :=
  if 0 ≤ index ∧ index < m.selectedIndices.bitsetSize then m.selectedIndices.isSelected index else false

def isEmpty (m : ItemSelection T) : Bool := decide (m.selectedIndices.size = 0)

def quietClearSelection (m : ItemSelection T) : Outcome Exn (ItemSelection T) :=
  m.onIndices SelectedIndicesList.clearAll

def clearSelection (items : List (Option T)) (m : ItemSelection T) : Outcome Exn (ItemSelection T) :=
  m.quietClearSelection.map fun m =>
    if m.selectedIndices.isAtomic then m else (m.setSelectedIndex items (-1)).focus (-1)

/-- `quietClearSelection()` when only one row may be selected. -/
def clearIfSingle (m : ItemSelection T) : Outcome Exn (ItemSelection T) :=
  if m.selectionMode = .single then m.quietClearSelection else .done m

def select (equals : T → T → Bool) (items : List (Option T)) (row : Int) (m : ItemSelection T) :
    Outcome Exn (ItemSelection T) :=
  if row = -1 then m.clearSelection items
  else if row < 0 ∨ getItemCount items ≤ row then .done m
  else
    let isSameRow := decide (row = m.selectedIndex)
    let currentItem := m.selectedItem
    let newItem := getModelItem items row
    let isSameItem := newItem.any (fun a => currentItem.any (fun b => equals a b))
    let fireUpdatedItemEvent := isSameRow && !isSameItem
    let m := m.focus row
    let chosen :=
      if m.selectedIndices.isSelected row = false then
        let cleared :=
          if m.selectionMode = .single then m.startAtomic.quietClearSelection.map stopAtomic else .done m
        cleared.bind (onIndices (SelectedIndicesList.set (getItemCount items) row))
      else .done m
    chosen.map fun m =>
      let m := m.setSelectedIndex items row
      if fireUpdatedItemEvent then { m with selectedItem := newItem } else m

/-- The loop of `select(T)` over the rows from `i` on. -/
def selectItemLoop (equals : T → T → Bool) (items : List (Option T)) (obj : Option T) :
    List (Option T) → Int → ItemSelection T → Outcome Exn (ItemSelection T)
  | [], _, m => .done { m.setSelectedIndex items (-1) with selectedItem := obj }
  | rowObj :: rest, i, m =>
      if rowObj.any (fun a => obj.any (fun b => equals a b)) then
        if m.isSelected i then .done m else m.clearIfSingle.bind (select equals items i)
      else selectItemLoop equals items obj rest (i + 1) m

/-- `select(T)`. -/
def selectItem (equals : T → T → Bool) (items : List (Option T)) (obj : Option T) (m : ItemSelection T) :
    Outcome Exn (ItemSelection T) :=
  if obj.isNone ∧ m.selectionMode = .single then m.clearSelection items
  else selectItemLoop equals items obj items 0 m

/-- `ControlUtils.buildClearAndSelectChange`. -/
def buildClearAndSelectChange (removed : List Int) (retainedRow : Int) : Change Int :=
  let removedSize : Int := removed.length
  let midIndex := if removedSize ≤ retainedRow then removedSize else if retainedRow < 0 then 0 else retainedRow
  let firstRemovedRange := removed.take midIndex.toNat
  let secondRemovedRange := removed.drop midIndex.toNat
  ⟨0, 0, some firstRemovedRange, [], false⟩ ::
    (if secondRemovedRange = [] then [] else [⟨1, 1, some secondRemovedRange, [], false⟩])

def observeClearAndSelect (wasSelected : Bool) (previousSelectedIndices : List Int) (row : Int) (m : ItemSelection T) :
    Outcome Exn (ItemSelection T) :=
  if wasSelected then
    .done { m with observed := m.observed ++ [buildClearAndSelectChange previousSelectedIndices row] }
  else
    match m.selectedIndices.indexOf row with
    | .error x => .thrown x m
    | .ok (index, s) =>
        let changeIndex := max 0 index
        .done { m with
          selectedIndices := s
          observed := m.observed ++ [[⟨changeIndex, changeIndex + 1, some previousSelectedIndices, [], false⟩]] }

def clearAndSelect [DecidableEq T] (equals : T → T → Bool) (items : List (Option T)) (row : Int) (m : ItemSelection T) :
    Outcome Exn (ItemSelection T) :=
  if row < 0 ∨ getItemCount items ≤ row then m.clearSelection items
  else
    let wasSelected := m.isSelected row
    if wasSelected = true ∧ m.selectedIndices.size = 1 ∧ m.selectedItem = getModelItem items row then .done m
    else
      let previousSelectedIndices := (m.selectedIndices.bitset.clear row).bits
      ((m.startAtomic.clearSelection items).bind (select equals items row)).bind fun m =>
      m.stopAtomic.observeClearAndSelect wasSelected previousSelectedIndices row

/-- The loop of `selectIndices` over the rows from the last one down. -/
def selectLastValid (equals : T → T → Bool) (items : List (Option T)) :
    List Int → ItemSelection T → Outcome Exn (ItemSelection T)
  | [], m => .done m
  | index :: rest, m =>
      if 0 ≤ index ∧ index < getItemCount items then
        (m.onIndices (SelectedIndicesList.set (getItemCount items) index)).bind (select equals items index)
      else selectLastValid equals items rest m

/-- `selectIndices(int, int...)`; an empty list stands for null, too. -/
def selectIndices (equals : T → T → Bool) (items : List (Option T)) (row : Int) (rows : List Int) (m : ItemSelection T) :
    Outcome Exn (ItemSelection T) :=
  if rows = [] then m.select equals items row
  else
    let rowCount := getItemCount items
    if m.selectionMode = .single then
      m.quietClearSelection.bind fun m =>
      (selectLastValid equals items rows.reverse m).bind fun m =>
      if m.isEmpty ∧ 0 < row ∧ row < rowCount then
        (m.onIndices (SelectedIndicesList.set rowCount row)).bind (select equals items row)
      else .done m
    else
      (m.onIndices (SelectedIndicesList.setAll rowCount row rows)).map fun m =>
        match ((row :: rows).filter (fun index => decide (0 ≤ index ∧ index < rowCount))).getLast? with
        | none => m
        | some lastIndex =>
            { (m.setSelectedIndex items lastIndex).focus lastIndex with selectedItem := getModelItem items lastIndex }

def selectAll (items : List (Option T)) (m : ItemSelection T) : Outcome Exn (ItemSelection T) :=
  if m.selectionMode = .single then .done m
  else if getItemCount items ≤ 0 then .done m
  else
    let rowCount := getItemCount items
    let focusedIndex := m.focusedIndex
    (m.clearSelection items).bind fun m =>
    (m.onIndices (SelectedIndicesList.setRange 0 rowCount true)).map fun m =>
      if focusedIndex = -1 then (m.setSelectedIndex items (rowCount - 1)).focus (rowCount - 1)
      else (m.setSelectedIndex items focusedIndex).focus focusedIndex

def selectFirst (equals : T → T → Bool) (items : List (Option T)) (m : ItemSelection T) :
    Outcome Exn (ItemSelection T) :=
  m.clearIfSingle.bind fun m => if 0 < getItemCount items then m.select equals items 0 else .done m

def selectLast (equals : T → T → Bool) (items : List (Option T)) (m : ItemSelection T) :
    Outcome Exn (ItemSelection T) :=
  m.clearIfSingle.bind fun m =>
  let numItems := getItemCount items
  if 0 < numItems ∧ m.selectedIndex < numItems - 1 then m.select equals items (numItems - 1) else .done m

/-- `clearSelection(int)`. -/
def clearSelectionAt (items : List (Option T)) (index : Int) (m : ItemSelection T) : Outcome Exn (ItemSelection T) :=
  if index < 0 then .done m
  else
    let wasEmpty := m.isEmpty
    (m.onIndices (SelectedIndicesList.clear index)).bind fun m =>
    if wasEmpty = false ∧ m.isEmpty = true then m.clearSelection items else .done m

def selectPrevious (equals : T → T → Bool) (items : List (Option T)) (m : ItemSelection T) :
    Outcome Exn (ItemSelection T) :=
  let focusIndex := m.focusedIndex
  m.clearIfSingle.bind fun m =>
  if focusIndex = -1 then m.select equals items (getItemCount items - 1)
  else if 0 < focusIndex then m.select equals items (focusIndex - 1)
  else .done m

def selectNext (equals : T → T → Bool) (items : List (Option T)) (m : ItemSelection T) :
    Outcome Exn (ItemSelection T) :=
  let focusIndex := m.focusedIndex
  m.clearIfSingle.bind fun m =>
  if focusIndex = -1 then m.select equals items 0
  else if focusIndex ≠ getItemCount items - 1 then m.select equals items (focusIndex + 1)
  else .done m

inductive Call (T : Type) where
  | select (row : Int)
  | selectItem (obj : Option T)
  | clearAndSelect (row : Int)
  | selectIndices (row : Int) (rows : List Int)
  | selectAll
  | selectFirst
  | selectLast
  | selectNext
  | selectPrevious
  | clearSelectionAt (index : Int)
  | clearSelection
deriving DecidableEq, Repr

def perform [DecidableEq T] (equals : T → T → Bool) (items : List (Option T)) :
    Call T → ItemSelection T → Outcome Exn (ItemSelection T)
  | .select row => select equals items row
  | .selectItem obj => selectItem equals items obj
  | .clearAndSelect row => clearAndSelect equals items row
  | .selectIndices row rows => selectIndices equals items row rows
  | .selectAll => selectAll items
  | .selectFirst => selectFirst equals items
  | .selectLast => selectLast equals items
  | .selectNext => selectNext equals items
  | .selectPrevious => selectPrevious equals items
  | .clearSelectionAt index => clearSelectionAt items index
  | .clearSelection => clearSelection items

end ItemSelection
end OpenJfx.Controls
