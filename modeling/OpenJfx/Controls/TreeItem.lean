import OpenJfx.Lib.Outline
import OpenJfx.Collections.SourceChange

/-! # Tree items (`TreeItem`)

The items that a program has created are the elements of a finite type `N`; one
state holds the fields of all of them.  A list of children holds no null and has
no comparator to be sorted by, `isLeaf` is not overridden, and the only event
handlers are those that the constructor registers.  Counts stay in the range of
an `int`. -/
set_option autoImplicit false
namespace OpenJfx.Controls
open OpenJfx.Lib OpenJfx.Collections

/-- `BooleanPropertyBase` without a binding and without listeners. -/
structure BooleanProperty where
  value : Bool
  valid : Bool
deriving DecidableEq, Repr

/-- The only way for a call to fail: links that lead round in a circle. -/
inductive TreeFault where
  | stackOverflow
deriving DecidableEq, Repr

/-- The fields; `expanded` and `leaf` are null until they are first needed. -/
structure TreeItems (N : Type) where
  children : N → List N
  expanded : N → Option BooleanProperty
  leaf : N → Option Bool
  parent : N → Option N
  parentLinkCount : N → Int
  expandedDescendentCount : N → Nat
  previousExpandedDescendentCount : N → Nat
  expandedDescendentCountDirty : N → Bool

namespace TreeItems
variable {N : Type}

def new : TreeItems N where
  children := fun _ => []
  expanded := fun _ => none
  leaf := fun _ => none
  parent := fun _ => none
  parentLinkCount := fun _ => 0
  expandedDescendentCount := fun _ => 1
  previousExpandedDescendentCount := fun _ => 1
  expandedDescendentCountDirty := fun _ => true

def isExpanded (s : TreeItems N) (x : N) : Bool := ((s.expanded x).map (·.value)).getD false

def isLeaf (s : TreeItems N) (x : N) : Bool := (s.leaf x).getD true

section Fields
variable [DecidableEq N]

def storeChildren (p : N) (list : List N) (s : TreeItems N) : TreeItems N :=
  { s with children := Function.update s.children p list }

def storeExpanded (x : N) (p : BooleanProperty) (s : TreeItems N) : TreeItems N :=
  { s with expanded := Function.update s.expanded x (some p) }

def storeCount (x : N) (n : Nat) (s : TreeItems N) : TreeItems N :=
  { s with expandedDescendentCount := Function.update s.expandedDescendentCount x n }

def storePrevious (x : N) (n : Nat) (s : TreeItems N) : TreeItems N :=
  { s with previousExpandedDescendentCount := Function.update s.previousExpandedDescendentCount x n }

def storeDirty (x : N) (dirty : Bool) (s : TreeItems N) : TreeItems N :=
  { s with expandedDescendentCountDirty := Function.update s.expandedDescendentCountDirty x dirty }

/-- What a call of `isExpanded()` does to the property. -/
def readExpanded (x : N) (s : TreeItems N) : TreeItems N :=
  match s.expanded x with
  | none => s
  | some p => s.storeExpanded x { p with valid := true }

def setLeaf (x : N) (value : Bool) (s : TreeItems N) : TreeItems N :=
  if value ∧ s.leaf x = none then s else { s with leaf := Function.update s.leaf x (some value) }

/-! ## Events -/

variable [Fintype N]

/-- Every event that is fired here has the type of an expanded item count
change; the chain consists of the item and the items above it, and `itemListener`
is called at each of them. -/
def fireEvent (x : N) (s : TreeItems N) : TreeItems N :=
  { s with expandedDescendentCountDirty := fun y =>
      if y ∈ lineage s.parent x then true else s.expandedDescendentCountDirty y }

/-- `invalidated()` of the expanded property. -/
def invalidated (x : N) (s : TreeItems N) : TreeItems N :=
  if s.isLeaf x then s else (s.readExpanded x).fireEvent x

/-- `set` and `markInvalid` of the expanded property `p`. -/
def setProperty (x : N) (p : BooleanProperty) (value : Bool) (s : TreeItems N) : TreeItems N :=
  if p.value = value then s.storeExpanded x p
  else if p.valid then (s.storeExpanded x ⟨value, false⟩).invalidated x
  else s.storeExpanded x ⟨value, false⟩

def setExpanded (x : N) (value : Bool) (s : TreeItems N) : TreeItems N :=
  if !value ∧ s.expanded x = none then s
  else s.setProperty x ((s.expanded x).getD ⟨false, true⟩) value

/-! ## The children -/

/-- One item of `updateChildrenParent`.  `equals` of items is identity, and it is
false for null. -/
def updateParent (newParent : Option N) (treeItem : N) (s : TreeItems N) : TreeItems N :=
  let currentParent := s.parent treeItem
  let s := if s.parentLinkCount treeItem = 0 then { s with parent := Function.update s.parent treeItem newParent } else s
  if currentParent ≠ none ∧ currentParent = newParent then
    let link := if newParent = none then s.parentLinkCount treeItem - 1 else s.parentLinkCount treeItem + 1
    { s with parentLinkCount := Function.update s.parentLinkCount treeItem link }
  else s

def updateChildrenParent (treeItems : List N) (newParent : Option N) (s : TreeItems N) : TreeItems N :=
  treeItems.foldl (fun s treeItem => s.updateParent newParent treeItem) s

def updateChildren (p : N) (change : Change N) (s : TreeItems N) : TreeItems N :=
  let s := s.setLeaf p (s.children p).isEmpty
  let added := change.flatMap (SubChange.getAddedSubList (s.children p))
  let removed := change.flatMap SubChange.getRemoved
  ((s.updateChildrenParent removed none).updateChildrenParent added (some p)).fireEvent p

/-- The children of `p` become `list`, and `childrenListener` is told. -/
def changeChildren (p : N) (list : List N) (change : Change N) (s : TreeItems N) : TreeItems N :=
  ((s.storeChildren p list).storeDirty p true).updateChildren p change

/-! ## The count -/

/-- The loop over the children in `updateExpandedDescendentCount`; `count` is the
recursive call. -/
def addCounts (count : N → TreeItems N → Outcome TreeFault (TreeItems N)) (x : N) :
    List N → TreeItems N → Outcome TreeFault (TreeItems N) :=
  Outcome.run fun child s =>
    let sum := s.expandedDescendentCount x
    let s := s.readExpanded child
    if s.isExpanded child then
      (count child s).map fun s => s.storeCount x (sum + s.expandedDescendentCount child)
    else .done (s.storeCount x (sum + 1))

def updateExpandedDescendentCount (count : N → TreeItems N → Outcome TreeFault (TreeItems N)) (x : N)
    (s : TreeItems N) : Outcome TreeFault (TreeItems N) :=
  let s := s.storePrevious x (s.expandedDescendentCount x)
  let s := s.storeCount x 1
  if s.isLeaf x then .done s
  else
    let s := s.readExpanded x
    if s.isExpanded x then addCounts count x (s.children x) s else .done s

/-- The result is the field `expandedDescendentCount` after the call.  The first
argument bounds the depth of the recursion. -/
def countWithin (reset : Bool) : Nat → N → TreeItems N → Outcome TreeFault (TreeItems N)
  | 0, _, s => .thrown .stackOverflow s
  | depth + 1, x, s =>
      if reset || s.expandedDescendentCountDirty x then
        (updateExpandedDescendentCount (countWithin reset depth) x s).map (storeDirty x false)
      else .done s

def getExpandedDescendentCount (reset : Bool) (x : N) (s : TreeItems N) : Outcome TreeFault (TreeItems N) :=
  countWithin reset (Fintype.card N + 1) x s

/-! ## Runs -/

inductive Op (N : Type) where
  | setExpanded (x : N) (value : Bool)
  | isExpanded (x : N)
  | changeChildren (p : N) (list : List N) (change : SourceChange N)
  | getExpandedDescendentCount (x : N)

def perform (op : Op N) (s : TreeItems N) : Outcome TreeFault (TreeItems N) :=
  match op with
  | .setExpanded x value => .done (s.setExpanded x value)
  | .isExpanded x => .done (s.readExpanded x)
  | .changeChildren p list change => .done (s.changeChildren p list change.change)
  | .getExpandedDescendentCount x => s.getExpandedDescendentCount false x

/-- A modification of the children of `p`: the list reports what has changed, it
holds an item at most once and none that is in another list, and no item comes to
be below itself. -/
structure Modifies (p : N) (list : List N) (change : SourceChange N) (s : TreeItems N) : Prop where
  legal : change.Legal (s.children p) list
  permutations : ∀ c ∈ change.permutations, c.getRemoved = []
  nodup : list.Nodup
  single : ∀ q, q ≠ p → ∀ c ∈ list, c ∉ s.children q
  acyclic : ∀ c ∈ list, ¬ Reaches s.parent p c

/-- The items stay a forest. -/
def Allowed (op : Op N) (s : TreeItems N) : Prop :=
  match op with
  | .changeChildren p list change => Modifies p list change s
  | _ => True

end Fields
end TreeItems
end OpenJfx.Controls
