import Mathlib.Data.List.Sort
import OpenJfx.Collections.Change

/-! # The render tree of a `Parent`

`doUpdatePeer` sends the children from `startIdx` on to the peer `NGGroup`, and
the children in rendering order when `PARENT_CHILDREN_VIEW_ORDER` is dirty.
`onChanged` keeps track of what has to be sent.  A change of the children list
reaches it as a list of sub-changes.  View orders are the values of a linear order. -/
set_option autoImplicit false
namespace OpenJfx.Scene

open Lib
open Collections (SubChange)

/-! ## The peer -/

structure NGGroup (P : Type) where
  children : List P
  viewOrderChildren : List P
deriving DecidableEq, Repr

namespace NGGroup
variable {P : Type}

def add (index : Int) (node : P) (g : NGGroup P) : Outcome Exn (NGGroup P) :=
  if index < -1 ∨ (g.children.length : Int) < index then .thrown .indexOutOfBounds g
  else if index = -1 then .done { g with children := g.children ++ [node] }
  else .done { g with children := g.children.insertIdx index.toNat node }

def clearFrom (fromIndex : Int) (g : NGGroup P) : Outcome Exn (NGGroup P) :=
  if fromIndex < g.children.length then
    if fromIndex < 0 then .thrown .indexOutOfBounds g
    else .done { g with children := g.children.take fromIndex.toNat }
  else .done g

def getOrderedChildren (g : NGGroup P) : List P :=
  if g.viewOrderChildren.isEmpty then g.children else g.viewOrderChildren

end NGGroup

/-! ## The parent -/

structure RenderedParent (N V P : Type) where
  children : List N
  viewOrder : N → V
  viewOrderChildren : List N
  startIdx : Int
  /-- `PARENT_CHILDREN` is dirty. -/
  dirtyChildren : Bool
  /-- `PARENT_CHILDREN_VIEW_ORDER` is dirty. -/
  dirtyViewOrder : Bool
  peer : NGGroup P

/-- `Collections.sort` by decreasing view order, which is stable. -/
def sortByViewOrder {N V : Type} [LinearOrder V] (viewOrder : N → V) (children : List N) : List N :=
  children.insertionSort (fun a b => viewOrder b ≤ viewOrder a)

namespace RenderedParent
variable {N V P : Type} [DecidableEq N] [LinearOrder V] [Zero V]

def create (viewOrder : N → V) : RenderedParent N V P := ⟨[], viewOrder, [], 0, true, true, ⟨[], []⟩⟩

/-- What `computeViewOrderChidrenAndUpdatePeer` stores. -/
def viewOrdered (viewOrder : N → V) (children : List N) : List N :=
  if children.any (fun n => viewOrder n ≠ 0) then sortByViewOrder viewOrder children else []

def computeViewOrderChidrenAndUpdatePeer (getPeer : N → P) (s : RenderedParent N V P) : RenderedParent N V P :=
  let sorted := viewOrdered s.viewOrder s.children
  { s with viewOrderChildren := sorted, peer := { s.peer with viewOrderChildren := sorted.map getPeer } }

def addPeers (getPeer : N → P) : Int → List N → NGGroup P → Outcome Exn (NGGroup P)
  | _, [], g => .done g
  | idx, n :: rest, g => (g.add idx (getPeer n)).bind (addPeers getPeer (idx + 1) rest)

/-- The first part of `doUpdatePeer`. -/
def sendChildren (getPeer : N → P) (s : RenderedParent N V P) : Outcome Exn (RenderedParent N V P) :=
  (((s.peer.clearFrom s.startIdx).bind (addPeers getPeer s.startIdx (s.children.drop s.startIdx.toNat))).map
    (fun g => { s with peer := g })).bind (fun s => .done { s with startIdx := s.children.length })

/-- `doUpdatePeer`, after which the dirty bits are cleared. -/
def doUpdatePeer (getPeer : N → P) (s : RenderedParent N V P) : Outcome Exn (RenderedParent N V P) :=
  (if s.dirtyChildren then s.sendChildren getPeer else .done s).bind (fun s =>
    let s := if s.dirtyViewOrder then s.computeViewOrderChidrenAndUpdatePeer getPeer else s
    .done { s with dirtyChildren := false, dirtyViewOrder := false })

def addedBy (c : SubChange N) (children : List N) : List N := (children.take c.toIdx.toNat).drop c.fromIdx.toNat

/-- The sub-change makes the view order of the children dirty. -/
def affectsViewOrder (s : RenderedParent N V P) (c : SubChange N) : Bool :=
  (decide (0 < c.getRemovedSize) || decide (0 < c.toIdx - c.fromIdx)) && !s.viewOrderChildren.isEmpty ||
    (addedBy c s.children).any (fun n => s.viewOrder n ≠ 0)

/-- `onChanged`, called when the list has its new content. -/
def onChanged (childSetModified : Bool) (changes : List (SubChange N)) (s : RenderedParent N V P) :
    RenderedParent N V P :=
  { s with
    startIdx := match changes with
      | [] => s.startIdx
      | c :: _ => if c.fromIdx < s.startIdx then c.fromIdx else s.startIdx
    dirtyChildren := true
    dirtyViewOrder := s.dirtyViewOrder || childSetModified && changes.any s.affectsViewOrder }

/-- The list is changed to `new`.  The changes that `onProposedChange` takes for no
modification of the child set are the permutations. -/
def changeChildren (new : List N) (changes : List (SubChange N)) (s : RenderedParent N V P) : RenderedParent N V P :=
  onChanged (!decide (new.Perm s.children)) changes { s with children := new }

/-- `children.remove(node)` and `children.add(index, node)` under
`childrenTriggerPermutation`. -/
def move (n : N) (index : Nat) (s : RenderedParent N V P) : RenderedParent N V P :=
  let i : Int := s.children.idxOf n
  let removed := onChanged false [⟨i, i, some [n], [], false⟩] { s with children := s.children.erase n }
  onChanged false [⟨index, (index : Int) + 1, some [], [], false⟩]
    { removed with children := removed.children.insertIdx index n }

def toFront (n : N) (s : RenderedParent N V P) : RenderedParent N V P :=
  if n ∈ s.children ∧ s.children.getLast? ≠ some n then s.move n (s.children.length - 1) else s

def toBack (n : N) (s : RenderedParent N V P) : RenderedParent N V P :=
  if n ∈ s.children ∧ s.children.head? ≠ some n then s.move n 0 else s

/-- `set` of the property does nothing for the value it has.  A child whose property
is invalid already has marked the view order since the last synchronization. -/
def setViewOrder (n : N) (v : V) (s : RenderedParent N V P) : RenderedParent N V P :=
  if s.viewOrder n ≠ v then
    { s with
      viewOrder := Function.update s.viewOrder n v
      dirtyViewOrder := s.dirtyViewOrder || decide (n ∈ s.children) }
  else s

inductive Event (N V : Type) where
  | change (new : List N) (changes : List (SubChange N))
  | toFront (n : N)
  | toBack (n : N)
  | setViewOrder (n : N) (v : V)
  | synchronize

def step (getPeer : N → P) (event : Event N V) (s : RenderedParent N V P) : Outcome Exn (RenderedParent N V P) :=
  match event with
  | .change new changes => .done (s.changeChildren new changes)
  | .toFront n => .done (s.toFront n)
  | .toBack n => .done (s.toBack n)
  | .setViewOrder n v => .done (s.setViewOrder n v)
  | .synchronize => s.doUpdatePeer getPeer

end RenderedParent
end OpenJfx.Scene
