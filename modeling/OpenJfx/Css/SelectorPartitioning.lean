import OpenJfx.Css.CompoundSelector
import OpenJfx.Lib.KeyedList

/-! # `com.sun.javafx.css.SelectorPartitioning`

Selectors are put into partitions and slots by the id, the type and the style
classes of their last part; a query collects them from the places that can match
and sorts them by the order in which they were added.  The maps are lists here;
the result of a query does not depend on their order, because it is sorted.

`S` are the selector objects and `selector` is what each of them consists of. -/
set_option autoImplicit false
namespace OpenJfx.Css
open OpenJfx.Lib OpenJfx.Lib.WordSet

inductive PartitionKey where
  | name (s : String)
  | classes (bits : List Long)

namespace PartitionKey

def equals : PartitionKey → PartitionKey → Bool
  | name a, name b => a = b
  | classes a, classes b => BitSet.equals b a
  | _, _ => false

instance : BEq PartitionKey := ⟨equals⟩

instance : LawfulBEq PartitionKey where
  eq_of_beq := by
    intro a b h
    cases a with
    | name a =>
        cases b with
        | name b => rw [of_decide_eq_true h]
        | classes b => cases h
    | classes a =>
        cases b with
        | name b => cases h
        | classes b => rw [(BitSet.equals_iff a b).mp h]
  rfl := by
    intro a
    cases a with
    | name a => exact decide_eq_true rfl
    | classes a => exact BitSet.equals_self a

end PartitionKey

/-- A slot, with the key of the partition it belongs to. -/
inductive Slot (S : Type) where
  | mk (key : PartitionKey) (selectors : List S) (referents : List (Slot S))

namespace Slot
variable {S : Type}

def key : Slot S → PartitionKey
  | mk key _ _ => key

def selectors : Slot S → List S
  | mk _ selectors _ => selectors

def referents : Slot S → List (Slot S)
  | mk _ _ referents => referents

def addSelector (s : S) : Slot S → Slot S
  | mk key selectors referents => mk key (selectors ++ [s]) referents

/-- `partition` followed by a call `f` on the slot it returns. -/
def partition (id : PartitionKey) (f : Slot S → Slot S) : Slot S → Slot S
  | mk key selectors referents => mk key selectors (KeyedList.update Slot.key id (mk id [] []) f referents)

end Slot

structure Partition (S : Type) where
  key : PartitionKey
  selectors : List S
  slots : List (Slot S)

namespace Partition
variable {S : Type}

def addSelector (s : S) (p : Partition S) : Partition S := { p with selectors := p.selectors ++ [s] }

/-- `partition` followed by a call `f` on the slot it returns. -/
def partition (id : PartitionKey) (f : Slot S → Slot S) (p : Partition S) : Partition S :=
  { p with slots := KeyedList.update Slot.key id (.mk id [] []) f p.slots }

end Partition

def Selector.last : Selector → Option SimpleSelector
  | .simple s => some s
  | .compound c => c.selectors.getLast?

structure SelectorPartitioning (S : Type) where
  idMap : List (Partition S)
  typeMap : List (Partition S)
  styleClassMap : List (Partition S)
  ordinal : Nat
  /-- `getOrdinal` of the selector objects. -/
  ordinals : S → Int

namespace SelectorPartitioning
variable {S : Type}

def new : SelectorPartitioning S := ⟨[], [], [], 0, fun _ => -1⟩

/-- `getPartition` followed by a call `f` on the partition it returns. -/
def getPartition (id : PartitionKey) (f : Partition S → Partition S) (map : List (Partition S)) :
    List (Partition S) :=
  KeyedList.update Partition.key id ⟨id, [], []⟩ f map

/-- A slot that is created gets its partition from the map of its kind. -/
def createPartition (id : PartitionKey) (slots : List (Slot S)) (map : List (Partition S)) :
    List (Partition S) :=
  if (KeyedList.get Slot.key id slots).isSome then map else getPartition id (fun p => p) map

def slotsOf (id : PartitionKey) (map : List (Partition S)) : List (Slot S) :=
  match KeyedList.get Partition.key id map with
  | some p => p.slots
  | none => []

def referentsOf (id : PartitionKey) (slots : List (Slot S)) : List (Slot S) :=
  match KeyedList.get Slot.key id slots with
  | some s => s.referents
  | none => []

def partition [DecidableEq S] (selector : S → Selector) (s : S) (t : SelectorPartitioning S) :
    Except Exn (SelectorPartitioning S) :=
  match (selector s).last with
  | none => .error .indexOutOfBounds
  | some simple =>
      let idKey := PartitionKey.name simple.id
      let typeKey := PartitionKey.name simple.name
      let styleClassKey := PartitionKey.classes simple.styleClassSet
      let hasStyleClass := decide (BitSet.size simple.styleClassSet > 0)
      let t := { t with ordinal := t.ordinal + 1, ordinals := fun x => if x = s then t.ordinal else t.ordinals x }
      if simple.name = "" then .ok t
      else if simple.id ≠ "" then
        let slots := slotsOf idKey t.idMap
        if hasStyleClass then
          .ok { t with
            idMap := getPartition idKey (Partition.partition typeKey
              (Slot.partition styleClassKey (Slot.addSelector s))) t.idMap
            typeMap := createPartition typeKey slots t.typeMap
            styleClassMap := createPartition styleClassKey (referentsOf typeKey slots) t.styleClassMap }
        else
          .ok { t with
            idMap := getPartition idKey (Partition.partition typeKey (Slot.addSelector s)) t.idMap
            typeMap := createPartition typeKey slots t.typeMap }
      else if hasStyleClass then
        .ok { t with
          typeMap := getPartition typeKey (Partition.partition styleClassKey (Slot.addSelector s)) t.typeMap
          styleClassMap := createPartition styleClassKey (slotsOf typeKey t.typeMap) t.styleClassMap }
      else .ok { t with typeMap := getPartition typeKey (Partition.addSelector s) t.typeMap }

/-- The selectors of a style-class slot, when the style classes `classes` of the
node contain those of the slot. -/
def classSelectors (classes : List Long) (slot : Slot S) : List S :=
  if slot.selectors.isEmpty then []
  else
    match slot.key with
    | .classes other => if BitSet.containsAll (some other) classes then slot.selectors else []
    | .name _ => []

/-- The loop over the style-class slots, when the node has style classes. -/
def matchClasses (classes : Option (List Long)) (slots : List (Slot S)) : List S :=
  match classes with
  | none => []
  | some classes => slots.flatMap (classSelectors classes)

/-- The type of the node, and the wildcard. -/
def typeKeys (type : String) : List PartitionKey :=
  if type = "*" then [.name type] else [.name type, .name "*"]

/-- `getStyleClassSet` of the node, when there is one with elements. -/
def styleClassKey (classes : Option (List Long)) : Option (List Long) :=
  match classes with
  | none => none
  | some bits => if BitSet.size bits > 0 then some bits else none

def matchSlot (classes : Option (List Long)) (slot : Slot S) : List S :=
  slot.selectors ++ matchClasses classes slot.referents

def matchId (type : String) (classes : Option (List Long)) (p : Partition S) : List S :=
  p.selectors ++ (typeKeys type).flatMap (fun k => KeyedList.collect Slot.key (matchSlot classes) k p.slots)

def matchType (classes : Option (List Long)) (p : Partition S) : List S :=
  p.selectors ++ matchClasses classes p.slots

/-- The part of a query for the id of the node. -/
def matchIdMap (t : SelectorPartitioning S) (id : Option String) (type : String) (classes : Option (List Long)) :
    List S :=
  match id with
  | none => []
  | some id =>
      if id = "" then []
      else KeyedList.collect Partition.key (matchId type (styleClassKey classes)) (.name id) t.idMap

/-- The part of a query for the type of the node. -/
def matchTypeMap (t : SelectorPartitioning S) (type : String) (classes : Option (List Long)) : List S :=
  (typeKeys type).flatMap (fun k => KeyedList.collect Partition.key (matchType (styleClassKey classes)) k t.typeMap)

/-- The list that `match` collects before it sorts it. -/
def collected (t : SelectorPartitioning S) (id : Option String) (type : String) (classes : Option (List Long)) :
    List S :=
  if type = "" then [] else t.matchIdMap id type classes ++ t.matchTypeMap type classes

/-- `match(selectorId, selectorType, selectorStyleClass)`. -/
def matching (t : SelectorPartitioning S) (id : Option String) (type : String) (classes : Option (List Long)) :
    List S :=
  (t.collected id type classes).mergeSort (fun a b => decide (t.ordinals a ≤ t.ordinals b))

def partitionAll [DecidableEq S] (selector : S → Selector) :
    List S → SelectorPartitioning S → Except Exn (SelectorPartitioning S)
  | [], t => .ok t
  | s :: rest, t =>
      match partition selector s t with
      | .error e => .error e
      | .ok t => partitionAll selector rest t

end SelectorPartitioning

end OpenJfx.Css
