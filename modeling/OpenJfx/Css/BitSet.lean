import OpenJfx.Lib.WordSet

/-! # `com.sun.javafx.css.BitSet`

A set of style classes or pseudo-classes is a `long[]` with one bit for each
element.  `StyleClassSet` and `PseudoClassState` give each name its index when
they first meet it, in a table that only grows.

A mutation yields the new array, the returned flag and the changes it reports;
`hasListeners` tells whether there is a listener helper to report them to. -/
set_option autoImplicit false
namespace OpenJfx.Css
open OpenJfx.Lib OpenJfx.Lib.WordSet

abbrev Long := BitVec 64

/-- The names in the order of their indices; the map from names to indices holds
the same entries. -/
structure Registry where
  names : List String
  nodup : names.Nodup

namespace Registry

def empty : Registry := ⟨[], List.nodup_nil⟩

/-- A name that is not in the table gets the next free index. -/
def getIndex (r : Registry) (t : String) : Nat := r.names.idxOf t

def getT (r : Registry) (index : Nat) : Option String := r.names[index]?

/-- The table after an index has been asked for. -/
def register (r : Registry) (t : String) : Registry :=
  if h : t ∈ r.names then r
  else ⟨r.names ++ [t], List.nodup_append.mpr ⟨r.nodup, List.nodup_singleton t, by
    intro a ha b hb heq
    rw [List.mem_singleton.mp hb] at heq
    exact h (heq ▸ ha)⟩⟩

end Registry

structure Mutation where
  bits : List Long
  modified : Bool
  notified : List (String × Bool)

namespace BitSet

def ELEMENT_ADDED : Bool := false

def ELEMENT_REMOVED : Bool := true

/-- `1l << (index % Long.SIZE)`. -/
def bit (index : Nat) : Long := 1#64 <<< (index % 64)

/-- The elements that the loops over words and bits find in an array of masks;
`notifyObservers` ignores null. -/
def elements (r : Registry) (masks : List Long) : List String :=
  (List.range masks.length).flatMap (fun n =>
    (List.range 64).filterMap (fun b =>
      if 1#64 <<< b &&& word masks n = 1#64 <<< b then r.getT (n * 64 + b) else none))

def notifyObservers (removed : Bool) (ts : List String) : List (String × Bool) := ts.map (fun t => (t, removed))

def bitCount (mask : Long) : Nat := (List.range 64).countP (fun b => mask.getLsbD b)

def size (bits : List Long) : Nat := (bits.map bitCount).sum

def add (r : Registry) (hasListeners : Bool) (t : Option String) (bits : List Long) : Mutation :=
  match t with
  | none => ⟨bits, false, []⟩
  | some t =>
      let element := r.getIndex t / 64
      let grown :=
        if element ≥ bits.length then bits ++ List.replicate (element + 1 - bits.length) 0#64 else bits
      let temp := word grown element
      let modified := decide (temp ||| bit (r.getIndex t) ≠ temp)
      { bits := grown.set element (temp ||| bit (r.getIndex t))
        modified := modified
        notified := if modified && hasListeners then notifyObservers ELEMENT_ADDED [t] else [] }

def remove (r : Registry) (hasListeners : Bool) (o : Option String) (bits : List Long) : Mutation :=
  match o with
  | none => ⟨bits, false, []⟩
  | some t =>
      let element := r.getIndex t / 64
      if element ≥ bits.length then ⟨bits, false, []⟩
      else
        let temp := word bits element
        let cleared := bits.set element (temp &&& ~~~bit (r.getIndex t))
        if temp &&& ~~~bit (r.getIndex t) ≠ temp then
          { bits := if cleared.all (· = 0#64) then [] else cleared
            modified := true
            notified := if hasListeners then notifyObservers ELEMENT_REMOVED [t] else [] }
        else ⟨cleared, false, []⟩

def contains (r : Registry) (o : Option String) (bits : List Long) : Bool :=
  match o with
  | none => false
  | some t =>
      let element := r.getIndex t / 64
      decide (element < bits.length) && decide (word bits element &&& bit (r.getIndex t) = bit (r.getIndex t))

/-- `none` stands for null and for a collection of another class. -/
def containsAll (c : Option (List Long)) (bits : List Long) : Bool :=
  match c with
  | none => false
  | some other =>
      if bits.length = 0 ∧ other.length = 0 then true
      else if bits.length < other.length then false
      else (List.range other.length).all (fun n => word bits n &&& word other n = word other n)

def addAll (r : Registry) (hasListeners : Bool) (c : Option (List Long)) (maskOne : List Long) : Mutation :=
  match c with
  | none => ⟨maskOne, false, []⟩
  | some maskTwo =>
      let max := if maskOne.length < maskTwo.length then maskTwo.length else maskOne.length
      let union := tabulate max (fun n =>
        if n < maskOne.length ∧ n < maskTwo.length then word maskOne n ||| word maskTwo n
        else if n < maskOne.length then word maskOne n
        else word maskTwo n)
      let modified := (List.range max).any (fun n =>
        if n < maskOne.length ∧ n < maskTwo.length then word union n ≠ word maskOne n
        else if n < maskOne.length then false
        else true)
      let bitsAdded := tabulate max (fun n =>
        if n < maskOne.length ∧ n < maskTwo.length then ~~~word maskOne n &&& word maskTwo n
        else if n < maskOne.length then 0#64
        else word maskTwo n)
      { bits := if modified then union else maskOne
        modified := modified
        notified :=
          if modified && hasListeners then notifyObservers ELEMENT_ADDED (elements r bitsAdded) else [] }

def clear (r : Registry) (hasListeners : Bool) (bits : List Long) : Mutation :=
  { bits := []
    modified := true
    notified := if hasListeners then notifyObservers ELEMENT_REMOVED (elements r bits) else [] }

def retainAll (r : Registry) (hasListeners : Bool) (c : Option (List Long)) (maskOne : List Long) : Mutation :=
  match c with
  | none => clear r hasListeners maskOne
  | some maskTwo =>
      let max := if maskOne.length < maskTwo.length then maskOne.length else maskTwo.length
      let intersection := tabulate max (fun n => word maskOne n &&& word maskTwo n)
      let modified := decide (maskOne.length > max) ||
        (List.range max).any (fun n => word intersection n ≠ word maskOne n)
      let bitsRemoved := tabulate maskOne.length (fun n =>
        if n < maskTwo.length then word maskOne n &&& ~~~word maskTwo n else word maskOne n)
      { bits := if modified then (if intersection.all (· = 0#64) then [] else intersection) else maskOne
        modified := modified
        notified :=
          if modified && hasListeners then notifyObservers ELEMENT_REMOVED (elements r bitsRemoved) else [] }

def removeAll (r : Registry) (hasListeners : Bool) (c : Option (List Long)) (maskOne : List Long) : Mutation :=
  match c with
  | none => ⟨maskOne, false, []⟩
  | some maskTwo =>
      let max := if maskOne.length < maskTwo.length then maskOne.length else maskTwo.length
      let difference := tabulate max (fun n => word maskOne n &&& ~~~word maskTwo n)
      let modified := (List.range max).any (fun n => word difference n ≠ word maskOne n)
      let bitsRemoved := tabulate max (fun n => word maskOne n &&& word maskTwo n)
      { bits := if modified then (if difference.all (· = 0#64) then [] else difference) else maskOne
        modified := modified
        notified :=
          if modified && hasListeners then notifyObservers ELEMENT_REMOVED (elements r bitsRemoved) else [] }

def hashCode (bits : List Long) : BitVec 32 :=
  bits.foldl (fun (hash : BitVec 32) (mask : Long) => 71#32 * hash + (mask ^^^ (mask >>> 32)).setWidth 32) 7#32

/-- `equals` for an object of the same class. -/
def equals (other bits : List Long) : Bool :=
  if bits.length ≠ other.length then false
  else (List.range bits.length).all (fun m => word bits m = word other m)

end BitSet

end OpenJfx.Css
