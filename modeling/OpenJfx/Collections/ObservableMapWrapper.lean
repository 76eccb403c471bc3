import OpenJfx.Collections.HashMap

/-! # `ObservableMapWrapper`

The map, its `keySet`, `values` and `entrySet` views, their iterators and the
entries they hand out.  `fired` lists the changes that were passed to
`callObservers`.  A call returns what the source returns, or the exception it
throws, together with the object as the call leaves it. -/
set_option autoImplicit false
namespace OpenJfx.Collections

/-- `ObservableMapWrapper.SimpleChange`. -/
structure MapChange (K V : Type) where
  key : Option K
  old : Option V
  added : Option V
  wasAdded : Bool
  wasRemoved : Bool
deriving DecidableEq, Repr

/-- The iterator of a view.  The three classes differ in what `next` returns. -/
structure ViewIterator (K V : Type) where
  entryIt : HashIterator
  lastKey : Option K
  lastValue : Option V

structure ObservableMapWrapper (K V : Type) where
  backingMap : HashMap K V
  iterators : List (ViewIterator K V)
  fired : List (MapChange K V)

namespace ObservableMapWrapper
variable {K V : Type}

def wrap (map : HashMap K V) : ObservableMapWrapper K V := ⟨map, [], []⟩

def callObservers (change : MapChange K V) (m : ObservableMapWrapper K V) : ObservableMapWrapper K V :=
  { m with fired := m.fired ++ [change] }

def removal (key : Option K) (old : Option V) : MapChange K V := ⟨key, old, none, false, true⟩

/-! ## The map -/

section Operations
variable [DecidableEq K] [BEq V]

/-- `put`; `wanted` is the iteration order of the backing map afterwards. -/
def put (wanted : List Nat) (key : Option K) (value : Option V) (m : ObservableMapWrapper K V) :
    Option V × ObservableMapWrapper K V :=
  if m.backingMap.containsKey key then
    let (ret, map) := m.backingMap.putVal wanted key value
    let m := { m with backingMap := map }
    if ret.isNone && value.isSome || ret.isSome && !(ret == value) then
      (ret, m.callObservers ⟨key, ret, value, true, true⟩)
    else (ret, m)
  else
    let (ret, map) := m.backingMap.putVal wanted key value
    (ret, { m with backingMap := map }.callObservers ⟨key, ret, value, true, false⟩)

def remove (key : Option K) (m : ObservableMapWrapper K V) : Option V × ObservableMapWrapper K V :=
  if !m.backingMap.containsKey key then (none, m)
  else
    let (ret, map) := m.backingMap.remove key
    (ret, { m with backingMap := map }.callObservers (removal key ret))

/-- `putAll`, for the entries of its argument in iteration order. -/
def putAll : List (List Nat × Option K × Option V) → ObservableMapWrapper K V → ObservableMapWrapper K V
  | [], m => m
  | (wanted, key, value) :: rest, m => putAll rest (put wanted key value m).2

/-- One round of a loop `for (Iterator i = backingMap.entrySet().iterator(); …)`
that removes the entry: the loop's iterator is the only one to change the map, so
`i.remove()` unlinks the node. -/
def removeNode (r : Nat) (m : ObservableMapWrapper K V) : ObservableMapWrapper K V :=
  { m with backingMap := m.backingMap.unlink r }.callObservers (removal (m.backingMap.key r) (m.backingMap.value r))

def clearFrom : List Nat → ObservableMapWrapper K V → ObservableMapWrapper K V
  | [], m => m
  | r :: rest, m => clearFrom rest (m.removeNode r)

def clear (m : ObservableMapWrapper K V) : ObservableMapWrapper K V := clearFrom m.backingMap.table m

/-! ## The views -/

/-- `contains` of the argument of a bulk operation, `none` when it throws.  The
argument may be a view of this map. -/
abbrev Contains (K V α : Type) := HashMap K V → α → Option Bool

/-- The loop of `removeRetain`; `item` is what the view shows of an entry. -/
def removeRetainFrom {α : Type} (item : HashMap K V → Nat → α) (c : Contains K V α) (remove : Bool) :
    List Nat → Bool → ObservableMapWrapper K V → Except Fault Bool × ObservableMapWrapper K V
  | [], removed, m => (.ok removed, m)
  | r :: rest, removed, m =>
      match c m.backingMap (item m.backingMap r) with
      | none => (.error .foreign, m)
      | some found =>
          if remove = found then removeRetainFrom item c remove rest true (m.removeNode r)
          else removeRetainFrom item c remove rest removed m

def removeRetain {α : Type} (item : HashMap K V → Nat → α) (c : Contains K V α) (remove : Bool)
    (m : ObservableMapWrapper K V) : Except Fault Bool × ObservableMapWrapper K V :=
  removeRetainFrom item c remove m.backingMap.table false m

def keySetRemoveRetain (c : Contains K V (Option K)) :
    Bool → ObservableMapWrapper K V → Except Fault Bool × ObservableMapWrapper K V :=
  removeRetain (fun map r => map.key r) c

def valuesRemoveRetain (c : Contains K V (Option V)) :
    Bool → ObservableMapWrapper K V → Except Fault Bool × ObservableMapWrapper K V :=
  removeRetain (fun map r => map.value r) c

def entrySetRemoveRetain (c : Contains K V (Option K × Option V)) :
    Bool → ObservableMapWrapper K V → Except Fault Bool × ObservableMapWrapper K V :=
  removeRetain (fun map r => (map.key r, map.value r)) c

/-- `keySet().remove(o)`. -/
def keySetRemove (key : Option K) (m : ObservableMapWrapper K V) : Bool × ObservableMapWrapper K V :=
  let (ret, m) := m.remove key
  (ret.isSome, m)

/-- The loop of `values().remove(o)`, which calls `equals` on every value. -/
def valuesRemoveFrom (o : Option V) :
    List Nat → ObservableMapWrapper K V → Except Fault Bool × ObservableMapWrapper K V
  | [], m => (.ok false, m)
  | r :: rest, m =>
      match m.backingMap.value r with
      | none => (.error .nullPointer, m)
      | some v => if some v == o then (.ok true, m.removeNode r) else valuesRemoveFrom o rest m

def valuesRemove (o : Option V) (m : ObservableMapWrapper K V) : Except Fault Bool × ObservableMapWrapper K V :=
  valuesRemoveFrom o m.backingMap.table m

/-- `entrySet().remove(o)`, for an entry with this key and value; it reports the
key and the value of its argument. -/
def entrySetRemove (key : Option K) (value : Option V) (m : ObservableMapWrapper K V) :
    Bool × ObservableMapWrapper K V :=
  let (ret, map) := m.backingMap.removeEntry key value
  let m := { m with backingMap := map }
  if ret then (ret, m.callObservers (removal key value)) else (ret, m)

/-- `ObservableEntry.setValue`, for an entry that holds the node `r`. -/
def setValue (r : Nat) (value : Option V) (m : ObservableMapWrapper K V) : Option V × ObservableMapWrapper K V :=
  let oldValue := m.backingMap.value r
  (oldValue, { m with backingMap := m.backingMap.setValue r value }.callObservers
    ⟨m.backingMap.key r, oldValue, value, true, true⟩)

/-! ## The iterators -/

def iterator (m : ObservableMapWrapper K V) : ObservableMapWrapper K V :=
  { m with iterators := m.iterators ++ [⟨.create m.backingMap, none, none⟩] }

/-- `next` of the iterator `i`; it returns the node, of which the views show the
key, the value or an entry. -/
def iteratorNext (i : Nat) (it : ViewIterator K V) (m : ObservableMapWrapper K V) :
    Except Fault Nat × ObservableMapWrapper K V :=
  match it.entryIt.nextNode m.backingMap with
  | .error e => (.error e, m)
  | .ok (r, entryIt) =>
      (.ok r, { m with iterators := m.iterators.set i ⟨entryIt, m.backingMap.key r, m.backingMap.value r⟩ })

def iteratorRemove (i : Nat) (it : ViewIterator K V) (m : ObservableMapWrapper K V) :
    Except Fault Unit × ObservableMapWrapper K V :=
  match it.entryIt.remove m.backingMap with
  | .error e => (.error e, m)
  | .ok (map, entryIt) =>
      (.ok (), { m with backingMap := map, iterators := m.iterators.set i { it with entryIt := entryIt } }.callObservers
        (removal it.lastKey it.lastValue))

/-! ## Sequences of calls -/

/-- A call.  Iterators are numbered in the order of their creation, an entry is
given by its node.  `add` stands for `add` and `addAll` of the views. -/
inductive Call (K V : Type) where
  | put (wanted : List Nat) (key : Option K) (value : Option V)
  | remove (key : Option K)
  | putAll (entries : List (List Nat × Option K × Option V))
  | clear
  | keySetRemove (key : Option K)
  | keySetRemoveRetain (c : Contains K V (Option K)) (remove : Bool)
  | valuesRemove (o : Option V)
  | valuesRemoveRetain (c : Contains K V (Option V)) (remove : Bool)
  | entrySetRemove (key : Option K) (value : Option V)
  | entrySetRemoveRetain (c : Contains K V (Option K × Option V)) (remove : Bool)
  | add
  | iterator
  | next (i : Nat)
  | iteratorRemove (i : Nat)
  | setValue (r : Nat) (value : Option V)

def step (call : Call K V) (m : ObservableMapWrapper K V) : ObservableMapWrapper K V :=
  match call with
  | .put wanted key value => (m.put wanted key value).2
  | .remove key => (m.remove key).2
  | .putAll entries => m.putAll entries
  | .clear => m.clear
  | .keySetRemove key => (m.keySetRemove key).2
  | .keySetRemoveRetain c remove => (m.keySetRemoveRetain c remove).2
  | .valuesRemove o => (m.valuesRemove o).2
  | .valuesRemoveRetain c remove => (m.valuesRemoveRetain c remove).2
  | .entrySetRemove key value => (m.entrySetRemove key value).2
  | .entrySetRemoveRetain c remove => (m.entrySetRemoveRetain c remove).2
  | .add => m
  | .iterator => m.iterator
  | .next i =>
      match m.iterators[i]? with
      | some it => (m.iteratorNext i it).2
      | none => m
  | .iteratorRemove i =>
      match m.iterators[i]? with
      | some it => (m.iteratorRemove i it).2
      | none => m
  -- no entry holds a node that was not created yet
  | .setValue r value => if r < m.backingMap.allocated then (m.setValue r value).2 else m

end Operations
end ObservableMapWrapper
end OpenJfx.Collections
