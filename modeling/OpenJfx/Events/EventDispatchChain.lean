import OpenJfx.Lib.Arena

/-! # `EventDispatchChainImpl`

The dispatchers of a chain and their links stand in two arrays that all levels
of a nested dispatch share: a dispatch moves the head on, calls the dispatcher
with the chain itself and puts the counters back when the call returns.  Slots
that a nested call reserved are handed out again afterwards. -/
set_option autoImplicit false
namespace OpenJfx.Events
open OpenJfx.Lib

/-- The fields of the class; the two arrays that have not been allocated are
empty. -/
structure DispatchChain (D : Type) where
  dispatchers : List (Option D)
  nextLinks : List Nat
  reservedCount : Nat
  activeCount : Nat
  headIndex : Nat
  tailIndex : Nat
deriving DecidableEq, Repr

/-- What a dispatcher call looks like from outside: the chain it gets, and the
event and the chain when it is over. -/
inductive Entry (D E : Type) where
  | called (dispatcher : D) (event : E) (chain : Option (List D))
  | returned (event : Option E) (chain : Option (List D))
deriving DecidableEq, Repr

namespace DispatchChain
variable {D E : Type}

def new : DispatchChain D := ⟨[], [], 0, 0, 0, 0⟩

def capacityGrowthFactor : Nat := 8

def reset (c : DispatchChain D) : DispatchChain D :=
  { c with
    dispatchers := List.replicate c.reservedCount none ++ c.dispatchers.drop c.reservedCount
    reservedCount := 0
    activeCount := 0
    headIndex := 0
    tailIndex := 0 }

def ensureCapacity (c : DispatchChain D) (size : Nat) : DispatchChain D :=
  let newCapacity := (size + capacityGrowthFactor - 1) / capacityGrowthFactor * capacityGrowthFactor
  if newCapacity = 0 then c
  else
    { c with
      dispatchers := grow none newCapacity c.reservedCount c.dispatchers
      nextLinks := grow 0 newCapacity c.reservedCount c.nextLinks }

def insertFirst (c : DispatchChain D) (eventDispatcher : D) : Except Exn (DispatchChain D) := do
  let dispatchers ← writeAt c.dispatchers c.reservedCount (some eventDispatcher)
  return { c with
    dispatchers := dispatchers
    headIndex := c.reservedCount
    tailIndex := c.reservedCount
    activeCount := 1
    reservedCount := c.reservedCount + 1 }

def append (c : DispatchChain D) (eventDispatcher : D) : Except Exn (DispatchChain D) := do
  let c := c.ensureCapacity (c.reservedCount + 1)
  if c.activeCount = 0 then c.insertFirst eventDispatcher
  else
    let dispatchers ← writeAt c.dispatchers c.reservedCount (some eventDispatcher)
    let nextLinks ← writeAt c.nextLinks c.tailIndex c.reservedCount
    return { c with
      dispatchers := dispatchers
      nextLinks := nextLinks
      tailIndex := c.reservedCount
      activeCount := c.activeCount + 1
      reservedCount := c.reservedCount + 1 }

def prepend (c : DispatchChain D) (eventDispatcher : D) : Except Exn (DispatchChain D) := do
  let c := c.ensureCapacity (c.reservedCount + 1)
  if c.activeCount = 0 then c.insertFirst eventDispatcher
  else
    let dispatchers ← writeAt c.dispatchers c.reservedCount (some eventDispatcher)
    let nextLinks ← writeAt c.nextLinks c.reservedCount c.headIndex
    return { c with
      dispatchers := dispatchers
      nextLinks := nextLinks
      headIndex := c.reservedCount
      activeCount := c.activeCount + 1
      reservedCount := c.reservedCount + 1 }

/-- `call` is the dispatcher's own method: it gets the event and the chain, and
returns an event (or `null`), the chain as it left it and what it did. -/
def dispatchEvent (c : DispatchChain D) (event : E)
    (call : D → E → DispatchChain D → Except Exn (Option E × DispatchChain D × List (Entry D E))) :
    Except Exn (Option E × DispatchChain D × List (Entry D E)) :=
  if c.activeCount = 0 then .ok (some event, c, [])
  else do
    let nextEventDispatcher ← readAt c.dispatchers c.headIndex
    let headIndex ← readAt c.nextLinks c.headIndex
    match nextEventDispatcher with
    | none => .error .nullPointer
    | some dispatcher =>
        let (returnEvent, after, log) ←
          call dispatcher event { c with headIndex := headIndex, activeCount := c.activeCount - 1 }
        -- pop saved state
        return (returnEvent,
          { after with
            headIndex := c.headIndex
            tailIndex := c.tailIndex
            activeCount := c.activeCount
            reservedCount := c.reservedCount }, log)

/-- The dispatchers met when `count` links are followed from `index` on. -/
def follow (c : DispatchChain D) : Nat → Nat → Option (List D)
  | 0, _ => some []
  | count + 1, index => do
      let dispatcher ← c.dispatchers[index]?.join
      let next ← c.nextLinks[index]?
      let rest ← follow c count next
      return dispatcher :: rest

def denoted (c : DispatchChain D) : Option (List D) := c.follow c.activeCount c.headIndex

end DispatchChain

/-! ## Programs that use one chain -/

/-- What a client, or a dispatcher during its call, does with the chain.  In
`dispatch event body answer rest` the called dispatcher does `body`, then
returns `answer`. -/
inductive Script (D E : Type) where
  | done
  | append (eventDispatcher : D) (rest : Script D E)
  | prepend (eventDispatcher : D) (rest : Script D E)
  | dispatch (event : E) (body : Script D E) (answer : Option E) (rest : Script D E)
deriving DecidableEq, Repr

/-- What the owner of the chain does between resets. -/
inductive Turn (D E : Type) where
  | reset
  | script (actions : Script D E)
deriving DecidableEq, Repr

section Run
variable {D E : Type}

/-- A dispatcher that does `body` to the chain it gets and then returns `answer`. -/
def answering (body : DispatchChain D → Except Exn (DispatchChain D × List (Entry D E)))
    (answer : Option E) (dispatcher : D) (event : E) (chain : DispatchChain D) :
    Except Exn (Option E × DispatchChain D × List (Entry D E)) := do
  let (after, log) ← body chain
  return (answer, after, .called dispatcher event chain.denoted :: log)

def Script.run : Script D E → DispatchChain D → Except Exn (DispatchChain D × List (Entry D E))
  | .done, c => .ok (c, [])
  | .append d rest, c => do
      let c ← c.append d
      rest.run c
  | .prepend d rest, c => do
      let c ← c.prepend d
      rest.run c
  | .dispatch event body answer rest, c => do
      let (returnEvent, popped, log) ← c.dispatchEvent event (answering body.run answer)
      let (last, more) ← rest.run popped
      return (last, log ++ .returned returnEvent popped.denoted :: more)

def Turn.run : Turn D E → DispatchChain D → Except Exn (DispatchChain D × List (Entry D E))
  | .reset, c => .ok (c.reset, [])
  | .script actions, c => actions.run c

def runTurns : List (Turn D E) → DispatchChain D → Except Exn (DispatchChain D × List (Entry D E))
  | [], c => .ok (c, [])
  | turn :: turns, c => do
      let (next, log) ← turn.run c
      let (last, more) ← runTurns turns next
      return (last, log ++ more)

end Run

/-! ## The immutable list

The same programs over a list that nobody changes: appending and prepending
make a longer list, a dispatch hands the tail of the list to its head and goes
on with the list it had. -/

section Spec
variable {D E : Type}

def Script.onList : Script D E → List D → List D × List (Entry D E)
  | .done, ds => (ds, [])
  | .append d rest, ds => rest.onList (ds ++ [d])
  | .prepend d rest, ds => rest.onList (d :: ds)
  | .dispatch event _ _ rest, [] =>
      ((rest.onList []).1, .returned (some event) (some []) :: (rest.onList []).2)
  | .dispatch event body answer rest, d :: ds =>
      ((rest.onList (d :: ds)).1,
        (.called d event (some ds) :: (body.onList ds).2) ++
          .returned answer (some (d :: ds)) :: (rest.onList (d :: ds)).2)

def Turn.onList : Turn D E → List D → List D × List (Entry D E)
  | .reset, _ => ([], [])
  | .script actions, ds => actions.onList ds

def turnsOnList : List (Turn D E) → List D → List D × List (Entry D E)
  | [], ds => (ds, [])
  | turn :: turns, ds =>
      ((turnsOnList turns (turn.onList ds).1).1,
        (turn.onList ds).2 ++ (turnsOnList turns (turn.onList ds).1).2)

end Spec

end OpenJfx.Events
