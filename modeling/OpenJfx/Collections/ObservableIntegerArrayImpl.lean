import OpenJfx.Lib.Arrays
import OpenJfx.Lib.Run

/-! # `ObservableIntegerArrayImpl`

The elements are the first `size` places of `array`; what stands behind them is stale.  Sums of
two `int`s wrap.  A call with bad arguments throws, and what it has stored by then stays. -/
set_option autoImplicit false
namespace OpenJfx.Collections.ObservableIntegerArrayImpl
open OpenJfx.Lib

structure ArrayChange where
  sizeChanged : Bool
  fromIdx : Int
  toIdx : Int
deriving DecidableEq, Repr

/-- `fired` collects what was reported to the listeners. -/
structure State where
  array : List Int
  size : Int
  fired : List ArrayChange
deriving DecidableEq, Repr

def INITIAL : State := ⟨[], 0, []⟩

/-- An argument: a null reference, an `int[]`, the observable array itself or another one. -/
inductive Source where
  | null
  | ints (src : List Int)
  | self
  | other (src : State)
deriving DecidableEq, Repr

inductive Thrown where
  | exception (x : Exn)
  | outOfMemoryError
deriving DecidableEq, Repr

def MAX_ARRAY_SIZE : Int := 2 ^ 31 - 1 - 8

/-- A computation that throws before it stores anything. -/
def attempt {α β : Type} (s : β) (stored : α → β) (result : Except Exn α) : Outcome Thrown β :=
  .ofExcept s stored (result.mapError .exception)

namespace State

def fireChange (sizeChanged : Bool) (fromIdx toIdx : Int) (s : State) : State :=
  { s with fired := s.fired ++ [⟨sizeChanged, fromIdx, toIdx⟩] }

def rangeCheck (size : Int) (s : State) : Except Exn Unit :=
  if size > s.size then .error .arrayIndexOutOfBounds else .ok ()

def ensureCapacity (capacity : Int) (s : State) : State :=
  if s.array.length < capacity then
    { s with array := s.array ++ List.replicate (capacity.toNat - s.array.length) 0 }
  else s

def hugeCapacity (minCapacity : Int) : Option Int :=
  if minCapacity < 0 then none
  else if minCapacity > MAX_ARRAY_SIZE then some (2 ^ 31 - 1) else some MAX_ARRAY_SIZE

/-- The capacity that `growCapacity` asks for. -/
def grownCapacity (oldCapacity minCapacity : Int) : Option Int :=
  let newCapacity := wrapInt (oldCapacity + oldCapacity / 2)
  let newCapacity := if newCapacity < minCapacity then minCapacity else newCapacity
  if newCapacity > MAX_ARRAY_SIZE then hugeCapacity minCapacity else some newCapacity

def growCapacity (length : Int) (s : State) : Outcome Thrown State :=
  let minCapacity := wrapInt (s.size + length)
  if minCapacity > s.array.length then
    match grownCapacity s.array.length minCapacity with
    | some newCapacity => .done (s.ensureCapacity newCapacity)
    | none => .thrown .outOfMemoryError s
  else if length > 0 ∧ minCapacity < 0 then .thrown .outOfMemoryError s
  else .done s

/-- `copyTo` with an `int[]`. -/
def copyTo (srcIndex : Int) (dest : List Int) (destIndex length : Int) (s : State) : Except Exn (List Int) := do
  s.rangeCheck (wrapInt (srcIndex + length))
  arraycopy s.array srcIndex dest destIndex length

end State

namespace Source

/-- `src.length` or `src.size()`; `this` is the array the call is made on. -/
def size (this : State) : Source → Except Exn Int
  | .null => .error .nullPointer
  | .ints src => .ok src.length
  | .self => .ok this.size
  | .other src => .ok src.size

def copyTo (this : State) (srcIndex : Int) (dest : List Int) (destIndex length : Int) :
    Source → Except Exn (List Int)
  | .null => .error .nullPointer
  | .ints src => arraycopy src srcIndex dest destIndex length
  | .self => this.copyTo srcIndex dest destIndex length
  | .other src => src.copyTo srcIndex dest destIndex length

def rangeCheck (this : State) (srcIndex length : Int) (src : Source) : Except Exn Unit := do
  let size ← src.size this
  if srcIndex < 0 ∨ wrapInt (srcIndex + length) > size then .error .arrayIndexOutOfBounds
  else if length < 0 then .error .arrayIndexOutOfBounds
  else .ok ()

end Source

namespace State

def resize (newSize : Int) (s : State) : Outcome Thrown State :=
  if newSize < 0 then .thrown (.exception .negativeArraySize) s
  else
    let s' := s.ensureCapacity newSize
    let minSize := min s.size newSize
    let zeros := List.replicate (newSize.toNat - minSize.toNat) 0
    .done (fireChange (s.size ≠ newSize) minSize newSize
      { s' with
        array := s'.array.take minSize.toNat ++ (zeros ++ s'.array.drop newSize.toNat)
        size := newSize })

def clear (s : State) : Outcome Thrown State := s.resize 0

def addAllInternal (src : Source) (srcIndex length : Int) (s : State) : Outcome Thrown State :=
  (s.growCapacity length).bind fun s =>
    attempt s (fun array =>
        let size := wrapInt (s.size + length)
        fireChange (length ≠ 0) (wrapInt (size - length)) size { s with array, size })
      (src.copyTo s srcIndex s.array s.size length)

def addAll (src : Source) (s : State) : Outcome Thrown State :=
  match src.size s with
  | .error x => .thrown (.exception x) s
  | .ok length => s.addAllInternal src 0 length

def addAllRange (src : Source) (srcIndex length : Int) (s : State) : Outcome Thrown State :=
  match src.rangeCheck s srcIndex length with
  | .error x => .thrown (.exception x) s
  | .ok _ => s.addAllInternal src srcIndex length

def setAllInternal (src : Source) (srcIndex length : Int) (s : State) : Outcome Thrown State :=
  let sizeChanged := decide (s.size ≠ length)
  let fill (s : State) (array : List Int) := fireChange sizeChanged 0 length { s with array, size := length }
  if src = .self then
    if srcIndex = 0 then s.resize length
    else attempt s (fill s) (arraycopy s.array srcIndex s.array 0 length)
  else
    -- the size is given up in front of the copy
    let s := ensureCapacity length { s with size := 0 }
    attempt s (fill s) (src.copyTo s srcIndex s.array 0 length)

def setAll (src : Source) (s : State) : Outcome Thrown State :=
  match src.size s with
  | .error x => .thrown (.exception x) s
  | .ok length => s.setAllInternal src 0 length

def setAllRange (src : Source) (srcIndex length : Int) (s : State) : Outcome Thrown State :=
  match src.rangeCheck s srcIndex length with
  | .error x => .thrown (.exception x) s
  | .ok _ => s.setAllInternal src srcIndex length

def set (destIndex : Int) (src : Source) (srcIndex length : Int) (s : State) : Outcome Thrown State :=
  attempt s (fun array => fireChange false destIndex (wrapInt (destIndex + length)) { s with array }) (do
    s.rangeCheck (wrapInt (destIndex + length))
    src.copyTo s srcIndex s.array destIndex length)

/-- `set(index, value)`. -/
def setAt (index value : Int) (s : State) : Outcome Thrown State :=
  attempt s (fun array => fireChange false index (wrapInt (index + 1)) { s with array }) (do
    s.rangeCheck (wrapInt (index + 1))
    writeAt s.array index value)

/-- `copyTo` with the observable array `dest`. -/
def copyToObservable (s : State) (srcIndex : Int) (dest : State) (destIndex length : Int) : Outcome Thrown State :=
  match s.rangeCheck (wrapInt (srcIndex + length)) with
  | .error x => .thrown (.exception x) dest
  | .ok _ => dest.set destIndex (.ints s.array) srcIndex length

/-- `new int[length]`. -/
def newArray (length : Int) : Except Exn (List Int) :=
  if length < 0 then .error .negativeArraySize else .ok (List.replicate length.toNat 0)

/-- `dest`, or a new array when `dest` is null or too short. -/
def destination (dest : Option (List Int)) (length : Int) : Except Exn (List Int) :=
  match dest with
  | none => newArray length
  | some dest => if length > dest.length then newArray length else .ok dest

def toArray (dest : Option (List Int)) (s : State) : Except Exn (List Int) := do
  let dest ← destination dest s.size
  arraycopy s.array 0 dest 0 s.size

def toArrayRange (index : Int) (dest : Option (List Int)) (length : Int) (s : State) : Except Exn (List Int) := do
  s.rangeCheck (wrapInt (index + length))
  let dest ← destination dest length
  arraycopy s.array index dest 0 length

def trimToSize (s : State) : Outcome Thrown State :=
  if s.array.length ≠ s.size then
    attempt s (fun array => { s with array }) (do
      let dest ← newArray s.size
      arraycopy s.array 0 dest 0 s.size)
  else .done s

end State

inductive Call where
  | addAll (src : Source)
  | addAllRange (src : Source) (srcIndex length : Int)
  | setAll (src : Source)
  | setAllRange (src : Source) (srcIndex length : Int)
  | set (destIndex : Int) (src : Source) (srcIndex length : Int)
  | setAt (index value : Int)
  | resize (newSize : Int)
  | clear
  | ensureCapacity (capacity : Int)
  | trimToSize
  | copyTo (srcIndex : Int) (dest : Source) (destIndex length : Int)
  | toArray (dest : Option (List Int))
  | toArrayRange (index : Int) (dest : Option (List Int)) (length : Int)
deriving DecidableEq, Repr

/-- A call, with the elements of a destination other than the array itself. -/
def Call.make : Call → State → Outcome Thrown (State × Option (List Int))
  | .addAll src, s => (s.addAll src).map (·, none)
  | .addAllRange src srcIndex length, s => (s.addAllRange src srcIndex length).map (·, none)
  | .setAll src, s => (s.setAll src).map (·, none)
  | .setAllRange src srcIndex length, s => (s.setAllRange src srcIndex length).map (·, none)
  | .set destIndex src srcIndex length, s => (s.set destIndex src srcIndex length).map (·, none)
  | .setAt index value, s => (s.setAt index value).map (·, none)
  | .resize newSize, s => (s.resize newSize).map (·, none)
  | .clear, s => s.clear.map (·, none)
  | .ensureCapacity capacity, s => .done (s.ensureCapacity capacity, none)
  | .trimToSize, s => s.trimToSize.map (·, none)
  | .copyTo srcIndex .null _ length, s =>
      attempt (s, none) (s, some ·) (do
        s.rangeCheck (wrapInt (srcIndex + length))
        .error .nullPointer)
  | .copyTo srcIndex (.ints dest) destIndex length, s =>
      attempt (s, none) (s, some ·) (s.copyTo srcIndex dest destIndex length)
  | .copyTo srcIndex .self destIndex length, s => (s.copyToObservable srcIndex s destIndex length).map (·, none)
  | .copyTo srcIndex (.other dest) destIndex length, s =>
      (s.copyToObservable srcIndex dest destIndex length).map fun dest =>
        (s, some (dest.array.take dest.size.toNat))
  | .toArray dest, s => attempt (s, none) (s, some ·) (s.toArray dest)
  | .toArrayRange index dest length, s => attempt (s, none) (s, some ·) (s.toArrayRange index dest length)

/-- The state that the next call finds, also after an exception. -/
def Call.step (c : Call) (s : State) : State := (c.make s).state.1

end OpenJfx.Collections.ObservableIntegerArrayImpl
