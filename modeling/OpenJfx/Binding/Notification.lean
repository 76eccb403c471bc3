import OpenJfx.Binding.ExpressionHelper

/-! # `fireValueChangedEvent`

Listeners are foreign code: while one is being notified it may register and
remove listeners, set the value and fire again, and the notification goes on when
it returns.  A run is therefore a list of steps; `next` returns from the callback
in progress and continues the innermost notification, and any other step is made
by that callback, or from outside when no notification is in progress.  An
exception thrown by a listener is caught, which is a return like any other.

With `compares` the machine is `ExpressionHelper`, which notifies the change
listeners only when the value has changed; without it, it is
`com.sun.javafx.collections.ListListenerHelper`, which has no value and always
notifies them. -/
set_option autoImplicit false
namespace OpenJfx.Binding
open OpenJfx.Lib

/-- What is known of a notification: the listeners registered when it started and
the slots it has called so far.  `changed` is false as long as the change listeners
are not due, which they never are when the value is compared and has not changed. -/
structure Record (I C : Type) where
  registeredInvalidation : List I
  registeredChange : List C
  invokedInvalidation : List (Option I)
  invokedChange : List (Option C)
  changed : Bool
deriving DecidableEq, Repr

/-- The two loops of `fireValueChangedEvent`, with their counters. -/
inductive Loop (V : Type) where
  | invalidation (i : Nat)
  | change (i : Nat) (oldValue : Option V)
deriving DecidableEq, Repr

/-- The local variables of `fireValueChangedEvent` of a `Generic`. -/
structure Fire (I C V : Type) where
  ref : Nat
  curInvalidation : Slots
  curChange : Slots
  loop : Loop V
  record : Record I C
deriving DecidableEq, Repr

/-- A notification in progress.  One started on a single helper has nothing left
to do when its listener returns. -/
inductive Frame (I C V : Type) where
  | single
  | generic (fire : Fire I C V)
deriving DecidableEq, Repr

inductive Entry (C V : Type) where
  | registered (listener : C) (value : Option V)
  | changed (listener : C) (oldValue newValue : Option V)
deriving DecidableEq, Repr

/-- An observable value with its helper; `valid` is the flag of the property
classes, which fire only when they have been read since the last time.  The last
fields are no part of the program: what has happened, and the listeners that have
been added and not removed since, in the order in which they were added. -/
structure Observable (I C V : Type) where
  helper : ExpressionHelper I C V
  value : Option V
  valid : Bool
  frames : List (Frame I C V)
  finished : List (Record I C)
  log : List (Entry C V)
  registeredInvalidation : List I
  registeredChange : List C
deriving DecidableEq, Repr

namespace Observable
variable {I C V : Type}

def start (value : Option V) : Observable I C V := ⟨ExpressionHelper.start, value, true, [], [], [], [], []⟩

/-- A notification that has called the slots `is` and `cs`. -/
def called (is : List (Option I)) (cs : List (Option C)) (changed : Bool) (o : Observable I C V) : List (Record I C) :=
  o.finished ++ [⟨o.registeredInvalidation, o.registeredChange, is, cs, changed⟩]

section Machine
variable [BEq I] [BEq C] [DecidableEq V] (compares : Bool)

def fire (o : Observable I C V) : Observable I C V :=
  match o.helper.helper with
  | .null => { o with finished := o.called [] [] true }
  | .singleInvalidation listener =>
      { o with
        frames := .single :: o.frames
        finished := o.called [some listener] [] true }
  | .singleChange listener oldValue =>
      if compares then
        -- `currentValue = observable.getValue()`
        let o := { o with
          valid := true
          helper := { o.helper with helper := .singleChange listener o.value } }
        if o.value ≠ oldValue then
          { o with
            frames := .single :: o.frames
            finished := o.called [] [some listener] true
            log := o.log ++ [.changed listener oldValue o.value] }
        else { o with finished := o.called [] [] false }
      else
        { o with
          frames := .single :: o.frames
          finished := o.called [] [some listener] true }
  | .generic ref =>
      match o.helper.generics[ref]? with
      | none => { o with finished := o.called [] [] true }
      | some g =>
          { o with
            helper := o.helper.modifyGeneric ref (fun g => { g with locked := true })
            frames := .generic ⟨ref, g.invalidation, g.change, .invalidation 0,
              ⟨o.registeredInvalidation, o.registeredChange, [], [], false⟩⟩ :: o.frames }

/-- `finally { locked = false; }`. -/
def finish (ref : Nat) (record : Record I C) (rest : List (Frame I C V)) (o : Observable I C V) :
    Observable I C V :=
  { o with
    helper := o.helper.modifyGeneric ref (fun g => { g with locked := false })
    frames := rest
    finished := o.finished ++ [record] }

def enterChanges (f : Fire I C V) (rest : List (Frame I C V)) (o : Observable I C V) : Observable I C V :=
  if compares then
    match o.helper.generics[f.ref]? with
    | none => o
    | some g =>
        if f.curChange.size > 0 then
          let o := { o with
            valid := true
            helper := o.helper.modifyGeneric f.ref (fun g => { g with currentValue := o.value }) }
          if o.value ≠ g.currentValue then
            { o with frames := .generic { f with
                loop := .change 0 g.currentValue
                record := { f.record with changed := true } } :: rest }
          else finish f.ref f.record rest o
        else finish f.ref { f.record with changed := true } rest o
  else
    { o with frames := .generic { f with
        loop := .change 0 none
        record := { f.record with changed := true } } :: rest }

def notifyChange (f : Fire I C V) (i : Nat) (oldValue : Option V) (rest : List (Frame I C V))
    (o : Observable I C V) : Observable I C V :=
  let slot := f.curChange.get o.helper.changeArrays i
  let currentValue := (o.helper.generics[f.ref]?).bind Generic.currentValue
  { o with
    frames := .generic { f with
      loop := .change (i + 1) oldValue
      record := { f.record with invokedChange := f.record.invokedChange ++ [slot] } } :: rest
    log := match slot with
      | some listener => if compares then o.log ++ [.changed listener oldValue currentValue] else o.log
      | none => o.log }

/-- The callback in progress returns. -/
def next (o : Observable I C V) : Observable I C V :=
  match o.frames with
  | [] => o
  | .single :: rest => { o with frames := rest }
  | .generic f :: rest =>
      match f.loop with
      | .invalidation i =>
          if i < f.curInvalidation.size then
            { o with frames := .generic { f with
                loop := .invalidation (i + 1)
                record := { f.record with invokedInvalidation := f.record.invokedInvalidation ++
                  [f.curInvalidation.get o.helper.invalidationArrays i] } } :: rest }
          else enterChanges compares f rest o
      | .change i oldValue =>
          if i < f.curChange.size then notifyChange compares f i oldValue rest o
          else finish f.ref f.record rest o

/-- `set` of the property classes: `markInvalid` fires only when the property was
valid. -/
def set (v : Option V) (o : Observable I C V) : Observable I C V :=
  if o.value ≠ v then
    if o.valid then fire compares { o with value := v, valid := false } else { o with value := v }
  else o

inductive Step (I C V : Type) where
  | addInvalidation (collected : I → Bool) (listener : I)
  | removeInvalidation (listener : I)
  | addChange (collected : C → Bool) (listener : C)
  | removeChange (listener : C)
  | fire
  | set (value : Option V)
  | next

/-- Whether registering a change listener reads the value: a `Generic` does not
when it has change listeners already. -/
def readsOnAdd (before after : ExpressionHelper I C V) : Bool :=
  match before.current, after.current with
  | some _, some g => g.change.size = 1
  | _, _ => true

/-- Whether the removal of a listener has made a new `SingleChange`. -/
def readsOnRemove (before after : ExpressionHelper I C V) : Bool :=
  match before.helper, after.helper with
  | .generic _, .singleChange _ _ => true
  | _, _ => false

def step : Step I C V → Observable I C V → Observable I C V
  | .addInvalidation collected listener, o =>
      { o with
        helper := o.helper.addInvalidation collected o.value listener
        valid := true
        registeredInvalidation := o.helper.keptInvalidation collected o.registeredInvalidation ++ [listener] }
  | .removeInvalidation listener, o =>
      let helper := o.helper.removeInvalidation o.value listener
      { o with
        helper := helper
        valid := o.valid || readsOnRemove o.helper helper
        registeredInvalidation := o.registeredInvalidation.eraseP (fun l => listener == l) }
  | .addChange collected listener, o =>
      let helper := o.helper.addChange collected o.value listener
      { o with
        helper := helper
        valid := o.valid || readsOnAdd o.helper helper
        log := o.log ++ [.registered listener o.value]
        registeredChange := o.helper.keptChange collected o.registeredChange ++ [listener] }
  | .removeChange listener, o =>
      let helper := o.helper.removeChange o.value listener
      { o with
        helper := helper
        valid := o.valid || readsOnRemove o.helper helper
        registeredChange := o.registeredChange.eraseP (fun l => listener == l) }
  | .fire, o => fire compares o
  | .set v, o => set compares v o
  | .next, o => next compares o

end Machine

/-- The notifications in progress on `Generic` helpers. -/
def fires (o : Observable I C V) : List (Fire I C V) :=
  o.frames.filterMap (fun frame => match frame with
    | .single => none
    | .generic f => some f)

end Observable
end OpenJfx.Binding
