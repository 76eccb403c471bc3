import OpenJfx.Animation.ReceiverArray

/-! # `AbstractMasterTimer`

The timer with the local variables of a pulse in progress: every receiver that
a pulse calls may register and remove receivers, pause and resume before the
loop goes on, so a turn of the loop is a step of its own.  Pulses do not nest.
The times at which pulses are scheduled are left out. -/
set_option autoImplicit false
namespace OpenJfx.Animation

open OpenJfx.Lib

/-- The local variables of `timePulseImpl`, in its first and its second loop. -/
inductive Frame where
  | receivers (now : Int) (receiversSnapshot rLength i : Nat)
  | animationTimers (now : Int) (animationTimersSnapshot aTLength i : Nat)
deriving DecidableEq, Repr

structure MasterTimer (α β : Type) where
  paused : Bool
  totalPausedTime : Int
  startPauseTime : Int
  receivers : ReceiverArray α
  animationTimers : ReceiverArray β
  fixedPulseLength : Int
  debugNanos : Int
  /-- `MainLoop.inactive`. -/
  inactive : Bool
  /-- The calls of `postUpdateAnimationRunnable`, with `false` for `null`. -/
  posted : List Bool
  /-- `System.nanoTime()`. -/
  nanoTime : Int
  frame : Option Frame
deriving DecidableEq, Repr

/-- A call out of a pulse. -/
inductive PulseCall (α β : Type) where
  | timePulse (receiver : α) (now : Int)
  | handle (timer : β) (now : Int)
deriving DecidableEq, Repr

namespace MasterTimer
variable {α β : Type} [DecidableEq α] [DecidableEq β]

def create (fixedPulseLength nanoTime : Int) : MasterTimer α β where
  paused := false
  totalPausedTime := 0
  startPauseTime := 0
  receivers := .empty
  animationTimers := .empty
  fixedPulseLength := fixedPulseLength
  debugNanos := 0
  inactive := true
  posted := []
  nanoTime := nanoTime
  frame := none

def nanos (t : MasterTimer α β) : Int :=
  if 0 < t.fixedPulseLength then t.debugNanos
  else if t.paused then t.startPauseTime
  else t.nanoTime - t.totalPausedTime

def pause (t : MasterTimer α β) : MasterTimer α β :=
  if t.paused then t else { t with startPauseTime := t.nanos, paused := true }

def resume (t : MasterTimer α β) : MasterTimer α β :=
  if t.paused then
    let t := { t with paused := false }
    { t with totalPausedTime := t.totalPausedTime + (t.nanos - t.startPauseTime) }
  else t

def updateAnimationRunnable (t : MasterTimer α β) : MasterTimer α β :=
  let newInactive := decide (t.animationTimers.length = 0 ∧ t.receivers.length = 0)
  if t.inactive = newInactive then t
  else { t with inactive := newInactive, posted := t.posted ++ [!newInactive] }

def addPulseReceiver (target : α) (t : MasterTimer α β) : Except Exn (MasterTimer α β) :=
  match t.receivers.add target with
  | .error x => .error x
  | .ok receivers =>
      let t := { t with receivers := receivers }
      .ok (if t.receivers.length = 1 then t.updateAnimationRunnable else t)

def removePulseReceiver (target : α) (t : MasterTimer α β) : Except Exn (MasterTimer α β) :=
  match t.receivers.remove target with
  | .error x => .error x
  | .ok receivers =>
      let t := { t with receivers := receivers }
      .ok (if t.receivers.length = 0 then t.updateAnimationRunnable else t)

def addAnimationTimer (timer : β) (t : MasterTimer α β) : Except Exn (MasterTimer α β) :=
  match t.animationTimers.add timer with
  | .error x => .error x
  | .ok animationTimers =>
      let t := { t with animationTimers := animationTimers }
      .ok (if t.animationTimers.length = 1 then t.updateAnimationRunnable else t)

def removeAnimationTimer (timer : β) (t : MasterTimer α β) : Except Exn (MasterTimer α β) :=
  match t.animationTimers.remove timer with
  | .error x => .error x
  | .ok animationTimers =>
      let t := { t with animationTimers := animationTimers }
      .ok (if t.animationTimers.length = 0 then t.updateAnimationRunnable else t)

/-- The start of `timePulseImpl`, up to its first loop. -/
def timePulseImpl (now : Int) (t : MasterTimer α β) : MasterTimer α β :=
  let fixed := decide (0 < t.fixedPulseLength)
  let t := if fixed then { t with debugNanos := t.debugNanos + t.fixedPulseLength } else t
  let now := if fixed then t.debugNanos else now
  { t with
    frame := some (.receivers now t.receivers.current t.receivers.length 0)
    receivers := { t.receivers with locked := true } }

/-- `MainLoop.run`, up to the first loop of the pulse. -/
def run (t : MasterTimer α β) : MasterTimer α β :=
  if t.paused then t else t.timePulseImpl t.nanos

/-- A slot of a snapshot: the call on `null` throws. -/
def called {γ : Type} (snapshot : List (Option γ)) (i : Nat) : Except Exn γ :=
  match readAt snapshot i with
  | .error x => .error x
  | .ok none => .error .nullPointer
  | .ok (some receiver) => .ok receiver

/-- One turn of the loops of `timePulseImpl`, with the call it makes. -/
def next (t : MasterTimer α β) : Except Exn (Option (PulseCall α β) × MasterTimer α β) :=
  match t.frame with
  | none => .ok (none, t)
  | some (.receivers now snapshot rLength i) =>
      if i < rLength then
        match called (t.receivers.array snapshot) i with
        | .error x => .error x
        | .ok receiver =>
            .ok (some (.timePulse receiver now),
              { t with frame := some (.receivers now snapshot rLength (i + 1)) })
      else
        .ok (none, { t with
          receivers := { t.receivers with locked := false }
          frame := some (.animationTimers now t.animationTimers.current t.animationTimers.length 0)
          animationTimers := { t.animationTimers with locked := true } })
  | some (.animationTimers now snapshot aTLength i) =>
      if i < aTLength then
        match called (t.animationTimers.array snapshot) i with
        | .error x => .error x
        | .ok timer =>
            .ok (some (.handle timer now),
              { t with frame := some (.animationTimers now snapshot aTLength (i + 1)) })
      else
        .ok (none, { t with
          animationTimers := { t.animationTimers with locked := false }
          frame := none }.updateAnimationRunnable)

/-- The filled slots of the receiver array. -/
def registrations (t : MasterTimer α β) : List (Option α) :=
  (t.receivers.array t.receivers.current).take t.receivers.length

end MasterTimer

/-! ## Runs -/

inductive TimerEvent (α β : Type) where
  | addPulseReceiver (target : α)
  | removePulseReceiver (target : α)
  | addAnimationTimer (timer : β)
  | removeAnimationTimer (timer : β)
  | pause
  | resume
  /-- The system clock shows `now`. -/
  | nanoTime (now : Int)
  | run
  | next
deriving DecidableEq, Repr

/-- The receivers registered when a pulse started and those it has called. -/
structure PulseRecord (α : Type) where
  registered : List (Option α)
  called : List α
deriving DecidableEq, Repr

/-- A timer with the records of its pulses, the last one first. -/
structure Session (α β : Type) where
  timer : MasterTimer α β
  pulses : List (PulseRecord α)
deriving DecidableEq, Repr

namespace Session
variable {α β : Type} [DecidableEq α] [DecidableEq β]

def create (fixedPulseLength nanoTime : Int) : Session α β :=
  ⟨MasterTimer.create fixedPulseLength nanoTime, []⟩

def record : Option (PulseCall α β) → List (PulseRecord α) → List (PulseRecord α)
  | some (.timePulse receiver _), pulse :: earlier =>
      { pulse with called := pulse.called ++ [receiver] } :: earlier
  | _, pulses => pulses

def change (s : Session α β) (result : Except Exn (MasterTimer α β)) : Outcome Exn (Session α β) :=
  Outcome.ofExcept s (fun t => { s with timer := t }) result

def step : TimerEvent α β → Session α β → Outcome Exn (Session α β)
  | .addPulseReceiver target, s => s.change (s.timer.addPulseReceiver target)
  | .removePulseReceiver target, s => s.change (s.timer.removePulseReceiver target)
  | .addAnimationTimer timer, s => s.change (s.timer.addAnimationTimer timer)
  | .removeAnimationTimer timer, s => s.change (s.timer.removeAnimationTimer timer)
  | .pause, s => .done { s with timer := s.timer.pause }
  | .resume, s => .done { s with timer := s.timer.resume }
  | .nanoTime now, s => .done { s with timer := { s.timer with nanoTime := now } }
  | .run, s =>
      .done ⟨s.timer.run, if s.timer.paused then s.pulses else ⟨s.timer.registrations, []⟩ :: s.pulses⟩
  | .next, s =>
      Outcome.ofExcept s (fun result => ⟨result.2, record result.1 s.pulses⟩) s.timer.next

end Session
end OpenJfx.Animation
