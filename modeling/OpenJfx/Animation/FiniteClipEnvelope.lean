import Mathlib.Tactic.Ring
import Mathlib.Tactic.Linarith
import OpenJfx.Lib.Outcome

/-! # `FiniteClipEnvelope`

The clip envelope of an animation with a fixed number of cycles.  `timePulse`
walks cycle by cycle to the new total of ticks, `jumpTo` computes the position
of a total directly.  Ticks are `long` values: the three sums that can leave
the range wrap, the others stay between `0` and `totalTicks`.  The calls to the
animation are recorded, they do not come back to the envelope. -/
set_option autoImplicit false
namespace OpenJfx.Animation

inductive Status where
  | paused
  | running
  | stopped
deriving DecidableEq, Repr

/-- The calls that go through `AnimationAccessor`. -/
inductive AccessorCall where
  | playTo (pos cycleTicks : Int)
  | jumpTo (pos cycleTicks : Int)
  | setCurrentRate (currentRate : Int)
  | finished
deriving DecidableEq, Repr

/-- A `long` sum or product. -/
def wrapLong (x : Int) : Int := Int.bmod x (2 ^ 64)

theorem wrapLong_of_range {x : Int} (low : -2 ^ 63 ≤ x) (high : x < 2 ^ 63) : wrapLong x = x := by
  unfold wrapLong
  rw [Int.bmod_def]
  split <;> omega

/-- The conversion of a `long` to `double` and back: 53 significant bits,
rounded to the nearest, ties to even. -/
def doubleOfLong (x : Int) : Int :=
  let n := x.natAbs
  if n ≤ 2 ^ 53 then x
  else
    let unit := 2 ^ (n.log2 - 52)
    let q := n / unit
    let rest := n % unit
    let up := decide (unit < 2 * rest) || (decide (2 * rest = unit) && decide (q % 2 = 1))
    x.sign * ((if up then q + 1 else q) * unit : Nat)

/-- `Math.round(tick * Math.abs(rate))`. -/
def roundTicks (tick rate : Int) : Int :=
  max (-2 ^ 63) (min (doubleOfLong (doubleOfLong tick * |rate|)) (2 ^ 63 - 1))

namespace FiniteClipEnvelope

/-- The fields of `ClipEnvelope` and `FiniteClipEnvelope`.  Rates are whole
numbers here. -/
structure Envelope where
  autoReverse : Bool
  cycleCount : Int
  cycleTicks : Int
  totalTicks : Int
  rate : Int
  deltaTicks : Int
  ticks : Int
  currentRate : Int
  pos : Int
  calls : List AccessorCall
deriving DecidableEq, Repr

def checkBounds (value limit : Int) : Int := max 0 (min value limit)

namespace Envelope

def create (autoReverse : Bool) (cycleCount cycleTicks : Int) : Envelope where
  autoReverse := autoReverse
  cycleCount := cycleCount
  cycleTicks := cycleTicks
  totalTicks := wrapLong (cycleCount * cycleTicks)
  rate := 1
  deltaTicks := 0
  ticks := 0
  currentRate := 1
  pos := 0
  calls := []

def playTo (e : Envelope) : Envelope :=
  { e with calls := e.calls ++ [.playTo e.pos e.cycleTicks] }

def jumpAnimation (e : Envelope) : Envelope :=
  { e with calls := e.calls ++ [.jumpTo e.pos e.cycleTicks] }

def setCurrentRate (e : Envelope) (currentRate : Int) : Envelope :=
  { e with currentRate := currentRate, calls := e.calls ++ [.setCurrentRate currentRate] }

def finished (e : Envelope) : Envelope := { e with calls := e.calls ++ [.finished] }

/-- Whether the cycle of the total `ticks` is one of those that an auto-reversing
animation plays in the direction of its rate. -/
def isForward (e : Envelope) (ticks : Int) : Bool :=
  decide (ticks % wrapLong (2 * e.cycleTicks) < e.cycleTicks)

def calculateCurrentRate (e : Envelope) : Int :=
  if e.autoReverse = false then e.rate
  else if e.isForward e.ticks = decide (0 < e.rate) then e.rate else -e.rate

def start (e : Envelope) : Envelope :=
  let e := e.setCurrentRate e.calculateCurrentRate
  { e with deltaTicks := e.ticks }

/-- The body of the loop of `timePulse`, with the remaining delta: play to the
end of the cycle, then turn round or go back to its start. -/
def walkCycle (reachedEnd : Bool) (overallDelta cycleDelta : Int) (e : Envelope) : Int × Envelope :=
  let played : Int × Envelope :=
    if 0 < cycleDelta then
      (overallDelta - cycleDelta,
        { e with pos := if 0 < e.currentRate then e.cycleTicks else 0 }.playTo)
    else (overallDelta, e)
  let turned : Envelope :=
    if reachedEnd = false ∨ 0 < played.1 then
      if played.2.autoReverse then played.2.setCurrentRate (-played.2.currentRate)
      else
        { played.2 with
          pos := if 0 < played.2.currentRate then 0 else played.2.cycleTicks }.jumpAnimation
    else played.2
  (played.1, turned)

/-- The loop of `timePulse`; `none` when the fuel is used up. -/
def walk (reachedEnd : Bool) : Nat → Int → Int → Envelope → Option (Int × Envelope)
  | 0, _, _, _ => none
  | fuel + 1, overallDelta, cycleDelta, e =>
      if cycleDelta ≤ overallDelta then
        let walked := walkCycle reachedEnd overallDelta cycleDelta e
        walk reachedEnd fuel walked.1 walked.2.cycleTicks walked.2
      else some (overallDelta, e)

/-- After the first round every round takes one cycle off the delta. -/
def walkFuel (overallDelta : Int) : Nat := overallDelta.toNat + 2

/-- `none` when the loop does not end within its fuel. -/
def timePulse (currentTick : Int) (e : Envelope) : Option Envelope :=
  if e.cycleTicks = 0 then some e
  else
    let oldTicks := e.ticks
    let e := { e with
      ticks := checkBounds (wrapLong (e.deltaTicks + roundTicks currentTick e.rate)) e.totalTicks }
    let reachedEnd := decide (e.totalTicks ≤ e.ticks)
    let overallDelta := e.ticks - oldTicks
    if overallDelta = 0 then some e
    else
      let cycleDelta := if 0 < e.currentRate then e.cycleTicks - e.pos else e.pos
      match walk reachedEnd (walkFuel overallDelta) overallDelta cycleDelta e with
      | none => none
      | some (overallDelta, e) =>
          let e :=
            if 0 < overallDelta ∧ reachedEnd = false then
              { e with
                pos := e.pos + if 0 < e.currentRate then overallDelta else -overallDelta }.playTo
            else e
          some (if reachedEnd then e.finished else e)

/-- The part of `jumpTo` that computes the position of the new total.  An
animation that is not running keeps its current rate. -/
def reposition (status : Status) (e : Envelope) : Envelope :=
  if e.autoReverse then
    if e.isForward e.ticks = decide (0 < e.rate) then
      let e := { e with pos := e.ticks % e.cycleTicks }
      if status = .running then e.setCurrentRate |e.rate| else e
    else
      let e := { e with pos := e.cycleTicks - e.ticks % e.cycleTicks }
      if status = .running then e.setCurrentRate (-|e.rate|) else e
  else
    let e := { e with pos := e.ticks % e.cycleTicks }
    let e := if e.rate < 0 then { e with pos := e.cycleTicks - e.pos } else e
    if e.pos = 0 ∧ 0 < e.ticks then { e with pos := e.cycleTicks } else e

def jumpTo (status : Status) (newTicks : Int) (e : Envelope) : Envelope :=
  if e.cycleTicks = 0 then e
  else
    let oldTicks := e.ticks
    let newTicks := if e.rate < 0 then wrapLong (e.totalTicks - newTicks) else newTicks
    let ticks := checkBounds newTicks e.totalTicks
    let delta := ticks - oldTicks
    if delta = 0 then { e with ticks := ticks }
    else
      let e := { e with ticks := ticks, deltaTicks := wrapLong (e.deltaTicks + delta) }
      (e.reposition status).jumpAnimation

end Envelope
end FiniteClipEnvelope
end OpenJfx.Animation
