import Mathlib.Data.Sign.Defs
import Mathlib.Tactic.LinearCombination
import OpenJfx.Animation.ClipPosition

/-! # Direction of an auto-reversing clip

`jumpTo` and `calculateCurrentRate` of `FiniteClipEnvelope` each find the direction from the
cycle the total of ticks is in.  The rate is any number here; with a negative one the ticks
count from the end. -/
set_option autoImplicit false
namespace OpenJfx.Animation.FiniteClipEnvelope

/-- The fields of the envelope, without the record of calls. -/
structure RatedEnvelope (R : Type) where
  autoReverse : Bool
  cycleTicks : Int
  totalTicks : Int
  rate : R
  deltaTicks : Int
  ticks : Int
  currentRate : R
  pos : Int
deriving DecidableEq

namespace RatedEnvelope
variable {R : Type} [AddCommGroup R] [LinearOrder R]

def isForward (e : RatedEnvelope R) (ticks : Int) : Bool := decide (ticks % wrapLong (2 * e.cycleTicks) < e.cycleTicks)

def calculateCurrentRate (e : RatedEnvelope R) : R :=
  if e.autoReverse = false then e.rate
  else if e.isForward e.ticks = decide (0 < e.rate) then e.rate
  else -e.rate

/-- The part of `jumpTo` that computes the position of the new total. -/
def reposition (status : Status) (e : RatedEnvelope R) : RatedEnvelope R :=
  if e.autoReverse then
    if e.isForward e.ticks = decide (0 < e.rate) then
      let e := { e with pos := e.ticks % e.cycleTicks }
      if status = .running then { e with currentRate := |e.rate| } else e
    else
      let e := { e with pos := e.cycleTicks - e.ticks % e.cycleTicks }
      if status = .running then { e with currentRate := -|e.rate| } else e
  else
    let e := { e with pos := e.ticks % e.cycleTicks }
    let e := if e.rate < 0 then { e with pos := e.cycleTicks - e.pos } else e
    if e.pos = 0 ∧ 0 < e.ticks then { e with pos := e.cycleTicks } else e

/-- The total that `jumpTo` reaches. -/
def jumpTicks (e : RatedEnvelope R) (newTicks : Int) : Int :=
  checkBounds (if e.rate < 0 then wrapLong (e.totalTicks - newTicks) else newTicks) e.totalTicks

def jumpTo (status : Status) (newTicks : Int) (e : RatedEnvelope R) : RatedEnvelope R :=
  if e.cycleTicks = 0 then e
  else
    let ticks := e.jumpTicks newTicks
    let delta := ticks - e.ticks
    if delta = 0 then { e with ticks := ticks }
    else { e with ticks := ticks, deltaTicks := wrapLong (e.deltaTicks + delta) }.reposition status

end RatedEnvelope

/-! ## The envelope with a whole rate

`Envelope` computes what `RatedEnvelope` does and also records the calls to the animation. -/

/-- The envelope without its record of calls. -/
def Envelope.rated (e : Envelope) : RatedEnvelope Int :=
  ⟨e.autoReverse, e.cycleTicks, e.totalTicks, e.rate, e.deltaTicks, e.ticks, e.currentRate, e.pos⟩

theorem rated_calculateCurrentRate (e : Envelope) : e.rated.calculateCurrentRate = e.calculateCurrentRate := rfl

theorem rated_reposition (status : Status) (e : Envelope) : (e.reposition status).rated = e.rated.reposition status := by
  unfold Envelope.reposition RatedEnvelope.reposition
  by_cases hauto : e.autoReverse = true
  · rw [if_pos hauto, if_pos (show e.rated.autoReverse = true from hauto)]
    by_cases hforward : e.isForward e.ticks = decide (0 < e.rate)
    · rw [if_pos hforward, if_pos (show e.rated.isForward e.rated.ticks = decide (0 < e.rated.rate) from hforward)]
      cases status <;> rfl
    · rw [if_neg hforward, if_neg (show ¬e.rated.isForward e.rated.ticks = decide (0 < e.rated.rate) from hforward)]
      cases status <;> rfl
  · rw [if_neg hauto, if_neg (show ¬e.rated.autoReverse = true from hauto)]
    by_cases hneg : e.rate < 0
    · simp only [if_pos hneg, if_pos (show e.rated.rate < 0 from hneg)]
      exact apply_ite Envelope.rated _ _ _
    · simp only [if_neg hneg, if_neg (show ¬e.rated.rate < 0 from hneg)]
      exact apply_ite Envelope.rated _ _ _

theorem rated_jumpTo (status : Status) (newTicks : Int) (e : Envelope) :
    (e.jumpTo status newTicks).rated = e.rated.jumpTo status newTicks := by
  simp only [Envelope.jumpTo, RatedEnvelope.jumpTo, apply_ite Envelope.rated]
  split
  case isTrue hzero => rw [if_pos (show e.rated.cycleTicks = 0 from hzero)]
  case isFalse hzero =>
    rw [if_neg (show ¬e.rated.cycleTicks = 0 from hzero)]
    refine if_congr Iff.rfl rfl ?_
    exact rated_reposition status _

/-! ## The position in an auto-reversing clip -/

/-- The position of an auto-reversing clip after the play time `t`. -/
def reversingPos (c t : Int) : Int := if t % (2 * c) < c then t % c else c - t % c

/-! ## Direction and position after a jump -/

namespace RatedEnvelope
variable {R : Type} [AddCommGroup R] [LinearOrder R] [IsOrderedAddMonoid R]

/-- An auto-reversing envelope with a rate, whose ticks are `long` values. -/
structure Reversing (e : RatedEnvelope R) : Prop where
  auto : e.autoReverse = true
  rate : e.rate ≠ 0
  cycle : 0 ≤ e.cycleTicks ∧ e.cycleTicks < 2 ^ 63
  total : e.totalTicks < 2 ^ 63

def Moves (e : RatedEnvelope R) (newTicks : Int) : Prop := e.cycleTicks ≠ 0 ∧ e.jumpTicks newTicks ≠ e.ticks

def playTime (e : RatedEnvelope R) (ticks : Int) : Int := if 0 < e.rate then ticks else e.totalTicks - ticks

/-- A jump of a running animation that moves leaves the direction `calculateCurrentRate`
gives and the position at the play time. -/
def Consistent (e : RatedEnvelope R) (newTicks : Int) : Prop :=
  Moves e newTicks →
    SignType.sign (e.jumpTo .running newTicks).currentRate =
        SignType.sign (e.jumpTo .running newTicks).calculateCurrentRate ∧
      (e.jumpTo .running newTicks).pos = reversingPos e.cycleTicks (e.playTime (e.jumpTicks newTicks))

/-- The cycle is short enough for twice its length to be a `long`, the total lies before
the wrapped one, or in the middle of a cycle. -/
def Doubles (e : RatedEnvelope R) (ticks : Int) : Prop :=
  e.cycleTicks < 2 ^ 62 ∨ ticks < max e.cycleTicks (2 ^ 64 - 2 * e.cycleTicks) ∨ 2 * (ticks % e.cycleTicks) = e.cycleTicks

variable {e : RatedEnvelope R} {newTicks : Int}

omit [IsOrderedAddMonoid R] in
theorem jumpTo_of_moves (h : Reversing e) (hmoves : Moves e newTicks) : e.jumpTo .running newTicks =
    { e with
      ticks := e.jumpTicks newTicks
      deltaTicks := wrapLong (e.deltaTicks + (e.jumpTicks newTicks - e.ticks))
      pos := if e.isForward (e.jumpTicks newTicks) = decide (0 < e.rate) then e.jumpTicks newTicks % e.cycleTicks
        else e.cycleTicks - e.jumpTicks newTicks % e.cycleTicks
      currentRate := if e.isForward (e.jumpTicks newTicks) = decide (0 < e.rate) then |e.rate| else -|e.rate| } := by
  have hmoved : ¬e.jumpTicks newTicks - e.ticks = 0 := fun hsame => hmoves.2 (by omega)
  by_cases hforward : e.isForward (e.jumpTicks newTicks) = decide (0 < e.rate)
  · simp only [if_pos hforward]
    simp only [isForward] at hforward
    simp only [jumpTo, if_neg hmoves.1, if_neg hmoved, reposition, if_pos h.auto, isForward, if_pos hforward, if_true]
  · simp only [if_neg hforward]
    simp only [isForward] at hforward
    simp only [jumpTo, if_neg hmoves.1, if_neg hmoved, reposition, if_pos h.auto, isForward, if_neg hforward, if_true]

theorem sign_jumpTo_iff (h : Reversing e) (hmoves : Moves e newTicks) :
    SignType.sign (e.jumpTo .running newTicks).currentRate =
        SignType.sign (e.jumpTo .running newTicks).calculateCurrentRate ↔
      0 < e.rate := by
  rw [jumpTo_of_moves h hmoves]
  have hcalculate : calculateCurrentRate { e with
      ticks := e.jumpTicks newTicks
      deltaTicks := wrapLong (e.deltaTicks + (e.jumpTicks newTicks - e.ticks))
      pos := if e.isForward (e.jumpTicks newTicks) = decide (0 < e.rate) then e.jumpTicks newTicks % e.cycleTicks
        else e.cycleTicks - e.jumpTicks newTicks % e.cycleTicks
      currentRate := if e.isForward (e.jumpTicks newTicks) = decide (0 < e.rate) then |e.rate| else -|e.rate| } =
      if e.isForward (e.jumpTicks newTicks) = decide (0 < e.rate) then e.rate else -e.rate := by
    simp only [calculateCurrentRate, h.auto, isForward]
    rfl
  rw [hcalculate]
  rcases lt_or_gt_of_ne h.rate with hneg | hpos
  · refine iff_of_false (fun hsame => ?_) (not_lt_of_gt hneg)
    have hpositive := neg_pos.mpr hneg
    split at hsame
    case isTrue =>
      simp only [abs_of_neg hneg, sign_pos hpositive, sign_neg hneg] at hsame
      cases hsame
    case isFalse =>
      simp only [abs_of_neg hneg, neg_neg, sign_pos hpositive, sign_neg hneg] at hsame
      cases hsame
  · refine iff_of_true ?_ hpos
    rw [abs_of_pos hpos]

theorem emod_le {x d : Int} (hx : 0 ≤ x) (hd : 0 < d) : x % d ≤ x := by
  have hsplit := Int.emod_add_mul_ediv x d
  have hquotient := mul_nonneg hd.le (Int.ediv_nonneg hx hd.le)
  omega

theorem pos_iff_doubles {c t : Int} (hc : 0 < c) (hlong : c < 2 ^ 63) (ht : 0 ≤ t) (ht' : t < 2 ^ 63) :
    (if t % wrapLong (2 * c) < c then t % c else c - t % c) = reversingPos c t ↔
      c < 2 ^ 62 ∨ t < max c (2 ^ 64 - 2 * c) ∨ 2 * (t % c) = c := by
  by_cases hshort : c < 2 ^ 62
  · rw [wrapLong_of_range (by omega) (by omega), reversingPos]
    exact iff_of_true rfl (Or.inl hshort)
  · have hwrap : wrapLong (2 * c) = -(2 ^ 64 - 2 * c) := by
      rw [wrapLong, Int.bmod_def]
      omega
    have hexact : t % (2 * c) = t := Int.emod_eq_of_lt ht (by omega)
    -- the wrapped divisor sees the first cycle and, before it, what does not reach it
    have hagree : (t % (2 ^ 64 - 2 * c) < c ↔ t < c) ↔ t < max c (2 ^ 64 - 2 * c) := by
      by_cases hbelow : t < 2 ^ 64 - 2 * c
      · rw [Int.emod_eq_of_lt ht hbelow]
        omega
      · have hback : (t - (2 ^ 64 - 2 * c)) % (2 ^ 64 - 2 * c) = t % (2 ^ 64 - 2 * c) := Int.sub_emod_right ..
        have hle := emod_le (by omega : 0 ≤ t - (2 ^ 64 - 2 * c)) (by omega : 0 < 2 ^ 64 - 2 * c)
        omega
    rw [hwrap, Int.emod_neg, reversingPos, hexact, ← hagree, or_iff_right hshort]
    by_cases hwrapped : t % (2 ^ 64 - 2 * c) < c
    · rw [if_pos hwrapped]
      by_cases hfirst : t < c
      · rw [if_pos hfirst]
        exact iff_of_true rfl (Or.inl (iff_of_true hwrapped hfirst))
      · rw [if_neg hfirst]
        omega
    · rw [if_neg hwrapped]
      by_cases hfirst : t < c
      · rw [if_pos hfirst]
        omega
      · rw [if_neg hfirst]
        exact iff_of_true rfl (Or.inl (iff_of_false hwrapped hfirst))

omit [IsOrderedAddMonoid R] in
theorem jumpTicks_range (h : Reversing e) (newTicks : Int) :
    0 ≤ e.jumpTicks newTicks ∧ e.jumpTicks newTicks < 2 ^ 63 := by
  have htotal := h.total
  unfold jumpTicks checkBounds
  omega

/-- A jump leaves the direction that `calculateCurrentRate` gives and the position at the
play time if and only if the rate is positive and the double cycle is a `long`, or does not
have to be. -/
theorem consistent_iff (h : Reversing e) (newTicks : Int) :
    Consistent e newTicks ↔ (Moves e newTicks → 0 < e.rate ∧ Doubles e (checkBounds newTicks e.totalTicks)) := by
  refine imp_congr_right fun hmoves => ?_
  rw [sign_jumpTo_iff h hmoves]
  refine and_congr_right fun hrate => ?_
  obtain ⟨hlow, hhigh⟩ := jumpTicks_range h newTicks
  have hcycle : 0 < e.cycleTicks := lt_of_le_of_ne h.cycle.1 (Ne.symm hmoves.1)
  have hticks : e.jumpTicks newTicks = checkBounds newTicks e.totalTicks := by
    rw [jumpTicks, if_neg (not_lt_of_gt hrate)]
  rw [jumpTo_of_moves h hmoves, playTime, if_pos hrate, Doubles, ← hticks, ← pos_iff_doubles hcycle h.cycle.2 hlow hhigh]
  simp only [isForward, hrate, decide_true, decide_eq_true_eq]

/-- Half the rate, a jump into the second of two cycles. -/
theorem consistent_half : Consistent (⟨true, 6, 12, 1 / 2, 0, 0, 1 / 2, 0⟩ : RatedEnvelope ℚ) 8 :=
  (consistent_iff ⟨rfl, by norm_num, by decide, by decide⟩ 8).mpr fun _ => ⟨by norm_num, Or.inl (by decide)⟩

/-- The same jump of an animation that plays backwards. -/
theorem not_consistent : ¬∀ (cycleCount : Int) (e : RatedEnvelope Int) (newTicks : Int), 2 ≤ cycleCount →
    e.totalTicks = wrapLong (cycleCount * e.cycleTicks) → Reversing e → Consistent e newTicks := by
  intro h
  have hjump := h 2 ⟨true, 6, 12, -1, 0, 0, -1, 6⟩ 8 (by decide) (by decide) ⟨rfl, by decide, by decide, by decide⟩
    ⟨by decide, by decide⟩
  exact absurd hjump.1 (by decide)

end RatedEnvelope
end OpenJfx.Animation.FiniteClipEnvelope
