import OpenJfx.Lib.NearestEven
import OpenJfx.Animation.FiniteClipEnvelope

/-! # Position of a pulsed clip envelope

`timePulse` and `jumpTo` keep the position at the closed form of the total of
ticks.  Inside `timePulse` the walk keeps a cycle `j` and the ticks `r` done of
it; at the end of a cycle `(j, cycleTicks)` and `(j + 1, 0)` are both in use. -/
set_option autoImplicit false
namespace OpenJfx.Animation.FiniteClipEnvelope

open OpenJfx.Lib

/-! ## Cycles -/

section Cycles
variable {c j r t : Int}

theorem div_of_inside (rpos : 0 ≤ r) (inside : r < c) : (j * c + r) / c = j := by
  have hc : 0 < c := by omega
  rw [Int.add_comm, Int.add_mul_ediv_right _ _ (by omega), Int.ediv_eq_zero_of_lt rpos inside]
  omega

theorem mod_of_inside (rpos : 0 ≤ r) (inside : r < c) : (j * c + r) % c = r := by
  rw [Int.add_comm, Int.add_mul_emod_self_right, Int.emod_eq_of_lt rpos inside]

theorem mod_double (hc : 0 < c) : t % (2 * c) < c ↔ (t / c) % 2 = 0 := by
  have hq := Int.emod_add_mul_ediv t c
  have hlow := Int.emod_nonneg t (by omega : c ≠ 0)
  have hhigh := Int.emod_lt_of_pos t hc
  have hpar := Int.emod_add_mul_ediv (t / c) 2
  rcases Int.emod_two_eq_zero_or_one (t / c) with even | odd
  · have ht : t = t % c + 2 * c * (t / c / 2) := by
      rw [even] at hpar
      calc t = t % c + c * (t / c) := hq.symm
        _ = t % c + c * (2 * (t / c / 2)) := by rw [← hpar]; simp
        _ = t % c + 2 * c * (t / c / 2) := by ring
    have hmod : t % (2 * c) = t % c := by
      conv_lhs => rw [ht]
      rw [Int.add_mul_emod_self_left, Int.emod_eq_of_lt hlow (by omega)]
    rw [hmod]
    simp [even, hhigh]
  · have ht : t = (t % c + c) + 2 * c * (t / c / 2) := by
      rw [odd] at hpar
      calc t = t % c + c * (t / c) := hq.symm
        _ = t % c + c * (1 + 2 * (t / c / 2)) := by rw [hpar]
        _ = (t % c + c) + 2 * c * (t / c / 2) := by ring
    have hmod : t % (2 * c) = t % c + c := by
      conv_lhs => rw [ht]
      rw [Int.add_mul_emod_self_left, Int.emod_eq_of_lt (by omega) (by omega)]
    rw [hmod]
    constructor
    · intro h
      omega
    · intro h
      omega

end Cycles

/-! ## The closed form -/

/-- The position of the total `ticks`: its ticks in the cycle, counted back from
the end of every second cycle of an auto-reversing animation.  At the boundary
of two cycles both ends of a cycle are allowed. -/
def ClosedForm (autoReverse : Bool) (cycleTicks ticks pos : Int) : Prop :=
  if ticks % cycleTicks = 0 then pos = 0 ∨ pos = cycleTicks
  else if autoReverse ∧ (ticks / cycleTicks) % 2 = 1 then pos = cycleTicks - ticks % cycleTicks
  else pos = ticks % cycleTicks

/-- What the envelope keeps at a boundary: an auto-reversing animation stands at
the end where it turns. -/
def Placed (autoReverse : Bool) (c t pos : Int) : Prop :=
  if autoReverse then
    if (t / c) % 2 = 1 then pos = c - t % c else pos = t % c
  else pos = t % c ∨ (t % c = 0 ∧ pos = c)

theorem Placed.closedForm {autoReverse : Bool} {c t pos : Int} (hc : 0 < c)
    (placed : Placed autoReverse c t pos) :
    (0 ≤ pos ∧ pos ≤ c) ∧ ClosedForm autoReverse c t pos := by
  have hlow := Int.emod_nonneg t (by omega : c ≠ 0)
  have hhigh := Int.emod_lt_of_pos t hc
  unfold Placed at placed
  unfold ClosedForm
  cases autoReverse with
  | false =>
    simp only [Bool.false_eq_true, if_false, false_and] at placed ⊢
    constructor
    · omega
    · split <;> omega
  | true =>
    simp only [if_true, true_and] at placed ⊢
    split at placed
    next odd =>
      constructor
      · omega
      · split <;> omega
    next even =>
      constructor
      · omega
      · split <;> omega

/-! ## The walk -/

/-- The envelope has done `r` ticks of cycle `j`, in the direction of that
cycle. -/
structure At (e : Envelope) (j r : Int) : Prop where
  nonneg : 0 ≤ r
  inside : r ≤ e.cycleTicks
  position : e.pos = if 0 < e.currentRate then r else e.cycleTicks - r
  rate : e.currentRate = 1 ∨ e.currentRate = -1
  turning : e.autoReverse = true → (0 < e.currentRate ↔ j % 2 = 0)
  straight : e.autoReverse = false → 0 < e.currentRate

theorem At.placed {e : Envelope} {j r : Int} (hc : 0 < e.cycleTicks) (h : At e j r) :
    Placed e.autoReverse e.cycleTicks (j * e.cycleTicks + r) e.pos := by
  have hpos := h.position
  have hn := h.nonneg
  have hi := h.inside
  -- at the end of cycle `j` the total belongs to cycle `j + 1`
  rcases lt_or_eq_of_le hi with inside | atEnd
  · unfold Placed
    rw [div_of_inside hn inside, mod_of_inside hn inside]
    cases auto : e.autoReverse with
    | false =>
      have := h.straight auto
      simp only [Bool.false_eq_true, if_false]
      left
      rwa [if_pos this] at hpos
    | true =>
      have turning := h.turning auto
      simp only [if_true]
      split
      next odd => rwa [if_neg (by omega)] at hpos
      next even => rwa [if_pos (by omega)] at hpos
  · have hdiv : (j * e.cycleTicks + r) / e.cycleTicks = j + 1 := by
      have : j * e.cycleTicks + r = (j + 1) * e.cycleTicks + 0 := by rw [atEnd]; ring
      rw [this]
      exact div_of_inside le_rfl hc
    have hmod : (j * e.cycleTicks + r) % e.cycleTicks = 0 := by
      have : j * e.cycleTicks + r = (j + 1) * e.cycleTicks + 0 := by rw [atEnd]; ring
      rw [this]
      exact mod_of_inside le_rfl hc
    unfold Placed
    rw [hdiv, hmod]
    cases auto : e.autoReverse with
    | false =>
      have := h.straight auto
      simp only [Bool.false_eq_true, if_false]
      right
      rw [if_pos this] at hpos
      exact ⟨trivial, by omega⟩
    | true =>
      have turning := h.turning auto
      simp only [if_true]
      split
      next odd =>
        rw [if_pos (by omega)] at hpos
        omega
      next even =>
        rw [if_neg (by omega)] at hpos
        omega

/-- The direction is that of the cycle the envelope stands in.  At a boundary
it does not matter: the walk turns there. -/
def DirectionFits (e : Envelope) : Prop :=
  e.autoReverse = false ∨ e.ticks % e.cycleTicks = 0 ∨ e.currentRate = e.calculateCurrentRate

instance (e : Envelope) : Decidable (DirectionFits e) :=
  inferInstanceAs (Decidable (_ ∨ _ ∨ _))

/-- The fields that no operation changes, and the range of the total. -/
structure Bounded (e : Envelope) : Prop where
  cycle : 0 < e.cycleTicks
  count : 2 ≤ e.cycleCount
  total : e.totalTicks = e.cycleCount * e.cycleTicks
  range : e.totalTicks < 2 ^ 63
  rate : e.rate = 1
  low : 0 ≤ e.ticks
  high : e.ticks ≤ e.totalTicks

structure Sound (e : Envelope) : Prop extends Bounded e where
  direction : e.currentRate = 1 ∨ e.currentRate = -1
  straight : e.autoReverse = false → e.currentRate = 1
  placed : Placed e.autoReverse e.cycleTicks e.ticks e.pos

/-- Everything but the position, the direction and the record of calls. -/
def setting (e : Envelope) : Envelope := { e with pos := 0, currentRate := 0, calls := [] }

structure SameSetting (e' e : Envelope) : Prop where
  autoReverse : e'.autoReverse = e.autoReverse
  cycleTicks : e'.cycleTicks = e.cycleTicks
  ticks : e'.ticks = e.ticks
  deltaTicks : e'.deltaTicks = e.deltaTicks

theorem setting_fields {e e' : Envelope} (same : setting e' = setting e) : SameSetting e' e := by
  simp only [setting, Envelope.mk.injEq] at same
  constructor <;> simp [same]

section Bounded
variable {e e' : Envelope}

theorem Bounded.of_setting (h : Bounded e) (same : setting e' = setting e) : Bounded e' := by
  have moved : Bounded (setting e) := ⟨h.1, h.2, h.3, h.4, h.5, h.6, h.7⟩
  rw [← same] at moved
  exact ⟨moved.1, moved.2, moved.3, moved.4, moved.5, moved.6, moved.7⟩

theorem Bounded.withTicks (h : Bounded e) {target : Int} (low : 0 ≤ target)
    (high : target ≤ e.totalTicks) (delta : Int) :
    Bounded { e with ticks := target, deltaTicks := delta } :=
  ⟨h.1, h.2, h.3, h.4, h.5, low, high⟩

theorem Bounded.double (h : Bounded e) : wrapLong (2 * e.cycleTicks) = 2 * e.cycleTicks := by
  have hc := h.cycle
  have hle : 2 * e.cycleTicks ≤ e.totalTicks := by
    rw [h.total]
    exact Int.mul_le_mul_of_nonneg_right h.count (by omega)
  have := h.range
  exact wrapLong_of_range (by omega) (by omega)

theorem Bounded.isForward_iff (h : Bounded e) (t : Int) :
    e.isForward t = true ↔ (t / e.cycleTicks) % 2 = 0 := by
  unfold Envelope.isForward
  rw [h.double, decide_eq_true_iff]
  exact mod_double h.cycle

theorem Bounded.calculateCurrentRate_eq (h : Bounded e) (auto : e.autoReverse = true) :
    e.calculateCurrentRate = if (e.ticks / e.cycleTicks) % 2 = 0 then 1 else -1 := by
  unfold Envelope.calculateCurrentRate
  rw [if_neg (by simp [auto]), h.rate]
  simp only [Int.zero_lt_one, decide_true]
  simp only [h.isForward_iff]

end Bounded

theorem Sound.exists_at {e : Envelope} (h : Sound e) (fits : DirectionFits e) :
    ∃ j r, e.ticks = j * e.cycleTicks + r ∧ At e j r := by
  have hc := h.cycle
  have hq := Int.emod_add_mul_ediv e.ticks e.cycleTicks
  have hlow := Int.emod_nonneg e.ticks (by omega : e.cycleTicks ≠ 0)
  have hhigh := Int.emod_lt_of_pos e.ticks hc
  have placed := h.placed
  unfold Placed at placed
  have split : e.ticks = (e.ticks / e.cycleTicks) * e.cycleTicks + e.ticks % e.cycleTicks := by
    rw [Int.mul_comm]
    omega
  have splitEarlier : e.ticks % e.cycleTicks = 0 →
      e.ticks = (e.ticks / e.cycleTicks - 1) * e.cycleTicks + e.cycleTicks := by
    intro boundary
    rw [Int.sub_mul]
    omega
  cases auto : e.autoReverse with
  | false =>
    have forward : 0 < e.currentRate := by rw [h.straight auto]; decide
    rw [auto] at placed
    simp only [Bool.false_eq_true, if_false] at placed
    rcases placed with placed | ⟨boundary, placed⟩
    · exact ⟨_, _, split, hlow, by omega, by rw [if_pos forward]; exact placed, h.direction,
        by simp [auto], fun _ => forward⟩
    · exact ⟨_, _, splitEarlier boundary, by omega, le_rfl,
        by rw [if_pos forward]; exact placed, h.direction, by simp [auto], fun _ => forward⟩
  | true =>
    rw [auto] at placed
    simp only [if_true] at placed
    have expected := h.calculateCurrentRate_eq auto
    by_cases right : e.currentRate = e.calculateCurrentRate
    · rw [expected] at right
      refine ⟨_, _, split, hlow, by omega, ?_, h.direction, ?_, by simp [auto]⟩
      · split at placed <;> split at right <;> split <;> omega
      · intro _
        split at right <;> omega
    · -- the direction is the other one: the envelope stands at the end of the cycle before
      have boundary : e.ticks % e.cycleTicks = 0 := by
        rcases fits with straight | boundary | same
        · rw [auto] at straight
          cases straight
        · exact boundary
        · exact absurd same right
      rw [expected] at right
      have direction := h.direction
      refine ⟨_, _, splitEarlier boundary, by omega, le_rfl, ?_, h.direction, ?_, by simp [auto]⟩
      · split at placed <;> split at right <;> split <;> omega
      · intro _
        split at right <;> omega

theorem At.playToEnd {e : Envelope} {j r : Int} (hc : 0 < e.cycleTicks) (h : At e j r) :
    At ({ e with pos := if 0 < e.currentRate then e.cycleTicks else 0 }.playTo) j e.cycleTicks where
  nonneg := by show 0 ≤ e.cycleTicks; omega
  inside := le_rfl
  position := by simp [Envelope.playTo]
  rate := h.rate
  turning := h.turning
  straight := h.straight

theorem At.turn {e : Envelope} {j : Int} (h : At e j e.cycleTicks) :
    At (if e.autoReverse then e.setCurrentRate (-e.currentRate)
      else { e with pos := if 0 < e.currentRate then 0 else e.cycleTicks }.jumpAnimation) (j + 1) 0 := by
  have hpos := h.position
  have hrate := h.rate
  have hc := h.nonneg
  cases auto : e.autoReverse with
  | true =>
    have turning := h.turning auto
    constructor
    case nonneg => exact le_rfl
    case inside => exact hc
    case position =>
      show e.pos = if 0 < -e.currentRate then 0 else e.cycleTicks - 0
      split at hpos <;> split <;> omega
    case rate =>
      show -e.currentRate = 1 ∨ -e.currentRate = -1
      omega
    case turning =>
      intro _
      show 0 < -e.currentRate ↔ (j + 1) % 2 = 0
      omega
    case straight =>
      intro straight
      exact absurd (auto.symm.trans straight) (by decide)
  | false =>
    have forward := h.straight auto
    constructor
    case nonneg => exact le_rfl
    case inside => exact hc
    case position => simp [Envelope.jumpAnimation, forward]
    case rate => exact hrate
    case turning =>
      intro turning
      cases turning
    case straight => exact fun _ => forward

theorem walkCycle_spec (reachedEnd : Bool) (overallDelta : Int) {e : Envelope} {j r : Int}
    (hc : 0 < e.cycleTicks) (h : At e j r) :
    ∃ j' r', (Envelope.walkCycle reachedEnd overallDelta (e.cycleTicks - r) e).1
        = overallDelta - (e.cycleTicks - r) ∧
      setting (Envelope.walkCycle reachedEnd overallDelta (e.cycleTicks - r) e).2 = setting e ∧
      At (Envelope.walkCycle reachedEnd overallDelta (e.cycleTicks - r) e).2 j' r' ∧
      j' * e.cycleTicks + r' = j * e.cycleTicks + e.cycleTicks ∧
      (r' = 0 ∨ (reachedEnd = true ∧ overallDelta - (e.cycleTicks - r) ≤ 0)) := by
  have hi := h.inside
  -- whether or not something of the cycle was left to play, its end is reached
  obtain ⟨played, hplayed, hset, hat⟩ : ∃ played : Envelope,
      (if 0 < e.cycleTicks - r then
        (overallDelta - (e.cycleTicks - r),
          { e with pos := if 0 < e.currentRate then e.cycleTicks else 0 }.playTo)
      else (overallDelta, e)) = (overallDelta - (e.cycleTicks - r), played) ∧
      setting played = setting e ∧ At played j played.cycleTicks := by
    by_cases left : 0 < e.cycleTicks - r
    · rw [if_pos left]
      exact ⟨_, rfl, rfl, h.playToEnd hc⟩
    · rw [if_neg left]
      have atEnd : r = e.cycleTicks := by omega
      exact ⟨e, by rw [atEnd]; simp, rfl, by rw [← atEnd]; exact h⟩
  have hcycle := (setting_fields hset).cycleTicks
  simp only [Envelope.walkCycle, hplayed]
  by_cases turning : reachedEnd = false ∨ 0 < overallDelta - (e.cycleTicks - r)
  · rw [if_pos turning]
    refine ⟨j + 1, 0, trivial, ?_, hat.turn, by ring, Or.inl rfl⟩
    rw [← hset]
    split <;> rfl
  · rw [if_neg turning]
    refine ⟨j, played.cycleTicks, trivial, hset, hat, by rw [hcycle], Or.inr ⟨?_, by omega⟩⟩
    cases reachedEnd with
    | true => rfl
    | false => exact absurd (Or.inl rfl) turning

theorem walk_spec (reachedEnd : Bool) (target : Int) {c : Int} (hc : 0 < c) :
    ∀ (fuel : Nat) (overallDelta cycleDelta : Int) (e : Envelope) (j r : Int),
      e.cycleTicks = c → At e j r → target = j * c + r + overallDelta → 0 ≤ overallDelta →
      (cycleDelta = c - r ∨ (cycleDelta = c ∧ overallDelta = 0)) →
      overallDelta.toNat + (if cycleDelta = 0 then 2 else 1) ≤ fuel →
      ∃ restDelta e' j' r', Envelope.walk reachedEnd fuel overallDelta cycleDelta e = some (restDelta, e') ∧
        setting e' = setting e ∧ At e' j' r' ∧ target = j' * c + r' + restDelta ∧ 0 ≤ restDelta ∧
        (restDelta = 0 ∨ restDelta < c - r') := by
  intro fuel
  induction fuel with
  | zero =>
    intro overallDelta cycleDelta e j r _ _ _ _ _ enough
    split at enough <;> omega
  | succ fuel ih =>
    intro overallDelta cycleDelta e j r hcycle h htarget hnonneg hdelta enough
    by_cases round : cycleDelta ≤ overallDelta
    · have fromDelta : cycleDelta = e.cycleTicks - r := by omega
      have hi := h.inside
      obtain ⟨j', r', hrest, hset, hat, hplace, hturn⟩ :=
        walkCycle_spec reachedEnd overallDelta (by omega) h
      rw [← fromDelta] at hrest hset hat hturn
      have hcycle' := (setting_fields hset).cycleTicks.trans hcycle
      rw [hcycle] at hplace
      obtain ⟨restDelta, e', j2, r2, hwalk, hset2, hrest2⟩ :=
        ih (Envelope.walkCycle reachedEnd overallDelta cycleDelta e).1
          (Envelope.walkCycle reachedEnd overallDelta cycleDelta e).2.cycleTicks
          (Envelope.walkCycle reachedEnd overallDelta cycleDelta e).2 j' r' hcycle' hat
          (by rw [hrest]; omega) (by omega) (by rw [hcycle', hrest]; omega)
          (by
            rw [if_neg (by omega), hrest]
            split at enough <;> omega)
      refine ⟨restDelta, e', j2, r2, ?_, hset2.trans hset, hrest2⟩
      rw [Envelope.walk, if_pos round]
      exact hwalk
    · refine ⟨overallDelta, e, j, r, ?_, rfl, h, htarget, hnonneg, by omega⟩
      rw [Envelope.walk, if_neg round]

theorem At.playOn {e : Envelope} {j r d : Int} (h : At e j r) (hd : 0 ≤ d) (inside : d ≤ e.cycleTicks - r) :
    At ({ e with pos := e.pos + if 0 < e.currentRate then d else -d }.playTo) j (r + d) where
  nonneg := by have := h.nonneg; omega
  inside := by show r + d ≤ e.cycleTicks; omega
  position := by
    have hpos := h.position
    show (e.pos + if 0 < e.currentRate then d else -d) = if 0 < e.currentRate then r + d else e.cycleTicks - (r + d)
    rw [hpos]
    split <;> omega
  rate := h.rate
  turning := h.turning
  straight := h.straight

theorem At.fits {e : Envelope} {j r : Int} (bounded : Bounded e) (h : At e j r)
    (ticks : e.ticks = j * e.cycleTicks + r) : DirectionFits e := by
  have hn := h.nonneg
  rcases lt_or_eq_of_le h.inside with inside | atEnd
  · cases auto : e.autoReverse with
    | false => exact Or.inl auto
    | true =>
      right
      right
      have turning := h.turning auto
      have hrate := h.rate
      rw [bounded.calculateCurrentRate_eq auto, ticks, div_of_inside hn inside]
      split <;> omega
  · right
    left
    have : j * e.cycleTicks + r = (j + 1) * e.cycleTicks + 0 := by rw [atEnd]; ring
    rw [ticks, this]
    exact mod_of_inside le_rfl bounded.cycle

/-! ## The ticks of a pulse -/

theorem doubleOfLong_natCast (n : Nat) : doubleOfLong n = nearestEven 53 n := by
  by_cases hsmall : n ≤ 2 ^ 53
  · rw [doubleOfLong, Int.natAbs_natCast, if_pos hsmall, nearestEven, if_pos hsmall]
  · have hsign : (n : Int).sign = 1 := Int.sign_eq_one_of_pos (by omega)
    rw [doubleOfLong, Int.natAbs_natCast, if_neg hsmall, nearestEven, if_neg hsmall, hsign, Int.one_mul]
    rfl

theorem roundTicks_natCast (n : Nat) :
    roundTicks n 1 = min (nearestEven 53 (nearestEven 53 n) : Int) (2 ^ 63 - 1) := by
  have habs : |(1 : Int)| = 1 := rfl
  rw [roundTicks, habs, Int.mul_one, doubleOfLong_natCast, doubleOfLong_natCast]
  omega

theorem roundTicks_le (tick rate : Int) : roundTicks tick rate ≤ 2 ^ 63 - 1 := by
  rw [roundTicks]
  omega

theorem roundTicks_nonneg {tick : Int} (h : 0 ≤ tick) : 0 ≤ roundTicks tick 1 := by
  obtain ⟨n, rfl⟩ := Int.eq_ofNat_of_zero_le h
  rw [roundTicks_natCast]
  omega

theorem roundTicks_mono {tick tick' : Int} (h : 0 ≤ tick) (hle : tick ≤ tick') :
    roundTicks tick 1 ≤ roundTicks tick' 1 := by
  obtain ⟨n, rfl⟩ := Int.eq_ofNat_of_zero_le h
  obtain ⟨m, rfl⟩ := Int.eq_ofNat_of_zero_le (h.trans hle)
  have hnm : nearestEven 53 n ≤ nearestEven 53 m := nearestEven_mono (by decide) (by omega)
  have hnm := nearestEven_mono (p := 53) (by decide) hnm
  rw [roundTicks_natCast, roundTicks_natCast]
  omega

theorem rest_of_end {c k j r d : Int} (hr : 0 ≤ r) (total : k * c = j * c + r + d) (short : d < c - r)
    (hc : 0 < c) (hd : 0 ≤ d) : d = 0 := by
  have hle : k ≤ j := by
    by_contra more
    have : (j + 1) * c ≤ k * c := Int.mul_le_mul_of_nonneg_right (by omega) (by omega)
    rw [Int.add_mul] at this
    omega
  have : k * c ≤ j * c := Int.mul_le_mul_of_nonneg_right hle (by omega)
  omega

theorem Bounded.sound_of_at {e : Envelope} {j r : Int} (h : Bounded e) (hat : At e j r)
    (place : e.ticks = j * e.cycleTicks + r) : Sound e ∧ DirectionFits e := by
  refine ⟨⟨h, hat.rate, ?_, ?_⟩, hat.fits h place⟩
  · intro auto
    have forward := hat.straight auto
    have hrate := hat.rate
    omega
  · rw [place]
    exact hat.placed h.cycle

theorem timePulse_spec {e : Envelope} (h : Sound e) (fits : DirectionFits e) {tick : Int}
    (low : 0 ≤ roundTicks tick 1) (range : e.totalTicks + roundTicks tick 1 < 2 ^ 63)
    (window : e.deltaTicks ≤ e.ticks ∧ e.ticks ≤ e.deltaTicks + roundTicks tick 1) :
    ∃ e', e.timePulse tick = some e' ∧ Sound e' ∧ DirectionFits e' ∧
      e'.ticks = min (e.deltaTicks + roundTicks tick 1) e.totalTicks ∧
      setting e' = setting { e with ticks := e'.ticks } := by
  have hc := h.cycle
  have hhigh := h.high
  have hlow := h.low
  have hbounds : checkBounds (wrapLong (e.deltaTicks + roundTicks tick e.rate)) e.totalTicks
      = min (e.deltaTicks + roundTicks tick 1) e.totalTicks := by
    rw [h.rate, wrapLong_of_range (by omega) (by omega)]
    unfold checkBounds
    omega
  obtain ⟨target, htarget⟩ : ∃ target, target = min (e.deltaTicks + roundTicks tick 1) e.totalTicks := ⟨_, rfl⟩
  simp only [Envelope.timePulse, if_neg (by omega : ¬e.cycleTicks = 0), hbounds, ← htarget]
  by_cases still : target - e.ticks = 0
  · have same : target = e.ticks := by omega
    rw [if_pos still, same]
    exact ⟨e, rfl, h, fits, rfl, rfl⟩
  · rw [if_neg still]
    obtain ⟨j, r, hticks, hat⟩ := h.exists_at fits
    obtain ⟨moved, hmoved⟩ : ∃ moved : Envelope, moved = { e with ticks := target } := ⟨_, rfl⟩
    have hatMoved : At moved j r := by rw [hmoved]; exact ⟨hat.1, hat.2, hat.3, hat.4, hat.5, hat.6⟩
    have hdelta : (if 0 < e.currentRate then e.cycleTicks - e.pos else e.pos) = e.cycleTicks - r := by
      have hpos := hat.position
      split at hpos <;> split <;> omega
    obtain ⟨restDelta, e', j', r', hwalk, hset, hat', hplace, hrest, hshort⟩ :=
      walk_spec (decide (e.totalTicks ≤ target)) target hc (Envelope.walkFuel (target - e.ticks))
        (target - e.ticks) (e.cycleTicks - r) moved j r (by rw [hmoved]) hatMoved (by omega) (by omega)
        (Or.inl rfl) (by unfold Envelope.walkFuel; split <;> omega)
    rw [hmoved] at hwalk hset
    rw [hdelta, hwalk]
    dsimp only
    have hcycle := (setting_fields hset).cycleTicks
    change e'.cycleTicks = e.cycleTicks at hcycle
    -- the delta left over is played, unless the walk has reached the last tick
    obtain ⟨e2, r2, he2, hset2, hat2, hplace2⟩ : ∃ e2 r2,
        (if 0 < restDelta ∧ decide (e.totalTicks ≤ target) = false then
          { e' with pos := e'.pos + if 0 < e'.currentRate then restDelta else -restDelta }.playTo
        else e') = e2 ∧ setting e2 = setting e' ∧ At e2 j' r2 ∧ target = j' * e.cycleTicks + r2 := by
      by_cases left : 0 < restDelta ∧ decide (e.totalTicks ≤ target) = false
      · rw [if_pos left]
        exact ⟨_, r' + restDelta, rfl, rfl, hat'.playOn hrest (by omega), by omega⟩
      · rw [if_neg left]
        have none_left : restDelta = 0 := by
          by_cases reached : e.totalTicks ≤ target
          · have htotal : e.cycleCount * e.cycleTicks = j' * e.cycleTicks + r' + restDelta := by
              rw [← h.total, ← hplace]
              omega
            rcases hshort with zero | short
            · exact zero
            · exact rest_of_end hat'.nonneg htotal short hc hrest
          · have : ¬0 < restDelta := by simpa [reached] using left
            omega
        exact ⟨e', r', rfl, rfl, hat', by omega⟩
    rw [he2]
    obtain ⟨e3, he3, hset3, hat3⟩ : ∃ e3,
        (if decide (e.totalTicks ≤ target) = true then e2.finished else e2) = e3 ∧
          setting e3 = setting e2 ∧ At e3 j' r2 := by
      by_cases reached : decide (e.totalTicks ≤ target) = true
      · rw [if_pos reached]
        exact ⟨_, rfl, rfl, ⟨hat2.1, hat2.2, hat2.3, hat2.4, hat2.5, hat2.6⟩⟩
      · rw [if_neg reached]
        exact ⟨_, rfl, rfl, hat2⟩
    rw [he3]
    have hsame : setting e3 = setting { e with ticks := target } := by rw [hset3, hset2, hset]
    have hticks3 : e3.ticks = target := (setting_fields hsame).ticks
    have bounded : Bounded e3 :=
      (h.toBounded.withTicks (by omega) (by omega) e.deltaTicks).of_setting hsame
    have hcycle3 := (setting_fields hsame).cycleTicks
    obtain ⟨sound, fits'⟩ := bounded.sound_of_at hat3 (by rw [hticks3, hcycle3]; exact hplace2)
    exact ⟨e3, rfl, sound, fits', hticks3, by rw [hticks3]; exact hsame⟩

/-! ## Jumps and starts -/

theorem checkBounds_bounds (value : Int) {limit : Int} (hl : 0 ≤ limit) :
    0 ≤ checkBounds value limit ∧ checkBounds value limit ≤ limit := by
  unfold checkBounds
  omega

theorem reposition_setting (status : Status) (e : Envelope) :
    setting (e.reposition status) = setting e := by
  unfold Envelope.reposition
  split
  · split <;> dsimp only <;> split <;> rfl
  · dsimp only
    split <;> split <;> rfl

section Reposition
variable {e : Envelope}

theorem Bounded.reposition_pos (h : Bounded e) (status : Status) :
    (e.reposition status).pos =
      if e.autoReverse then
        if (e.ticks / e.cycleTicks) % 2 = 0 then e.ticks % e.cycleTicks
        else e.cycleTicks - e.ticks % e.cycleTicks
      else if e.ticks % e.cycleTicks = 0 ∧ 0 < e.ticks then e.cycleTicks
      else e.ticks % e.cycleTicks := by
  have hrate : decide (0 < e.rate) = true := by rw [h.rate]; decide
  have hnonneg : ¬e.rate < 0 := by rw [h.rate]; decide
  unfold Envelope.reposition
  rw [hrate]
  simp only [h.isForward_iff, if_neg hnonneg]
  split
  · split
    · split <;> rfl
    · split <;> rfl
  · split <;> rfl

theorem Bounded.reposition_currentRate (h : Bounded e) (status : Status) :
    (e.reposition status).currentRate =
      if e.autoReverse ∧ status = .running then e.calculateCurrentRate else e.currentRate := by
  have hrate : decide (0 < e.rate) = true := by rw [h.rate]; decide
  have habs : |e.rate| = 1 := by rw [h.rate]; rfl
  cases auto : e.autoReverse with
  | true =>
    rw [h.calculateCurrentRate_eq auto]
    unfold Envelope.reposition
    rw [hrate, if_pos auto]
    simp only [h.isForward_iff, true_and, habs]
    split
    · split <;> rfl
    · split <;> rfl
  | false =>
    unfold Envelope.reposition
    simp only [auto, Bool.false_eq_true, if_false, false_and]
    split <;> split <;> rfl

/-- The position that a jump computes is right in every status. -/
theorem Bounded.reposition (h : Bounded e) (status : Status)
    (direction : e.currentRate = 1 ∨ e.currentRate = -1)
    (straight : e.autoReverse = false → e.currentRate = 1) : Sound (e.reposition status) := by
  have same := reposition_setting status e
  have hpos := h.reposition_pos status
  have hcurrent := h.reposition_currentRate status
  have hfields := setting_fields same
  constructor
  case toBounded => exact h.of_setting same
  case direction =>
    rw [hcurrent]
    split
    next turning =>
      rw [h.calculateCurrentRate_eq turning.1]
      split <;> simp
    next => exact direction
  case straight =>
    intro auto
    rw [hfields.autoReverse] at auto
    rw [hcurrent, if_neg (by simp [auto])]
    exact straight auto
  case placed =>
    rw [hfields.autoReverse, hfields.ticks, hfields.cycleTicks, hpos]
    unfold Placed
    cases e.autoReverse with
    | true =>
      simp only [if_true]
      split <;> split <;> omega
    | false =>
      simp only [Bool.false_eq_true, if_false]
      split <;> omega

end Reposition

/-- The total that a jump to `newTicks` reaches. -/
def jumpTarget (e : Envelope) (newTicks : Int) : Int := checkBounds newTicks e.totalTicks

theorem jumpTo_still {e : Envelope} (h : Sound e) (status : Status) {newTicks : Int}
    (still : jumpTarget e newTicks = e.ticks) : e.jumpTo status newTicks = e := by
  have hc := h.cycle
  have hrate : ¬e.rate < 0 := by rw [h.rate]; decide
  unfold jumpTarget at still
  simp only [Envelope.jumpTo, if_neg (by omega : ¬e.cycleTicks = 0), if_neg hrate, still]
  simp

theorem jumpTo_moved {e : Envelope} (h : Sound e) (status : Status) {newTicks : Int}
    (moved : jumpTarget e newTicks ≠ e.ticks) :
    e.jumpTo status newTicks = ({ e with
      ticks := jumpTarget e newTicks,
      deltaTicks := wrapLong (e.deltaTicks + (jumpTarget e newTicks - e.ticks))
      }.reposition status).jumpAnimation := by
  have hc := h.cycle
  have hrate : ¬e.rate < 0 := by rw [h.rate]; decide
  unfold jumpTarget at *
  simp only [Envelope.jumpTo, if_neg (by omega : ¬e.cycleTicks = 0), if_neg hrate]
  rw [if_neg (by omega)]

/-! ## Runs -/

/-- An envelope with the tick of the last pulse since its start. -/
structure Clip where
  envelope : Envelope
  lastTick : Int
deriving DecidableEq, Repr

inductive Event where
  | start
  | timePulse (currentTick : Int)
  /-- The status is that of the animation at the call. -/
  | jumpTo (status : Status) (newTicks : Int)
deriving DecidableEq, Repr

/-- The pulse whose loop does not end. -/
inductive Diverged where
  | timePulse
deriving DecidableEq, Repr

def step : Event → Clip → Outcome Diverged Clip
  | .start, clip => .done ⟨clip.envelope.start, 0⟩
  | .timePulse tick, clip =>
      match clip.envelope.timePulse tick with
      | some e => .done ⟨e, tick⟩
      | none => .thrown .timePulse clip
  | .jumpTo status newTicks, clip => .done { clip with envelope := clip.envelope.jumpTo status newTicks }

/-- Pulses come with non-decreasing ticks, whose sum with the total is a `long`, and
find the direction of their cycle. -/
def Steered : Event → Clip → Prop
  | .timePulse tick, clip =>
      clip.lastTick ≤ tick ∧ clip.envelope.totalTicks + roundTicks tick 1 < 2 ^ 63 ∧
        DirectionFits clip.envelope
  | _, _ => True

instance : ∀ (event : Event) (clip : Clip), Decidable (Steered event clip)
  | .timePulse tick, clip =>
      inferInstanceAs (Decidable (clip.lastTick ≤ tick ∧
        clip.envelope.totalTicks + roundTicks tick 1 < 2 ^ 63 ∧ DirectionFits clip.envelope))
  | .start, _ => isTrue trivial
  | .jumpTo _ _, _ => isTrue trivial

structure Kept (clip : Clip) : Prop where
  sound : Sound clip.envelope
  nonneg : 0 ≤ clip.lastTick
  behind : clip.envelope.deltaTicks ≤ clip.envelope.ticks
  ahead : clip.envelope.ticks ≤ clip.envelope.deltaTicks + roundTicks clip.lastTick 1

theorem Kept.start {clip : Clip} (h : Kept clip) : Kept ⟨clip.envelope.start, 0⟩ := by
  have bounded := h.sound.toBounded
  constructor
  case sound =>
    constructor
    case toBounded => exact ⟨bounded.1, bounded.2, bounded.3, bounded.4, bounded.5, bounded.6, bounded.7⟩
    case direction =>
      show clip.envelope.calculateCurrentRate = 1 ∨ clip.envelope.calculateCurrentRate = -1
      unfold Envelope.calculateCurrentRate
      rw [bounded.rate]
      split
      · simp
      · split <;> simp
    case straight =>
      intro auto
      change clip.envelope.autoReverse = false at auto
      show clip.envelope.calculateCurrentRate = 1
      unfold Envelope.calculateCurrentRate
      rw [if_pos auto, bounded.rate]
    case placed => exact h.sound.placed
  case nonneg => exact le_rfl
  case behind => exact le_rfl
  case ahead =>
    show clip.envelope.ticks ≤ clip.envelope.ticks + roundTicks 0 1
    have hzero : 0 ≤ roundTicks 0 1 := roundTicks_nonneg le_rfl
    omega

theorem Kept.timePulse {clip : Clip} (h : Kept clip) {tick : Int}
    (steered : Steered (.timePulse tick) clip) :
    ∃ e, clip.envelope.timePulse tick = some e ∧ Kept ⟨e, tick⟩ := by
  obtain ⟨later, range, fits⟩ := steered
  have hahead := h.ahead
  have hbehind := h.behind
  have hnonneg := h.nonneg
  have hhigh := h.sound.high
  have hmono := roundTicks_mono hnonneg later
  obtain ⟨e, hpulse, sound, -, hticks, hset⟩ :=
    timePulse_spec h.sound fits (roundTicks_nonneg (hnonneg.trans later)) range ⟨hbehind, by omega⟩
  have hdelta : e.deltaTicks = clip.envelope.deltaTicks := (setting_fields hset).deltaTicks
  refine ⟨e, hpulse, sound, hnonneg.trans later, ?_, ?_⟩
  · show e.deltaTicks ≤ e.ticks
    omega
  · show e.ticks ≤ e.deltaTicks + roundTicks tick 1
    omega

theorem Kept.jumpTo {clip : Clip} (h : Kept clip) (status : Status) (newTicks : Int) :
    Kept { clip with envelope := clip.envelope.jumpTo status newTicks } := by
  by_cases still : jumpTarget clip.envelope newTicks = clip.envelope.ticks
  · rw [jumpTo_still h.sound status still]
    exact h
  · have hnonneg := h.nonneg
    have hbehind := h.behind
    have hahead := h.ahead
    have hlow := h.sound.low
    have hhigh := h.sound.high
    have hrange := h.sound.range
    have hsmall : roundTicks clip.lastTick 1 ≤ 2 ^ 63 - 1 := roundTicks_le _ _
    obtain ⟨tlow, thigh⟩ := checkBounds_bounds newTicks (by omega : 0 ≤ clip.envelope.totalTicks)
    change 0 ≤ jumpTarget clip.envelope newTicks at tlow
    change jumpTarget clip.envelope newTicks ≤ _ at thigh
    rw [jumpTo_moved h.sound status still, wrapLong_of_range (by omega) (by omega)]
    have sound := (h.sound.toBounded.withTicks tlow thigh (clip.envelope.deltaTicks
      + (jumpTarget clip.envelope newTicks - clip.envelope.ticks))).reposition status
        h.sound.direction h.sound.straight
    have hfields := setting_fields (reposition_setting status { clip.envelope with
      ticks := jumpTarget clip.envelope newTicks,
      deltaTicks := clip.envelope.deltaTicks + (jumpTarget clip.envelope newTicks - clip.envelope.ticks) })
    have hticks := hfields.ticks
    have hdelta := hfields.deltaTicks
    constructor
    case sound => exact ⟨⟨sound.1.1, sound.1.2, sound.1.3, sound.1.4, sound.1.5, sound.1.6, sound.1.7⟩,
      sound.direction, sound.straight, sound.placed⟩
    case nonneg => exact hnonneg
    case behind =>
      show (Envelope.reposition _ _).deltaTicks ≤ (Envelope.reposition _ _).ticks
      rw [hticks, hdelta]
      dsimp only
      omega
    case ahead =>
      show (Envelope.reposition _ _).ticks ≤ (Envelope.reposition _ _).deltaTicks + roundTicks clip.lastTick 1
      rw [hticks, hdelta]
      dsimp only
      omega

theorem step_kept (event : Event) (clip : Clip) (h : Kept clip) (steered : Steered event clip) :
    ∃ next, step event clip = .done next ∧ Kept next := by
  cases event with
  | start => exact ⟨_, rfl, h.start⟩
  | timePulse tick =>
    obtain ⟨e, hpulse, kept⟩ := h.timePulse steered
    exact ⟨⟨e, tick⟩, by simp [step, hpulse], kept⟩
  | jumpTo status newTicks => exact ⟨_, rfl, h.jumpTo status newTicks⟩

def Clip.create (autoReverse : Bool) (cycleCount cycleTicks : Int) : Clip :=
  ⟨Envelope.create autoReverse cycleCount cycleTicks, 0⟩

theorem Kept.create (autoReverse : Bool) {cycleCount cycleTicks : Int} (hc : 0 < cycleTicks)
    (count : 2 ≤ cycleCount) (range : cycleCount * cycleTicks < 2 ^ 63) :
    Kept (Clip.create autoReverse cycleCount cycleTicks) := by
  have hpos : 0 ≤ cycleCount * cycleTicks := Int.mul_nonneg (by omega) (by omega)
  have htotal : wrapLong (cycleCount * cycleTicks) = cycleCount * cycleTicks :=
    wrapLong_of_range (by omega) range
  refine ⟨⟨⟨hc, count, htotal, ?_, rfl, le_rfl, ?_⟩, Or.inl rfl, fun _ => rfl, ?_⟩, le_rfl, le_rfl, ?_⟩
  · show wrapLong (cycleCount * cycleTicks) < 2 ^ 63
    rw [htotal]
    exact range
  · show 0 ≤ wrapLong (cycleCount * cycleTicks)
    rw [htotal]
    exact hpos
  · show Placed autoReverse cycleTicks 0 0
    unfold Placed
    simp
  · show (0 : Int) ≤ 0 + roundTicks 0 1
    have hzero : 0 ≤ roundTicks 0 1 := roundTicks_nonneg le_rfl
    omega

/-- `pos` is in the cycle, at the closed form of the total of ticks. -/
def InPlace (e : Envelope) : Prop :=
  (0 ≤ e.pos ∧ e.pos ≤ e.cycleTicks) ∧ ClosedForm e.autoReverse e.cycleTicks e.ticks e.pos

/-- Every pulse ends, and pulses and jumps agree on the position, as long as
every pulse finds the direction of the cycle it starts in. -/
theorem steered_run_in_place (autoReverse : Bool) (cycleCount cycleTicks : Int) (hc : 0 < cycleTicks)
    (count : 2 ≤ cycleCount) (range : cycleCount * cycleTicks < 2 ^ 63) (events : List Event)
    (steered : Outcome.Along Steered step events (Clip.create autoReverse cycleCount cycleTicks)) :
    ∃ clip, Outcome.run step events (Clip.create autoReverse cycleCount cycleTicks) = .done clip ∧
      InPlace clip.envelope := by
  obtain ⟨clip, hrun, kept⟩ := Outcome.run_total Kept Steered step step_kept events _
    (Kept.create autoReverse hc count range) steered
  exact ⟨clip, hrun, kept.sound.placed.closedForm kept.sound.cycle⟩

/-- Three reversing cycles: a pulse into the first, a running jump into the
second, a pulse back through it, a paused jump inside the third and a pulse to
the end. -/
theorem steered_run_in_place_reversing : ∃ clip,
    Outcome.run step [.start, .timePulse 50, .jumpTo .running 130, .timePulse 150,
      .jumpTo .paused 210, .timePulse 155, .timePulse 400] (Clip.create true 3 100) = .done clip ∧
      InPlace clip.envelope :=
  steered_run_in_place true 3 100 (by decide) (by decide) (by decide) _ (by decide +kernel)

def InOrder : Event → Clip → Prop
  | .timePulse tick, clip => clip.lastTick ≤ tick
  | _, _ => True

instance : ∀ (event : Event) (clip : Clip), Decidable (InOrder event clip)
  | .timePulse tick, clip => inferInstanceAs (Decidable (clip.lastTick ≤ tick))
  | .start, _ => isTrue trivial
  | .jumpTo _ _, _ => isTrue trivial

/-- A paused animation jumps from the first to the second of two reversing
cycles: the next pulse plays on forwards. -/
theorem paused_jump_keeps_direction :
    Outcome.Along InOrder step [.start, .timePulse 50, .jumpTo .paused 150, .timePulse 60] (Clip.create true 2 100) ∧
      ∃ clip, Outcome.run step [.start, .timePulse 50, .jumpTo .paused 150, .timePulse 60]
        (Clip.create true 2 100) = .done clip ∧
        clip.envelope.ticks = 160 ∧ clip.envelope.pos = 60 ∧ ¬InPlace clip.envelope := by
  refine ⟨by decide +kernel, _, rfl, by decide +kernel, by decide +kernel, ?_⟩
  rintro ⟨-, closed⟩
  revert closed
  unfold ClosedForm
  decide +kernel

end OpenJfx.Animation.FiniteClipEnvelope
