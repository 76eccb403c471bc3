import Mathlib.Tactic.Ring

/-! # Rounding to significant bits

`roundEven` counts in units: a number is rounded to the nearest count, and in the middle of
two to the even one.  `nearestEven` rounds to `p` significant bits. -/
set_option autoImplicit false
namespace OpenJfx.Lib

/-- Whether `n` is nearer to the multiple of the unit above it, or in the middle behind an odd one. -/
def roundsUp (unit n : Nat) : Bool :=
  decide (unit < 2 * (n % unit)) || (decide (2 * (n % unit) = unit) && decide (n / unit % 2 = 1))

def roundEven (unit n : Nat) : Nat := if roundsUp unit n then n / unit + 1 else n / unit

/-- The distance of the numbers with `p` significant bits around `n`. -/
def unitAt (p n : Nat) : Nat := 2 ^ (n.log2 + 1 - p)

def nearestEven (p n : Nat) : Nat := if n ≤ 2 ^ p then n else roundEven (unitAt p n) n * unitAt p n

/-! ## Units -/

section Units
variable {unit m n : Nat}

theorem roundsUp_iff : roundsUp unit n = true ↔
    unit < 2 * (n % unit) ∨ 2 * (n % unit) = unit ∧ n / unit % 2 = 1 := by
  simp only [roundsUp, Bool.or_eq_true, Bool.and_eq_true, decide_eq_true_eq]

theorem roundEven_cases (unit n : Nat) : roundEven unit n = n / unit ∨ roundEven unit n = n / unit + 1 := by
  rw [roundEven]
  split
  · exact Or.inr rfl
  · exact Or.inl rfl

theorem roundEven_mono (h : m ≤ n) : roundEven unit m ≤ roundEven unit n := by
  have hdiv : m / unit ≤ n / unit := Nat.div_le_div_right h
  by_cases hsame : m / unit = n / unit
  · have hm := Nat.div_add_mod m unit
    have hn := Nat.div_add_mod n unit
    rw [hsame] at hm
    have hrest : m % unit ≤ n % unit := by omega
    by_cases hup : roundsUp unit m = true
    · have hupn : roundsUp unit n = true := by
        rw [roundsUp_iff] at hup ⊢
        rw [hsame] at hup
        omega
      rw [roundEven, roundEven, if_pos hup, if_pos hupn]
      omega
    · rw [roundEven, if_neg hup, hsame]
      rcases roundEven_cases unit n with heq | heq
      · omega
      · omega
  · have hmcases := roundEven_cases unit m
    have hncases := roundEven_cases unit n
    omega

/-- Rounding is off by half of a unit at most. -/
theorem roundEven_error (hunit : 0 < unit) (n : Nat) :
    2 * (roundEven unit n * unit) ≤ 2 * n + unit ∧ 2 * n ≤ 2 * (roundEven unit n * unit) + unit := by
  have hn := Nat.div_add_mod' n unit
  have hlt := Nat.mod_lt n hunit
  rw [roundEven]
  split
  case isTrue hup =>
    rw [roundsUp_iff] at hup
    rw [Nat.add_one_mul (n / unit) unit]
    omega
  case isFalse hup =>
    rw [roundsUp_iff] at hup
    omega

theorem roundEven_mul (hunit : 0 < unit) (count : Nat) : roundEven unit (count * unit) = count := by
  have hup : ¬ roundsUp unit (count * unit) = true := by
    rw [roundsUp_iff, Nat.mul_mod_left]
    omega
  rw [roundEven, if_neg hup, Nat.mul_div_cancel _ hunit]

/-- Half of a unit or less in front of an even count, a number is rounded to this count. -/
theorem roundEven_of_near {count δ : Nat} (heven : count % 2 = 0) (hδ : 0 < δ) (hhalf : 2 * δ ≤ unit)
    (hcount : n + δ = count * unit) : roundEven unit n = count := by
  obtain ⟨before, rfl⟩ : ∃ before, count = before + 1 := by
    cases count with
    | zero =>
      rw [Nat.zero_mul] at hcount
      omega
    | succ before => exact ⟨before, rfl⟩
  rw [Nat.succ_mul] at hcount
  have hrest : n = unit * before + (unit - δ) := by
    rw [Nat.mul_comm]
    omega
  have hdiv : n / unit = before := by
    rw [hrest, Nat.mul_add_div (by omega), Nat.div_eq_of_lt (by omega), Nat.add_zero]
  have hmod : n % unit = unit - δ := by
    rw [hrest, Nat.mul_add_mod, Nat.mod_eq_of_lt (by omega)]
  have hup : roundsUp unit n = true := by
    rw [roundsUp_iff, hdiv, hmod]
    omega
  rw [roundEven, if_pos hup, hdiv]

end Units

/-! ## Bits -/

section Bits
variable {p m n : Nat}

theorem log2_mono (hm : m ≠ 0) (h : m ≤ n) : m.log2 ≤ n.log2 :=
  (Nat.le_log2 (by omega)).mpr ((Nat.log2_self_le hm).trans h)

theorem unitAt_dvd (hm : m ≠ 0) (h : m ≤ n) : unitAt p m ∣ unitAt p n :=
  Nat.pow_dvd_pow 2 (by have := log2_mono hm h; omega)

/-- A number lies between as many units as `p` significant bits can count. -/
theorem units_between (hp : 0 < p) (hn : 2 ^ p < n) :
    2 ^ (p - 1) * unitAt p n = 2 ^ n.log2 ∧ 2 ^ p * unitAt p n = 2 ^ (n.log2 + 1) := by
  have hlog : p ≤ n.log2 := (Nat.le_log2 (Nat.ne_of_gt ((Nat.two_pow_pos p).trans hn))).mpr (by omega)
  rw [unitAt, ← Nat.pow_add, ← Nat.pow_add]
  exact ⟨congrArg (2 ^ ·) (by omega), congrArg (2 ^ ·) (by omega)⟩

/-- Rounding does not leave the powers of two around a number. -/
theorem nearestEven_between (hp : 0 < p) (hn : 2 ^ p < n) :
    2 ^ n.log2 ≤ nearestEven p n ∧ nearestEven p n ≤ 2 ^ (n.log2 + 1) := by
  have hne : n ≠ 0 := Nat.ne_of_gt ((Nat.two_pow_pos p).trans hn)
  have hunit : 0 < unitAt p n := Nat.two_pow_pos _
  obtain ⟨hlow, hhigh⟩ := units_between hp hn
  have hfirst : 2 ^ (p - 1) ≤ n / unitAt p n := by
    rw [Nat.le_div_iff_mul_le hunit, hlow]
    exact Nat.log2_self_le hne
  have hlast : n / unitAt p n < 2 ^ p := by
    rw [Nat.div_lt_iff_lt_mul hunit, hhigh]
    exact Nat.lt_log2_self
  have hcases := roundEven_cases (unitAt p n) n
  rw [nearestEven, if_neg (by omega), ← hlow, ← hhigh]
  exact ⟨Nat.mul_le_mul_right _ (by omega), Nat.mul_le_mul_right _ (by omega)⟩

theorem nearestEven_mono (hp : 0 < p) (h : m ≤ n) : nearestEven p m ≤ nearestEven p n := by
  have hpos := Nat.two_pow_pos p
  by_cases hn : n ≤ 2 ^ p
  · rw [nearestEven, if_pos (h.trans hn), nearestEven, if_pos hn]
    exact h
  · have hbetween := nearestEven_between hp (by omega : 2 ^ p < n)
    by_cases hm : m ≤ 2 ^ p
    · rw [nearestEven, if_pos hm]
      have hlog : p ≤ n.log2 := (Nat.le_log2 (by omega)).mpr (by omega)
      calc m ≤ 2 ^ p := hm
        _ ≤ 2 ^ n.log2 := Nat.pow_le_pow_right (by omega) hlog
        _ ≤ nearestEven p n := hbetween.1
    · have hlog : m.log2 ≤ n.log2 := log2_mono (by omega) h
      rcases Nat.lt_or_ge m.log2 n.log2 with hlt | hge
      · calc nearestEven p m ≤ 2 ^ (m.log2 + 1) := (nearestEven_between hp (by omega)).2
          _ ≤ 2 ^ n.log2 := Nat.pow_le_pow_right (by omega) hlt
          _ ≤ nearestEven p n := hbetween.1
      · have hunit : unitAt p m = unitAt p n := by rw [unitAt, unitAt, Nat.le_antisymm hlog hge]
        rw [nearestEven, if_neg hm, nearestEven, if_neg hn, hunit]
        exact Nat.mul_le_mul_right _ (roundEven_mono h)

/-- The error relative to the number. -/
theorem nearestEven_error (hp : 0 < p) (n : Nat) :
    2 ^ p * nearestEven p n ≤ 2 ^ p * n + n ∧ 2 ^ p * n ≤ 2 ^ p * nearestEven p n + n := by
  rw [nearestEven]
  split
  · omega
  · rename_i hn
    obtain ⟨-, hhigh⟩ := units_between hp (by omega : 2 ^ p < n)
    have hunit : 0 < unitAt p n := Nat.two_pow_pos _
    obtain ⟨habove, hbelow⟩ := roundEven_error hunit n
    have hself : 2 ^ p * unitAt p n ≤ 2 * n := by
      have hlog := Nat.log2_self_le (Nat.ne_of_gt ((Nat.two_pow_pos p).trans (by omega : 2 ^ p < n)))
      rw [hhigh, Nat.pow_succ]
      omega
    have habove := Nat.mul_le_mul_left (2 ^ p) habove
    have hbelow := Nat.mul_le_mul_left (2 ^ p) hbelow
    rw [Nat.mul_add, Nat.mul_left_comm, Nat.mul_left_comm _ 2 n] at habove
    rw [Nat.mul_add, Nat.mul_left_comm, Nat.mul_left_comm _ 2 (_ * _)] at hbelow
    omega

/-- A multiple of a number's unit, or of a smaller one, has few enough bits. -/
theorem nearestEven_of_dvd (hd : unitAt p n ∣ n) : nearestEven p n = n := by
  rw [nearestEven]
  split
  · rfl
  · obtain ⟨count, hcount⟩ := hd
    have hmul : n = count * unitAt p n := by
      rw [Nat.mul_comm]
      exact hcount
    have hround := roundEven_mul (Nat.two_pow_pos (n.log2 + 1 - p)) count
    change roundEven (unitAt p n) (count * unitAt p n) = count at hround
    rw [← hmul] at hround
    rw [hround, ← hmul]

/-- Where the units are small, a number behind by `d` is rounded behind by `d`. -/
theorem nearestEven_add (hp : 0 < p) {d count : Nat} (hd : 2 * unitAt p (n + d) ∣ d) (hdpos : 0 < d)
    (h : count * d ≤ nearestEven p n) : (count + 1) * d ≤ nearestEven p (n + d) := by
  have hunits : unitAt p (n + d) ∣ d := (Nat.dvd_mul_left _ _).trans hd
  rw [Nat.succ_mul]
  by_cases hreached : count * d ≤ n
  · have hexact : nearestEven p (count * d + d) = count * d + d := by
      refine @nearestEven_of_dvd p _ ((unitAt_dvd (by omega) (by omega : count * d + d ≤ n + d)).trans ?_)
      exact Nat.dvd_add (hunits.mul_left count) hunits
    calc count * d + d = nearestEven p (count * d + d) := hexact.symm
      _ ≤ nearestEven p (n + d) := nearestEven_mono hp (by omega)
  · -- `n` is rounded up, by half of its unit at most
    have hlarge : 2 ^ p < n := by
      by_contra hsmall
      rw [nearestEven, if_pos (by omega)] at h
      omega
    have hpos := Nat.two_pow_pos p
    have hunit : 0 < unitAt p n := Nat.two_pow_pos _
    have hgrow : unitAt p n ∣ unitAt p (n + d) := unitAt_dvd (by omega) (by omega)
    have hle : unitAt p n ≤ unitAt p (n + d) := Nat.le_of_dvd (Nat.two_pow_pos _) hgrow
    rw [nearestEven, if_neg (by omega)] at h
    obtain ⟨habove, -⟩ := roundEven_error hunit n
    obtain ⟨halves, hhalves⟩ := hd
    have hcount : n + d + (count * d - n) = 2 * ((count + 1) * halves) * unitAt p (n + d) := by
      have hsum : (count + 1) * d = 2 * ((count + 1) * halves) * unitAt p (n + d) := by
        conv_lhs => rw [hhalves]
        ring
      rw [← hsum, Nat.succ_mul]
      omega
    have hround := @roundEven_of_near (unitAt p (n + d)) (n + d) _ _ (Nat.mul_mod_right 2 _) (by omega) (by omega) hcount
    rw [nearestEven, if_neg (by omega), hround, ← hcount]
    omega

end Bits

end OpenJfx.Lib
