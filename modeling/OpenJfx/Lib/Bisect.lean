import Mathlib.Tactic.Linarith

/-! # Binary search with an insertion point

The search loop shared by `java.util.Arrays.binarySearch` and its hand-written
variants.  `probe i` compares entry `i` with the target: `.lt` means that the
entry lies before the target.  A hit is returned as the index; a miss is
returned as the bitwise complement `~k = -(k+1)` of the insertion point, which
is the constructor `Int.negSucc k`.  The upper bound is exclusive here, so the
inclusive pair `(lo, hi - 1)` has the midpoint `(lo + hi - 1) / 2`. -/
set_option autoImplicit false
namespace OpenJfx.Lib

def bisectLoop (probe : Nat → Ordering) : Nat → Nat → Nat → Int
  | 0, lo, _ => .negSucc lo
  | fuel + 1, lo, hi =>
      if lo < hi then
        match probe ((lo + hi - 1) / 2) with
        | .lt => bisectLoop probe fuel ((lo + hi - 1) / 2 + 1) hi
        | .gt => bisectLoop probe fuel lo ((lo + hi - 1) / 2)
        | .eq => .ofNat ((lo + hi - 1) / 2)
      else .negSucc lo

/-- The search over the entries `0 .. n - 1`; every round shrinks the range, so
`n` rounds are enough. -/
def bisect (probe : Nat → Ordering) (n : Nat) : Int := bisectLoop probe n 0 n

/-- What a search result says about the entries `lo .. hi - 1`. -/
def BisectResult (probe : Nat → Ordering) (lo hi : Nat) : Int → Prop
  | .ofNat m => lo ≤ m ∧ m < hi ∧ probe m = .eq
  | .negSucc k => lo ≤ k ∧ k ≤ hi

theorem bisectLoop_in_range (probe : Nat → Ordering) :
    ∀ fuel lo hi, lo ≤ hi → BisectResult probe lo hi (bisectLoop probe fuel lo hi) := by
  intro fuel
  induction fuel with
  | zero => intro lo hi h; exact ⟨le_rfl, h⟩
  | succ fuel ih =>
    intro lo hi h
    rw [bisectLoop]
    split
    · rename_i hlt
      have hmid : lo ≤ (lo + hi - 1) / 2 ∧ (lo + hi - 1) / 2 < hi := by omega
      have widen : ∀ lo' hi' r, lo ≤ lo' → hi' ≤ hi →
          BisectResult probe lo' hi' r → BisectResult probe lo hi r := by
        intro lo' hi' r h1 h2 hr
        cases r with
        | ofNat m => exact ⟨h1.trans hr.1, lt_of_lt_of_le hr.2.1 h2, hr.2.2⟩
        | negSucc k => exact ⟨h1.trans hr.1, hr.2.trans h2⟩
      split
      · exact widen _ _ _ (by omega) le_rfl (ih _ _ (by omega))
      · exact widen _ _ _ le_rfl (by omega) (ih _ _ (by omega))
      · rename_i heq
        exact ⟨hmid.1, hmid.2, heq⟩
    · exact ⟨le_rfl, h⟩

theorem bisect_in_range (probe : Nat → Ordering) (n : Nat) :
    BisectResult probe 0 n (bisect probe n) :=
  bisectLoop_in_range probe n 0 n (Nat.zero_le n)

theorem bisectLoop_miss (probe : Nat → Ordering) (n : Nat)
    (low : ∀ i j, i < j → j < n → probe j = .lt → probe i = .lt)
    (high : ∀ i j, i < j → j < n → probe i = .gt → probe j = .gt) :
    ∀ fuel lo hi k, hi - lo ≤ fuel → lo ≤ hi → hi ≤ n →
      (∀ i, i < lo → probe i = .lt) → (∀ i, hi ≤ i → i < n → probe i = .gt) →
      bisectLoop probe fuel lo hi = .negSucc k →
      (∀ i, i < k → probe i = .lt) ∧ ∀ i, k ≤ i → i < n → probe i = .gt := by
  intro fuel
  induction fuel with
  | zero =>
    intro lo hi k hfuel hle _ hlo hhi h
    rw [bisectLoop] at h
    obtain rfl : lo = k := Int.negSucc.inj h
    exact ⟨hlo, fun i hi' hn => hhi i (by omega) hn⟩
  | succ fuel ih =>
    intro lo hi k hfuel hle hn hlo hhi h
    rw [bisectLoop] at h
    split at h
    · rename_i hlt
      have hmid : lo ≤ (lo + hi - 1) / 2 ∧ (lo + hi - 1) / 2 < hi := by omega
      split at h
      · rename_i hm
        refine ih _ hi k (by omega) (by omega) hn ?_ hhi h
        intro i hi'
        rcases Nat.lt_succ_iff_lt_or_eq.mp hi' with hlt' | rfl
        · exact low i _ hlt' (by omega) hm
        · exact hm
      · rename_i hm
        refine ih lo _ k (by omega) hmid.1 (by omega) hlo ?_ h
        intro i hi' hin
        rcases Nat.lt_or_eq_of_le hi' with hlt' | rfl
        · exact high _ i hlt' hin hm
        · exact hm
      · cases h
    · obtain rfl : lo = k := Int.negSucc.inj h
      exact ⟨hlo, fun i hi' hn => hhi i (by omega) hn⟩

theorem bisect_miss (probe : Nat → Ordering) (n k : Nat)
    (low : ∀ i j, i < j → j < n → probe j = .lt → probe i = .lt)
    (high : ∀ i j, i < j → j < n → probe i = .gt → probe j = .gt)
    (miss : bisect probe n = .negSucc k) :
    k ≤ n ∧ (∀ i, i < k → probe i = .lt) ∧ ∀ i, k ≤ i → i < n → probe i = .gt := by
  have hk : k ≤ n := by
    have := bisect_in_range probe n
    rw [miss] at this
    exact this.2
  exact ⟨hk, bisectLoop_miss probe n low high n 0 n k (by omega) (Nat.zero_le n) le_rfl
    (fun i hi => absurd hi (Nat.not_lt_zero i)) (fun i hi hn => absurd hn (by omega)) miss⟩

theorem bisect_hit (probe : Nat → Ordering) (n m : Nat) (hit : bisect probe n = .ofNat m) :
    m < n ∧ probe m = .eq := by
  have := bisect_in_range probe n
  rw [hit] at this
  exact this.2

end OpenJfx.Lib
