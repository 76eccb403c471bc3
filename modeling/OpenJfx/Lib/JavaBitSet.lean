import OpenJfx.Lib.Java

/-! # `java.util.BitSet`

A set of positions as the increasing list of its members, with the number of
64-bit words of its array.  The array grows, at least doubling, when a bit
behind it is set, and shrinks only when it is trimmed, as `clone` does. -/
set_option autoImplicit false
namespace OpenJfx.Lib

structure JavaBitSet where
  bits : List Int
  words : Nat
  increasing : bits.Pairwise (· < ·)
  nonneg : ∀ b ∈ bits, 0 ≤ b
  bounded : ∀ b ∈ bits, b < 64 * words
deriving DecidableEq, Repr

namespace JavaBitSet

/-- `new BitSet()`. -/
def empty : JavaBitSet := ⟨[], 1, List.Pairwise.nil, by simp, by simp⟩

def get (s : JavaBitSet) (i : Int) : Bool := decide (i ∈ s.bits)

/-- `expandTo` for the word of bit `i`. -/
def expandTo (words i : Nat) : Nat := if i / 64 < words then words else max (2 * words) (i / 64 + 1)

theorem le_expandTo (words i : Nat) : words ≤ expandTo words i ∧ i < 64 * expandTo words i := by
  unfold expandTo
  by_cases fits : i / 64 < words
  · rw [if_pos fits]
    omega
  · rw [if_neg fits]
    omega

def set (s : JavaBitSet) (i : Nat) : JavaBitSet where
  bits := treeAdd i s.bits
  words := expandTo s.words i
  increasing := treeAdd_sorted s.increasing
  nonneg := by
    intro b hb
    rcases mem_treeAdd.mp hb with rfl | hb
    · exact Int.natCast_nonneg i
    · exact s.nonneg b hb
  bounded := by
    intro b hb
    have hgrow := le_expandTo s.words i
    rcases mem_treeAdd.mp hb with rfl | hb
    · omega
    · have := s.bounded b hb
      omega

def clear (s : JavaBitSet) (i : Int) : JavaBitSet where
  bits := s.bits.filter (· ≠ i)
  words := s.words
  increasing := s.increasing.filter _
  nonneg := fun b hb => s.nonneg b (List.mem_of_mem_filter hb)
  bounded := fun b hb => s.bounded b (List.mem_of_mem_filter hb)

def clearAll (s : JavaBitSet) : JavaBitSet := ⟨[], s.words, List.Pairwise.nil, by simp, by simp⟩

/-- `set(from, to)`; the highest bit makes room for all. -/
def setRange (s : JavaBitSet) (lo hi : Int) : JavaBitSet := (intRange lo hi).foldr (fun i s => s.set i.toNat) s

/-- `clear(from, to)`. -/
def clearRange (s : JavaBitSet) (lo hi : Int) : JavaBitSet := (intRange lo hi).foldr (fun i s => s.clear i) s

def cardinality (s : JavaBitSet) : Nat := s.bits.length

/-- `size()`, the number of bits of the array. -/
def size (s : JavaBitSet) : Nat := 64 * s.words

def wordsInUse (s : JavaBitSet) : Nat :=
  match s.bits.getLast? with
  | none => 0
  | some b => b.toNat / 64 + 1

theorem lt_wordsInUse (s : JavaBitSet) : ∀ b ∈ s.bits, b < 64 * s.wordsInUse := by
  intro b hb
  obtain ⟨front, last, hbits⟩ := (List.eq_nil_or_concat' s.bits).resolve_left (List.ne_nil_of_mem hb)
  have sorted := s.increasing
  have hlast : 0 ≤ last := s.nonneg last (by rw [hbits]; simp)
  unfold wordsInUse
  rw [hbits] at sorted hb ⊢
  have hle : b ≤ last := by
    rcases List.mem_append.mp hb with hfront | hend
    · exact ((List.pairwise_append.mp sorted).2.2 b hfront last (by simp)).le
    · exact (List.mem_singleton.mp hend).le
  rw [List.getLast?_concat]
  dsimp only
  omega

/-- `trimToSize()`. -/
def trimToSize (s : JavaBitSet) : JavaBitSet := ⟨s.bits, s.wordsInUse, s.increasing, s.nonneg, s.lt_wordsInUse⟩

def nextSetBit (s : JavaBitSet) (i : Int) : Int := (s.bits.find? (fun b => decide (i ≤ b))).getD (-1)

def previousSetBit (s : JavaBitSet) (i : Int) : Int :=
  ((s.bits.filter (fun b => decide (b ≤ i))).getLast?).getD (-1)

theorem mem_set {s : JavaBitSet} {i : Nat} {z : Int} : z ∈ (s.set i).bits ↔ z = i ∨ z ∈ s.bits := mem_treeAdd

theorem mem_foldr_set {s : JavaBitSet} {is : List Int} (nonneg : ∀ i ∈ is, 0 ≤ i) {z : Int} :
    z ∈ (is.foldr (fun i s => s.set i.toNat) s).bits ↔ z ∈ is ∨ z ∈ s.bits := by
  induction is with
  | nil => simp
  | cons i is ih =>
    have hi := nonneg i (by simp)
    have hrest := ih fun j hj => nonneg j (by simp [hj])
    rw [List.foldr_cons, mem_set, hrest, Int.toNat_of_nonneg hi, List.mem_cons, or_assoc]

theorem mem_setRange {s : JavaBitSet} {lo hi z : Int} (hlo : 0 ≤ lo) :
    z ∈ (s.setRange lo hi).bits ↔ (lo ≤ z ∧ z < hi) ∨ z ∈ s.bits := by
  rw [setRange, mem_foldr_set, mem_intRange]
  intro i hi
  have := mem_intRange.mp hi
  omega

end JavaBitSet

/-! ## Increasing lists -/

section Increasing
variable {xs ys : List Int}

theorem eq_of_increasing (hx : xs.Pairwise (· < ·)) (hy : ys.Pairwise (· < ·)) (h : ∀ z, z ∈ xs ↔ z ∈ ys) :
    xs = ys := by
  induction xs generalizing ys with
  | nil =>
    cases ys with
    | nil => rfl
    | cons y ys => exact absurd ((h y).mpr (by simp)) (by simp)
  | cons x xs ih =>
    cases ys with
    | nil => exact absurd ((h x).mp (by simp)) (by simp)
    | cons y ys =>
      obtain ⟨hxs, hx'⟩ := List.pairwise_cons.mp hx
      obtain ⟨hys, hy'⟩ := List.pairwise_cons.mp hy
      have head : x = y := by
        rcases List.mem_cons.mp ((h x).mp (by simp)) with same | hmem
        · exact same
        · rcases List.mem_cons.mp ((h y).mpr (by simp)) with same | hmem'
          · exact same.symm
          · have h1 := hys x hmem
            have h2 := hxs y hmem'
            omega
      subst head
      rw [ih hx' hy' fun z => ?_]
      constructor
      · intro hz
        rcases List.mem_cons.mp ((h z).mp (by simp [hz])) with same | hmem
        · have := hxs z hz
          omega
        · exact hmem
      · intro hz
        rcases List.mem_cons.mp ((h z).mpr (by simp [hz])) with same | hmem
        · have := hys z hz
          omega
        · exact hmem

theorem exists_cut (hx : xs.Pairwise (· < ·)) {x : Int} (hmem : x ∈ xs) :
    ∃ front back, xs = front ++ x :: back ∧ (∀ z ∈ front, z < x) ∧ ∀ z ∈ back, x < z := by
  obtain ⟨front, back, rfl⟩ := List.append_of_mem hmem
  obtain ⟨-, hback, hcross⟩ := List.pairwise_append.mp hx
  exact ⟨front, back, rfl, fun z hz => hcross z hz x (by simp), (List.pairwise_cons.mp hback).1⟩

theorem exists_cut_behind (hx : xs.Pairwise (· < ·)) (v : Int) :
    ∃ front back, xs = front ++ back ∧ (∀ z ∈ front, z ≤ v) ∧ (∀ z ∈ back, v < z) ∧
      xs.countP (fun z => decide (z ≤ v)) = front.length := by
  induction xs with
  | nil => exact ⟨[], [], rfl, by simp, by simp, rfl⟩
  | cons x xs ih =>
    obtain ⟨hbelow, hxs⟩ := List.pairwise_cons.mp hx
    by_cases low : x ≤ v
    · obtain ⟨front, back, cut, hfront, hback, hcount⟩ := ih hxs
      refine ⟨x :: front, back, by rw [cut]; rfl, ?_, hback, ?_⟩
      · intro z hz
        rcases List.mem_cons.mp hz with rfl | hz
        · exact low
        · exact hfront z hz
      · rw [List.countP_cons_of_pos (by simpa using low), hcount]
        rfl
    · have hall : ∀ z ∈ x :: xs, v < z := by
        intro z hz
        rcases List.mem_cons.mp hz with rfl | hz
        · omega
        · have := hbelow z hz
          omega
      refine ⟨[], x :: xs, rfl, by simp, hall, ?_⟩
      rw [List.countP_eq_zero.mpr]
      · rfl
      · intro z hz
        have := hall z hz
        simp
        omega

theorem length_eq_iff_full (hx : xs.Pairwise (· < ·)) {n : Nat} (range : ∀ z ∈ xs, 0 ≤ z ∧ z < n) :
    xs.length ≤ n ∧ (xs.length = n ↔ ∀ j : Int, 0 ≤ j → j < n → j ∈ xs) := by
  induction n generalizing xs with
  | zero =>
    cases xs with
    | nil => exact ⟨le_rfl, by simp⟩
    | cons x xs =>
      have := range x (by simp)
      omega
  | succ n ih =>
    have below : ∀ z ∈ xs.filter (fun z : Int => decide (z < n)), 0 ≤ z ∧ z < n := by
      intro z hz
      obtain ⟨hz, hlt⟩ := List.mem_filter.mp hz
      exact ⟨(range z hz).1, by simpa using hlt⟩
    obtain ⟨hle, hiff⟩ := ih (hx.filter _) below
    by_cases last : (n : Int) ∈ xs
    · obtain ⟨front, back, rfl, hfront, hback⟩ := exists_cut hx last
      have hnil : back = [] := by
        cases back with
        | nil => rfl
        | cons b back =>
          have h1 := hback b (by simp)
          have h2 := range b (by simp)
          omega
      subst hnil
      have hfilter : (front ++ [(n : Int)]).filter (fun z : Int => decide (z < n)) = front := by
        rw [List.filter_append, List.filter_eq_self.mpr (by simpa using hfront)]
        simp
      rw [hfilter] at hle hiff
      refine ⟨by simp; omega, ?_⟩
      simp only [List.length_append, List.length_singleton, Nat.add_right_cancel_iff, hiff, List.mem_append,
        List.mem_singleton]
      constructor
      · intro h j h0 h1
        by_cases hj : j = n
        · exact Or.inr hj
        · exact Or.inl (h j h0 (by omega))
      · intro h j h0 h1
        rcases h j h0 (by omega) with hj | hj
        · exact hj
        · omega
    · have hfilter : xs.filter (fun z : Int => decide (z < n)) = xs := by
        apply List.filter_eq_self.mpr
        intro z hz
        have := range z hz
        have : z ≠ n := fun same => last (same ▸ hz)
        simp
        omega
      rw [hfilter] at hle hiff
      refine ⟨by omega, ?_⟩
      constructor
      · intro h
        omega
      · intro h
        exact absurd (h n (by omega) (by omega)) last

end Increasing

end OpenJfx.Lib
