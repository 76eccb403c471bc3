import Mathlib

/-! # Sets of numbers in arrays of words

Number `i` is in the set when bit `i % w` of word `i / w` is set; words behind
the end of the array count as zero.  Arrays of different lengths can hold the
same set, arrays without a zero word at the end cannot. -/
set_option autoImplicit false
namespace OpenJfx.Lib.WordSet
variable {w : Nat}

def word (ws : List (BitVec w)) (n : Nat) : BitVec w := ws.getD n 0#w

def has (ws : List (BitVec w)) (i : Nat) : Bool := (word ws (i / w)).getLsbD (i % w)

/-- The array whose words are the values of `f`. -/
def tabulate (n : Nat) (f : Nat → BitVec w) : List (BitVec w) := (List.range n).map f

/-- The members in increasing order, by a loop over words and bits. -/
def members (ws : List (BitVec w)) : List Nat :=
  (List.range ws.length).flatMap (fun n =>
    ((List.range w).filter (fun b => (word ws n).getLsbD b)).map (fun b => n * w + b))

def Trimmed (ws : List (BitVec w)) : Prop := ws.getLast? ≠ some 0#w

instance (ws : List (BitVec w)) : Decidable (Trimmed ws) := inferInstanceAs (Decidable (_ ≠ _))

/-! ## Words -/

theorem word_of_lt {ws : List (BitVec w)} {n : Nat} (h : n < ws.length) : word ws n = ws[n] := by
  rw [word, List.getD_eq_getElem?_getD, List.getElem?_eq_getElem h, Option.getD_some]

theorem word_of_le {ws : List (BitVec w)} {n : Nat} (h : ws.length ≤ n) : word ws n = 0#w := by
  rw [word, List.getD_eq_getElem?_getD, List.getElem?_eq_none h, Option.getD_none]

@[simp] theorem word_nil (n : Nat) : word ([] : List (BitVec w)) n = 0#w := rfl

theorem word_tabulate (n : Nat) (f : Nat → BitVec w) (k : Nat) :
    word (tabulate n f) k = if k < n then f k else 0#w := by
  by_cases h : k < n
  · rw [if_pos h, word_of_lt (by simpa [tabulate] using h)]
    simp [tabulate]
  · rw [if_neg h]
    apply word_of_le
    simpa [tabulate] using h

@[simp] theorem length_tabulate (n : Nat) (f : Nat → BitVec w) : (tabulate n f).length = n := by
  simp [tabulate]

theorem word_append_zeros (ws : List (BitVec w)) (m n : Nat) :
    word (ws ++ List.replicate m 0#w) n = word ws n := by
  by_cases h : n < ws.length
  · rw [word_of_lt h, word_of_lt (by rw [List.length_append]; omega), List.getElem_append_left h]
  · rw [word_of_le (Nat.le_of_not_lt h)]
    by_cases hn : n < (ws ++ List.replicate m 0#w).length
    · rw [word_of_lt hn, List.getElem_append_right (Nat.le_of_not_lt h), List.getElem_replicate]
    · exact word_of_le (Nat.le_of_not_lt hn)

theorem word_set {ws : List (BitVec w)} {k : Nat} (h : k < ws.length) (v : BitVec w) (n : Nat) :
    word (ws.set k v) n = if n = k then v else word ws n := by
  by_cases hn : n = k
  · subst hn
    rw [if_pos rfl, word_of_lt (by simpa using h), List.getElem_set_self]
  · rw [if_neg hn, word, word, List.getD_eq_getElem?_getD, List.getD_eq_getElem?_getD,
      List.getElem?_set_ne (Ne.symm hn)]

theorem and_bit_eq (x : BitVec w) {k : Nat} (h : k < w) :
    (x &&& 1#w <<< k = 1#w <<< k) ↔ x.getLsbD k = true := by
  rw [BitVec.eq_of_getLsbD_eq_iff]
  constructor
  · intro hall
    have hk := hall k h
    rw [BitVec.getLsbD_and, BitVec.getLsbD_shiftLeft, BitVec.getLsbD_one] at hk
    simpa [h, show 0 < w by omega] using hk
  · intro hx i hi
    rw [BitVec.getLsbD_and, BitVec.getLsbD_shiftLeft, BitVec.getLsbD_one]
    by_cases hik : i = k
    · rw [hik, hx]
      simp
    · have hbit : ¬(¬i < k ∧ i - k = 0) := by omega
      by_cases hlt : i < k
      · simp [hlt]
      · simp [show i - k ≠ 0 by omega]

theorem getLsbD_bit {k i : Nat} (hk : k < w) (hi : i < w) : (1#w <<< k).getLsbD i = decide (i = k) := by
  rw [BitVec.getLsbD_shiftLeft, BitVec.getLsbD_one]
  by_cases hik : i = k
  · simp [hik, hk, show 0 < w by omega]
  · by_cases hlt : i < k
    · simp [hlt, hik]
    · simp [show i - k ≠ 0 by omega, hik]

/-! ## Members -/

@[simp] theorem has_nil (i : Nat) : has ([] : List (BitVec w)) i = false := by simp [has]

theorem has_append_zeros (ws : List (BitVec w)) (m i : Nat) : has (ws ++ List.replicate m 0#w) i = has ws i := by
  rw [has, has, word_append_zeros]

theorem mul_add_div_eq {n b : Nat} (h : b < w) : (n * w + b) / w = n := by
  rw [Nat.mul_comm, Nat.mul_add_div (Nat.zero_lt_of_lt h), Nat.div_eq_of_lt h, Nat.add_zero]

theorem has_word {ws : List (BitVec w)} {n b : Nat} (h : b < w) : has ws (n * w + b) = (word ws n).getLsbD b := by
  have hmod : (n * w + b) % w = b := by
    rw [Nat.mul_comm, Nat.mul_add_mod, Nat.mod_eq_of_lt h]
  rw [has, mul_add_div_eq h, hmod]

theorem lt_of_has {ws : List (BitVec w)} {i : Nat} (h : has ws i = true) : i / w < ws.length := by
  by_contra hle
  rw [has, word_of_le (Nat.le_of_not_lt hle), BitVec.getLsbD_zero] at h
  cases h

theorem word_eq_zero_iff {ws : List (BitVec w)} {n : Nat} :
    word ws n = 0#w ↔ ∀ b, b < w → has ws (n * w + b) = false := by
  rw [BitVec.eq_of_getLsbD_eq_iff]
  constructor
  · intro h b hb
    rw [has_word hb, h b hb, BitVec.getLsbD_zero]
  · intro h b hb
    rw [← has_word hb, h b hb, BitVec.getLsbD_zero]

theorem exists_has_of_word_ne {ws : List (BitVec w)} {n : Nat} (h : word ws n ≠ 0#w) :
    ∃ b, b < w ∧ has ws (n * w + b) = true := by
  by_contra hnone
  apply h
  rw [word_eq_zero_iff]
  intro b hb
  by_contra hhas
  exact hnone ⟨b, hb, by simpa using hhas⟩

theorem word_ne_zero_of_has {ws : List (BitVec w)} {i : Nat} (h : has ws i = true) : word ws (i / w) ≠ 0#w := by
  intro hzero
  rw [has, hzero, BitVec.getLsbD_zero] at h
  cases h

theorem word_eq_of_has_eq {a b : List (BitVec w)} (h : ∀ i, has a i = has b i) (n : Nat) :
    word a n = word b n := by
  rw [BitVec.eq_of_getLsbD_eq_iff]
  intro k hk
  rw [← has_word hk, ← has_word hk, h]

theorem mem_members {ws : List (BitVec w)} {i : Nat} (hw : 0 < w) : i ∈ members ws ↔ has ws i = true := by
  rw [members, List.mem_flatMap]
  constructor
  · rintro ⟨n, -, hi⟩
    obtain ⟨b, hb, rfl⟩ := List.mem_map.mp hi
    obtain ⟨hlt, hbit⟩ := List.mem_filter.mp hb
    rw [has_word (List.mem_range.mp hlt)]
    exact hbit
  · intro h
    refine ⟨i / w, List.mem_range.mpr (lt_of_has h), List.mem_map.mpr ⟨i % w, ?_, ?_⟩⟩
    · exact List.mem_filter.mpr ⟨List.mem_range.mpr (Nat.mod_lt i hw), h⟩
    · rw [Nat.mul_comm]
      exact Nat.div_add_mod i w

theorem members_increasing (ws : List (BitVec w)) : (members ws).Pairwise (· < ·) := by
  rw [members, List.pairwise_flatMap]
  constructor
  · intro n _
    rw [List.pairwise_map]
    exact (List.pairwise_lt_range.filter _).imp (fun h => Nat.add_lt_add_left h _)
  · apply List.pairwise_lt_range.imp
    intro m n hmn i hi j hj
    obtain ⟨a, ha, rfl⟩ := List.mem_map.mp hi
    obtain ⟨b, -, rfl⟩ := List.mem_map.mp hj
    have ha := List.mem_range.mp (List.mem_filter.mp ha).1
    have hword : (m + 1) * w ≤ n * w := Nat.mul_le_mul_right w hmn
    rw [Nat.add_mul] at hword
    omega

theorem members_nodup (ws : List (BitVec w)) : (members ws).Nodup :=
  (members_increasing ws).imp Nat.ne_of_lt

theorem members_lt {ws : List (BitVec w)} {k l : Nat} (hl : l < (members ws).length) (h : k < l) :
    (members ws)[k] < (members ws)[l] :=
  List.pairwise_iff_getElem.mp (members_increasing ws) k l (by omega) hl h

/-! ## Arrays without a zero word at the end -/

theorem trimmed_nil : Trimmed ([] : List (BitVec w)) := by simp [Trimmed]

theorem trimmed_iff {ws : List (BitVec w)} :
    Trimmed ws ↔ ws.length = 0 ∨ word ws (ws.length - 1) ≠ 0#w := by
  rw [Trimmed, List.getLast?_eq_getElem?]
  by_cases h : ws.length = 0
  · rw [List.getElem?_eq_none (by omega)]
    simp [h]
  · have hlt : ws.length - 1 < ws.length := by omega
    rw [List.getElem?_eq_getElem hlt, word_of_lt hlt]
    simp [h]

theorem Trimmed.exists_last {ws : List (BitVec w)} (h : Trimmed ws) (hne : ws.length ≠ 0) :
    ∃ i, has ws i = true ∧ i / w = ws.length - 1 := by
  obtain ⟨b, hb, hhas⟩ := exists_has_of_word_ne ((trimmed_iff.mp h).resolve_left hne)
  exact ⟨_, hhas, mul_add_div_eq hb⟩

theorem trimmed_of_has {ws : List (BitVec w)} {i : Nat} (h : has ws i = true) (hi : ws.length ≤ i / w + 1) :
    Trimmed ws := by
  have hlt := lt_of_has h
  have hne := word_ne_zero_of_has h
  revert hi hlt hne
  generalize i / w = n
  intro hi hlt hne
  rw [trimmed_iff, show ws.length - 1 = n by omega]
  exact Or.inr hne

theorem Trimmed.length_le {a b : List (BitVec w)} (ha : Trimmed a)
    (h : ∀ i, has a i = true → has b i = true) : a.length ≤ b.length := by
  by_cases hne : a.length = 0
  · omega
  · obtain ⟨i, hi, hlast⟩ := ha.exists_last hne
    have hlt := lt_of_has (h i hi)
    rw [hlast] at hlt
    omega

theorem Trimmed.ext {a b : List (BitVec w)} (ha : Trimmed a) (hb : Trimmed b)
    (h : ∀ i, has a i = has b i) : a = b := by
  have hle := ha.length_le (fun i hi => by rw [← h i]; exact hi)
  have hge := hb.length_le (fun i hi => by rw [h i]; exact hi)
  apply List.ext_getElem (Nat.le_antisymm hle hge)
  intro n hn hn'
  rw [← word_of_lt hn, ← word_of_lt hn']
  exact word_eq_of_has_eq h n

/-! ## Counts -/

theorem all_one_of_sum {ns : List Nat} (hpos : ∀ n ∈ ns, 0 < n) :
    ns.length ≤ ns.sum ∧ (ns.sum = ns.length → ∀ n ∈ ns, n = 1) := by
  induction ns with
  | nil => exact ⟨Nat.le_refl _, fun _ n hn => (nomatch hn)⟩
  | cons m ns ih =>
    rw [List.forall_mem_cons] at hpos
    obtain ⟨hle, hone⟩ := ih hpos.2
    rw [List.length_cons, List.sum_cons, List.forall_mem_cons]
    refine ⟨by omega, fun hsum => ⟨by omega, hone (by omega)⟩⟩

end OpenJfx.Lib.WordSet
