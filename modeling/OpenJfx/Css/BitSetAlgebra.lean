import OpenJfx.Css.BitSet

/-! # The set algebra of `BitSet`

For each mutation: the members of the array it leaves, and the flag it returns.
All of them compute what their names say, except that `removeAll` drops the words
behind the end of the shorter array. -/
set_option autoImplicit false
namespace OpenJfx.Css
open OpenJfx.Lib OpenJfx.Lib.WordSet

/-! ## The table of names -/

namespace Registry

theorem getIndex_of_getT {r : Registry} {i : Nat} {t : String} (h : r.getT i = some t) : r.getIndex t = i := by
  obtain ⟨hi, rfl⟩ := List.getElem?_eq_some_iff.mp h
  exact r.nodup.idxOf_getElem i hi

theorem exists_getT {r : Registry} {i : Nat} (h : i < r.names.length) : ∃ t, r.getT i = some t :=
  ⟨_, List.getElem?_eq_getElem h⟩

theorem getT_getIndex {r : Registry} {t : String} (h : r.getIndex t < r.names.length) :
    r.getT (r.getIndex t) = some t := by
  rw [getT, List.getElem?_eq_getElem h]
  exact congrArg some (List.getElem_idxOf h)

theorem register_names (r : Registry) (t : String) :
    (r.register t).names = if t ∈ r.names then r.names else r.names ++ [t] := by
  rw [register]
  split
  · rfl
  · rfl

theorem getIndex_register {r : Registry} (t : String) {u : String} (h : u ∈ r.names ∨ u = t) :
    (r.register t).getIndex u = r.getIndex u := by
  rw [getIndex, getIndex, register_names]
  split
  · rfl
  · rename_i ht
    by_cases hu : u ∈ r.names
    · exact List.idxOf_append_of_mem hu
    · rw [List.idxOf_append_of_notMem hu, List.idxOf_eq_length hu, h.resolve_left hu]
      simp

theorem mem_register (r : Registry) (t : String) : t ∈ (r.register t).names := by
  rw [register_names]
  split
  · assumption
  · exact List.mem_append_right _ (List.mem_singleton_self t)

theorem getIndex_inj {r : Registry} {t u : String} (ht : t ∈ r.names) (h : r.getIndex u = r.getIndex t) :
    u = t := by
  have hlt : r.getIndex t < r.names.length := List.idxOf_lt_length_of_mem ht
  have hgt := getT_getIndex hlt
  have hgu := getT_getIndex (h ▸ hlt : r.getIndex u < r.names.length)
  rw [h, hgt] at hgu
  exact (Option.some.inj hgu).symm

theorem length_le_register (r : Registry) (t : String) : r.names.length ≤ (r.register t).names.length := by
  rw [register_names]
  split
  · exact Nat.le_refl _
  · rw [List.length_append]
    omega

end Registry

def Registered (r : Registry) (bits : List Long) : Prop := ∀ i, has bits i = true → i < r.names.length

theorem Registered.has_false {r : Registry} {bits : List Long} (h : Registered r bits) {i : Nat}
    (hi : r.names.length ≤ i) : has bits i = false := by
  by_contra hhas
  exact absurd (h i (by simpa using hhas)) (by omega)

namespace BitSet

/-! ## Members -/

theorem getLsbD_bit_index (i : Nat) {k : Nat} (h : k < 64) : (bit i).getLsbD k = decide (k = i % 64) :=
  getLsbD_bit (Nat.mod_lt i (by decide)) h

theorem contains_some (r : Registry) (t : String) (bits : List Long) :
    contains r (some t) bits = has bits (r.getIndex t) := by
  rw [Bool.eq_iff_iff]
  rw [contains, Bool.and_eq_true, decide_eq_true_eq, decide_eq_true_eq, bit,
    and_bit_eq _ (Nat.mod_lt _ (by decide))]
  constructor
  · exact fun h => h.2
  · exact fun h => ⟨lt_of_has h, h⟩

theorem has_set {bits : List Long} {n : Nat} (hn : n < bits.length) (v : Long) (j : Nat) :
    has (bits.set n v) j = if j / 64 = n then v.getLsbD (j % 64) else has bits j := by
  rw [has, word_set hn]
  split
  · rfl
  · rfl

/-- The array after `add` made room for the word of index `i`. -/
def grown (i : Nat) (bits : List Long) : List Long :=
  if i / 64 ≥ bits.length then bits ++ List.replicate (i / 64 + 1 - bits.length) 0#64 else bits

theorem has_grown (i : Nat) (bits : List Long) (j : Nat) : has (grown i bits) j = has bits j := by
  rw [grown]
  split
  · exact has_append_zeros bits _ j
  · rfl

theorem lt_length_grown (i : Nat) (bits : List Long) : i / 64 < (grown i bits).length := by
  rw [grown]
  split
  · rw [List.length_append, List.length_replicate]
    omega
  · omega

theorem has_add (r : Registry) (hasListeners : Bool) (t : String) (bits : List Long) (j : Nat) :
    has (add r hasListeners (some t) bits).bits j = (has bits j || decide (j = r.getIndex t)) := by
  change has ((grown (r.getIndex t) bits).set (r.getIndex t / 64) _) j = _
  rw [has_set (lt_length_grown _ _)]
  split
  · rename_i hword
    rw [BitVec.getLsbD_or, getLsbD_bit_index _ (Nat.mod_lt j (by decide)), ← has_grown (r.getIndex t), has, hword]
    congr 1
    rw [decide_eq_decide]
    omega
  · rename_i hword
    have hne : j ≠ r.getIndex t := fun heq => hword (heq ▸ rfl)
    rw [has_grown]
    simp [hne]

theorem add_modified (r : Registry) (hasListeners : Bool) (t : String) (bits : List Long) :
    (add r hasListeners (some t) bits).modified = !has bits (r.getIndex t) := by
  change decide (word (grown (r.getIndex t) bits) (r.getIndex t / 64) ||| bit (r.getIndex t) ≠
    word (grown (r.getIndex t) bits) (r.getIndex t / 64)) = _
  rw [← has_grown (r.getIndex t), has]
  generalize word (grown (r.getIndex t) bits) (r.getIndex t / 64) = temp
  rw [Bool.eq_iff_iff, decide_eq_true_eq, Bool.not_eq_true', Ne, BitVec.eq_of_getLsbD_eq_iff]
  constructor
  · intro h
    by_contra hhas
    apply h
    intro k hk
    rw [BitVec.getLsbD_or, getLsbD_bit_index _ hk]
    by_cases hkk : k = r.getIndex t % 64
    · rw [hkk]
      simpa using hhas
    · simp [hkk]
  · intro h hall
    have hbit := hall (r.getIndex t % 64) (Nat.mod_lt _ (by decide))
    rw [BitVec.getLsbD_or, getLsbD_bit_index _ (Nat.mod_lt _ (by decide)), h] at hbit
    simp at hbit

theorem all_zero_iff {bits : List Long} : bits.all (· = 0#64) = true ↔ ∀ i, has bits i = false := by
  rw [List.all_eq_true]
  constructor
  · intro h i
    by_contra hhas
    have hhas : has bits i = true := by simpa using hhas
    apply word_ne_zero_of_has hhas
    rw [word_of_lt (lt_of_has hhas)]
    exact of_decide_eq_true (h _ (List.getElem_mem _))
  · intro h v hv
    obtain ⟨n, hn, rfl⟩ := List.mem_iff_getElem.mp hv
    rw [← word_of_lt hn]
    exact decide_eq_true (word_eq_zero_iff.mpr (fun b _ => h _))

theorem has_emptied (bits : List Long) (j : Nat) :
    has (if bits.all (· = 0#64) then [] else bits) j = has bits j := by
  split
  · rename_i hzero
    rw [has_nil, all_zero_iff.mp hzero]
  · rfl

theorem cleared_eq_iff (temp : Long) (i : Nat) :
    temp &&& ~~~bit i = temp ↔ temp.getLsbD (i % 64) = false := by
  rw [BitVec.eq_of_getLsbD_eq_iff]
  constructor
  · intro hall
    have hbit := hall (i % 64) (Nat.mod_lt _ (by decide))
    rw [BitVec.getLsbD_and, BitVec.getLsbD_not, getLsbD_bit_index _ (Nat.mod_lt _ (by decide))] at hbit
    simpa using hbit.symm
  · intro h k hk
    rw [BitVec.getLsbD_and, BitVec.getLsbD_not, getLsbD_bit_index _ hk]
    by_cases hkk : k = i % 64
    · rw [hkk, h]
      rfl
    · simp [hkk, hk]

theorem has_cleared {bits : List Long} {i : Nat} (h : i / 64 < bits.length) (j : Nat) :
    has (bits.set (i / 64) (word bits (i / 64) &&& ~~~bit i)) j = (has bits j && decide (j ≠ i)) := by
  rw [has_set h]
  split
  · rename_i hword
    rw [BitVec.getLsbD_and, BitVec.getLsbD_not, getLsbD_bit_index _ (Nat.mod_lt j (by decide)), has, hword]
    congr 1
    have hiff : j % 64 = i % 64 ↔ j = i := by omega
    simp [hiff, Nat.mod_lt j (show 64 > 0 by decide)]
  · rename_i hword
    have hne : j ≠ i := fun heq => hword (heq ▸ rfl)
    simp [hne]

theorem remove_modified (r : Registry) (hasListeners : Bool) (t : String) (bits : List Long) :
    (remove r hasListeners (some t) bits).modified = has bits (r.getIndex t) := by
  rw [remove]
  dsimp only
  split
  · rename_i hlong
    rw [has, word_of_le hlong, BitVec.getLsbD_zero]
  · split
    · rename_i hne
      rw [Ne, cleared_eq_iff] at hne
      exact (Bool.not_eq_false _ ▸ hne : _ = true).symm
    · rename_i hne
      rw [Ne, not_not, cleared_eq_iff] at hne
      exact hne.symm

theorem has_remove (r : Registry) (hasListeners : Bool) (t : String) (bits : List Long) (j : Nat) :
    has (remove r hasListeners (some t) bits).bits j = (has bits j && decide (j ≠ r.getIndex t)) := by
  rw [remove]
  dsimp only
  split
  · rename_i hlong
    by_cases hj : j = r.getIndex t
    · rw [hj, has, word_of_le hlong]
      simp
    · simp [hj]
  · rename_i hshort
    have hlt : r.getIndex t / 64 < bits.length := by omega
    split
    · dsimp only
      rw [has_emptied, has_cleared hlt]
    · exact has_cleared hlt j

theorem bitCount_eq_zero_iff (mask : Long) : bitCount mask = 0 ↔ mask = 0#64 := by
  rw [bitCount, List.countP_eq_zero]
  constructor
  · intro h
    apply BitVec.eq_of_getLsbD_eq
    intro b hb
    rw [BitVec.getLsbD_zero]
    exact Bool.eq_false_iff.mpr (h b (List.mem_range.mpr hb))
  · rintro rfl b _
    simp

theorem size_pos_iff (bits : List Long) : 0 < size bits ↔ ∃ i, has bits i = true := by
  have hzero : size bits = 0 ↔ ∀ i, has bits i = false := by
    rw [← all_zero_iff, size, List.sum_eq_zero_iff_forall_eq_nat, List.all_eq_true]
    constructor
    · intro h mask hmask
      exact decide_eq_true ((bitCount_eq_zero_iff mask).mp (h _ (List.mem_map_of_mem hmask)))
    · intro h x hx
      obtain ⟨mask, hmask, rfl⟩ := List.mem_map.mp hx
      exact (bitCount_eq_zero_iff mask).mpr (of_decide_eq_true (h mask hmask))
  constructor
  · intro hpos
    by_contra hnone
    have hall : ∀ i, has bits i = false := fun i => by
      by_contra hi
      exact hnone ⟨i, by simpa using hi⟩
    rw [hzero.mpr hall] at hpos
    exact absurd hpos (Nat.lt_irrefl 0)
  · rintro ⟨i, hi⟩
    apply Nat.pos_of_ne_zero
    intro h
    rw [hzero.mp h i] at hi
    cases hi

/-! ## Bulk operations -/

theorem lt_longer_iff {m n k : Nat} : k < (if m < n then n else m) ↔ k < m ∨ k < n := by
  split
  · omega
  · omega

theorem lt_shorter_iff {m n k : Nat} : k < (if m < n then m else n) ↔ k < m ∧ k < n := by
  split
  · omega
  · omega

theorem getLsbD_mod {x y : Long} (h : x = y) (i : Nat) : x.getLsbD (i % 64) = y.getLsbD (i % 64) := by rw [h]

theorem addAll_modified (r : Registry) (hasListeners : Bool) (a b : List Long) :
    (addAll r hasListeners (some b) a).modified = true ↔
      a.length < b.length ∨ ∃ i, has b i = true ∧ has a i = false := by
  rw [addAll]
  dsimp only
  rw [List.any_eq_true]
  constructor
  · rintro ⟨n, hn, hmod⟩
    have hn := List.mem_range.mp hn
    split at hmod
    · rename_i hboth
      rw [word_tabulate, if_pos hn, if_pos hboth] at hmod
      refine Or.inr ?_
      by_contra hnone
      refine of_decide_eq_true hmod (BitVec.eq_of_getLsbD_eq (fun k hk => ?_))
      rw [BitVec.getLsbD_or, ← has_word hk, ← has_word hk]
      by_cases hbk : has b (n * 64 + k) = true
      · have hak : has a (n * 64 + k) = true := by
          by_contra hak
          exact hnone ⟨_, hbk, by simpa using hak⟩
        rw [hak]
        rfl
      · rw [Bool.eq_false_iff.mpr hbk, Bool.or_false]
    · split at hmod
      · cases hmod
      · left
        rw [lt_longer_iff] at hn
        omega
  · rintro (hlt | ⟨i, hbi, hai⟩)
    · refine ⟨a.length, ?_, ?_⟩
      · rw [List.mem_range, if_pos hlt]
        exact hlt
      · rw [if_neg (by omega), if_neg (by omega)]
    · have hib := lt_of_has hbi
      have hmax : i / 64 < (if a.length < b.length then b.length else a.length) :=
        lt_longer_iff.mpr (Or.inr hib)
      refine ⟨i / 64, List.mem_range.mpr hmax, ?_⟩
      split
      · rename_i hboth
        rw [word_tabulate, if_pos hmax, if_pos hboth]
        apply decide_eq_true
        intro heq
        have hbit := getLsbD_mod heq i
        rw [BitVec.getLsbD_or] at hbit
        change (has a i || has b i) = has a i at hbit
        rw [hai, hbi] at hbit
        cases hbit
      · rw [if_neg (by omega)]

theorem has_addAll (r : Registry) (hasListeners : Bool) (a b : List Long) (j : Nat) :
    has (addAll r hasListeners (some b) a).bits j = (has a j || has b j) := by
  by_cases hmod : (addAll r hasListeners (some b) a).modified = true
  · rw [addAll] at hmod ⊢
    dsimp only at hmod ⊢
    rw [if_pos hmod, has, word_tabulate]
    by_cases ha : j / 64 < a.length
    · rw [if_pos (lt_longer_iff.mpr (Or.inl ha))]
      by_cases hb : j / 64 < b.length
      · rw [if_pos ⟨ha, hb⟩, BitVec.getLsbD_or]
        rfl
      · rw [if_neg (fun h => hb h.2), if_pos ha]
        have hbj : has b j = false := by rw [has, word_of_le (by omega), BitVec.getLsbD_zero]
        rw [hbj, Bool.or_false]
        rfl
    · have haj : has a j = false := by rw [has, word_of_le (by omega), BitVec.getLsbD_zero]
      rw [haj, Bool.false_or]
      by_cases hb : j / 64 < b.length
      · rw [if_pos (lt_longer_iff.mpr (Or.inr hb)), if_neg (fun h => ha h.1), if_neg ha]
        rfl
      · rw [if_neg (by rw [lt_longer_iff]; omega), BitVec.getLsbD_zero, has, word_of_le (by omega),
          BitVec.getLsbD_zero]
  · have hbits : (addAll r hasListeners (some b) a).bits = a := by
      rw [addAll] at hmod ⊢
      dsimp only at hmod ⊢
      exact if_neg hmod
    rw [hbits]
    rw [addAll_modified, not_or] at hmod
    by_cases hb : has b j = true
    · have ha : has a j = true := by
        by_contra ha
        exact hmod.2 ⟨j, hb, by simpa using ha⟩
      rw [ha]
      rfl
    · rw [Bool.eq_false_iff.mpr hb, Bool.or_false]

theorem retainAll_modified (r : Registry) (hasListeners : Bool) (a b : List Long) :
    (retainAll r hasListeners (some b) a).modified = true ↔
      b.length < a.length ∨ ∃ i, has a i = true ∧ has b i = false := by
  rw [retainAll]
  dsimp only
  rw [Bool.or_eq_true, decide_eq_true_eq, List.any_eq_true]
  constructor
  · rintro (hlt | ⟨n, hn, hmod⟩)
    · left
      by_contra hle
      have hshort : ∀ k, k < a.length → k < (if a.length < b.length then a.length else b.length) :=
        fun k hk => lt_shorter_iff.mpr ⟨hk, by omega⟩
      exact Nat.lt_irrefl _ (hshort _ hlt)
    · have hn := List.mem_range.mp hn
      rw [word_tabulate, if_pos hn] at hmod
      refine Or.inr ?_
      by_contra hnone
      refine of_decide_eq_true hmod (BitVec.eq_of_getLsbD_eq (fun k hk => ?_))
      rw [BitVec.getLsbD_and, ← has_word hk, ← has_word hk]
      by_cases hak : has a (n * 64 + k) = true
      · have hbk : has b (n * 64 + k) = true := by
          by_contra hbk
          exact hnone ⟨_, hak, by simpa using hbk⟩
        rw [hbk, Bool.and_true]
      · rw [Bool.eq_false_iff.mpr hak, Bool.false_and]
  · rintro (hlt | ⟨i, hai, hbi⟩)
    · left
      rw [if_neg (by omega)]
      exact hlt
    · have hia := lt_of_has hai
      by_cases hmax : i / 64 < (if a.length < b.length then a.length else b.length)
      · refine Or.inr ⟨i / 64, List.mem_range.mpr hmax, ?_⟩
        rw [word_tabulate, if_pos hmax]
        apply decide_eq_true
        intro heq
        have hbit := getLsbD_mod heq i
        rw [BitVec.getLsbD_and] at hbit
        change (has a i && has b i) = has a i at hbit
        rw [hai, hbi] at hbit
        cases hbit
      · refine Or.inl (Nat.lt_of_le_of_lt (Nat.le_of_not_lt hmax) hia)

theorem has_retainAll (r : Registry) (hasListeners : Bool) (a b : List Long) (j : Nat) :
    has (retainAll r hasListeners (some b) a).bits j = (has a j && has b j) := by
  by_cases hmod : (retainAll r hasListeners (some b) a).modified = true
  · rw [retainAll] at hmod ⊢
    dsimp only at hmod ⊢
    rw [if_pos hmod, has_emptied, has, word_tabulate]
    by_cases hmax : j / 64 < (if a.length < b.length then a.length else b.length)
    · rw [if_pos hmax, BitVec.getLsbD_and]
      rfl
    · rw [if_neg hmax, BitVec.getLsbD_zero]
      rw [lt_shorter_iff] at hmax
      by_cases hb : b.length ≤ j / 64
      · rw [has, has, word_of_le hb, BitVec.getLsbD_zero, Bool.and_false]
      · rw [has, has, @word_of_le _ a _ (by omega), BitVec.getLsbD_zero, Bool.false_and]
  · have hbits : (retainAll r hasListeners (some b) a).bits = a := by
      rw [retainAll] at hmod ⊢
      dsimp only at hmod ⊢
      exact if_neg hmod
    rw [hbits]
    rw [retainAll_modified, not_or] at hmod
    by_cases ha : has a j = true
    · have hb : has b j = true := by
        by_contra hb
        exact hmod.2 ⟨j, ha, by simpa using hb⟩
      rw [hb, Bool.and_true]
    · rw [Bool.eq_false_iff.mpr ha, Bool.false_and]

theorem removeAll_modified (r : Registry) (hasListeners : Bool) (a b : List Long) :
    (removeAll r hasListeners (some b) a).modified = true ↔ ∃ i, has a i = true ∧ has b i = true := by
  rw [removeAll]
  dsimp only
  rw [List.any_eq_true]
  constructor
  · rintro ⟨n, hn, hmod⟩
    have hn := List.mem_range.mp hn
    rw [word_tabulate, if_pos hn] at hmod
    by_contra hnone
    refine of_decide_eq_true hmod (BitVec.eq_of_getLsbD_eq (fun k hk => ?_))
    rw [BitVec.getLsbD_and, BitVec.getLsbD_not, ← has_word hk, ← has_word hk]
    by_cases hak : has a (n * 64 + k) = true
    · have hbk : has b (n * 64 + k) = false := by
        by_contra hbk
        exact hnone ⟨_, hak, by simpa using hbk⟩
      rw [hbk]
      simp [hk]
    · rw [Bool.eq_false_iff.mpr hak, Bool.false_and]
  · rintro ⟨i, hai, hbi⟩
    have hia := lt_of_has hai
    have hib := lt_of_has hbi
    have hmax : i / 64 < (if a.length < b.length then a.length else b.length) :=
      lt_shorter_iff.mpr ⟨hia, hib⟩
    refine ⟨i / 64, List.mem_range.mpr hmax, ?_⟩
    rw [word_tabulate, if_pos hmax]
    apply decide_eq_true
    intro heq
    have hbit := getLsbD_mod heq i
    rw [BitVec.getLsbD_and, BitVec.getLsbD_not] at hbit
    change (has a i && (decide (i % 64 < 64) && !has b i)) = has a i at hbit
    rw [hai, hbi] at hbit
    simp at hbit

theorem has_removeAll (r : Registry) (hasListeners : Bool) (a b : List Long) (j : Nat) :
    has (removeAll r hasListeners (some b) a).bits j = true ↔
      has a j = true ∧ has b j = false ∧
        ((∀ i, has a i = true → has b i = false) ∨ j / 64 < b.length) := by
  by_cases hmod : (removeAll r hasListeners (some b) a).modified = true
  · have hcommon := (removeAll_modified r hasListeners a b).mp hmod
    rw [removeAll] at hmod ⊢
    dsimp only at hmod ⊢
    rw [if_pos hmod, has_emptied, has, word_tabulate]
    have hnot : ¬∀ i, has a i = true → has b i = false := by
      intro hall
      obtain ⟨i, hai, hbi⟩ := hcommon
      rw [hall i hai] at hbi
      cases hbi
    by_cases hmax : j / 64 < (if a.length < b.length then a.length else b.length)
    · have hb := (lt_shorter_iff.mp hmax).2
      rw [if_pos hmax, BitVec.getLsbD_and, BitVec.getLsbD_not]
      change (has a j && (decide (j % 64 < 64) && !has b j)) = true ↔ _
      simp [Nat.mod_lt j (show 64 > 0 by decide), hb]
    · rw [if_neg hmax, BitVec.getLsbD_zero]
      constructor
      · intro h
        cases h
      · rintro ⟨ha, -, h⟩
        exact absurd (lt_shorter_iff.mpr ⟨lt_of_has ha, h.resolve_left hnot⟩) hmax
  · have hbits : (removeAll r hasListeners (some b) a).bits = a := by
      rw [removeAll] at hmod ⊢
      dsimp only at hmod ⊢
      exact if_neg hmod
    rw [hbits]
    rw [removeAll_modified] at hmod
    have hall : ∀ i, has a i = true → has b i = false := by
      intro i hai
      by_contra hbi
      exact hmod ⟨i, hai, by simpa using hbi⟩
    exact ⟨fun h => ⟨h, hall j h, Or.inl hall⟩, fun h => h.1⟩

/-! ## Set algebra -/

theorem has_getIndex_register {r : Registry} {bits : List Long} (h : Registered r bits) (x y : String) :
    has bits ((r.register x).getIndex y) = has bits (r.getIndex y) := by
  by_cases hy : y ∈ r.names ∨ y = x
  · rw [Registry.getIndex_register x hy]
  · rw [not_or] at hy
    have hindex : r.getIndex y = r.names.length := List.idxOf_eq_length hy.1
    have hregistered : (r.register x).getIndex y = (r.register x).names.length := by
      apply List.idxOf_eq_length
      rw [Registry.register_names]
      split
      · exact hy.1
      · simp [hy.1, hy.2]
    rw [hindex, hregistered, h.has_false (Nat.le_refl _), h.has_false (Registry.length_le_register r x)]

theorem getIndex_register_eq_iff (r : Registry) (x y : String) :
    (r.register x).getIndex y = r.getIndex x ↔ y = x := by
  rw [← Registry.getIndex_register x (Or.inr rfl)]
  constructor
  · exact Registry.getIndex_inj (r.mem_register x)
  · rintro rfl
    rfl

theorem contains_add {r : Registry} {bits : List Long} (h : Registered r bits) (hasListeners : Bool)
    (x y : String) :
    contains (r.register x) (some y) (add r hasListeners (some x) bits).bits = true ↔
      contains r (some y) bits = true ∨ y = x := by
  rw [contains_some, contains_some, has_add, has_getIndex_register h, Bool.or_eq_true, decide_eq_true_eq,
    getIndex_register_eq_iff]

theorem contains_remove {r : Registry} {bits : List Long} (h : Registered r bits) (hasListeners : Bool)
    (x y : String) :
    contains (r.register x) (some y) (remove r hasListeners (some x) bits).bits = true ↔
      contains r (some y) bits = true ∧ y ≠ x := by
  rw [contains_some, contains_some, has_remove, has_getIndex_register h, Bool.and_eq_true, decide_eq_true_eq,
    Ne, getIndex_register_eq_iff]

theorem forall_has_iff {r : Registry} {bits : List Long} (h : Registered r bits) {P : Nat → Prop} :
    (∀ i, has bits i = true → P i) ↔ ∀ y, contains r (some y) bits = true → P (r.getIndex y) := by
  constructor
  · intro hall y hy
    rw [contains_some] at hy
    exact hall _ hy
  · intro hall i hi
    obtain ⟨y, hy⟩ := Registry.exists_getT (h i hi)
    have hindex := Registry.getIndex_of_getT hy
    rw [← hindex]
    apply hall
    rw [contains_some, hindex]
    exact hi

end BitSet

/-! ## Elements of masks -/

namespace BitSet

theorem elements_eq (r : Registry) (masks : List Long) : elements r masks = (members masks).filterMap r.getT := by
  rw [elements, members, List.filterMap_flatMap]
  apply congrArg (fun f => (List.range masks.length).flatMap f)
  funext n
  rw [List.filterMap_map, List.filterMap_filter]
  apply List.filterMap_congr
  intro b hb
  have hbit : (1#64 <<< b &&& word masks n = 1#64 <<< b) ↔ (word masks n).getLsbD b = true := by
    rw [BitVec.and_comm]
    exact and_bit_eq _ (List.mem_range.mp hb)
  by_cases h : (word masks n).getLsbD b = true
  · rw [if_pos (hbit.mpr h), if_pos h]
    rfl
  · rw [if_neg (fun hand => h (hbit.mp hand)), if_neg h]

theorem mem_elements {r : Registry} {masks : List Long} (h : Registered r masks) {y : String} :
    y ∈ elements r masks ↔ has masks (r.getIndex y) = true := by
  rw [elements_eq, List.mem_filterMap]
  constructor
  · rintro ⟨i, hi, hy⟩
    rw [Registry.getIndex_of_getT hy]
    exact (mem_members (by decide)).mp hi
  · intro hy
    exact ⟨_, (mem_members (by decide)).mpr hy, Registry.getT_getIndex (h _ hy)⟩

theorem elements_nodup (r : Registry) (masks : List Long) : (elements r masks).Nodup := by
  rw [elements_eq]
  apply (members_nodup masks).filterMap
  intro i j y hi hj
  rw [← Registry.getIndex_of_getT hi, ← Registry.getIndex_of_getT hj]

theorem length_members (masks : List Long) : (members masks).length = size masks := by
  have hwords : (List.range masks.length).map (word masks) = masks := by
    apply List.ext_getElem (by simp)
    intro k h1 h2
    rw [List.getElem_map, List.getElem_range, word_of_lt h2]
  have hcount : (fun n => (((List.range 64).filter (fun b => (word masks n).getLsbD b)).map
      (fun b => n * 64 + b)).length) = bitCount ∘ word masks := by
    funext n
    rw [List.length_map, ← List.countP_eq_length_filter]
    rfl
  rw [members, List.length_flatMap, hcount, ← List.map_map, hwords]
  rfl

theorem length_elements {r : Registry} {masks : List Long} (h : Registered r masks) :
    (elements r masks).length = size masks := by
  have hall : ∀ i ∈ members masks, (r.getT i).isSome = true := by
    intro i hi
    obtain ⟨t, ht⟩ := Registry.exists_getT (h i ((mem_members (by decide)).mp hi))
    rw [ht]
    rfl
  rw [elements_eq, ← length_members, List.length_filterMap_eq_countP, List.countP_eq_length]
  exact hall

end BitSet

structure ElementSet (r : Registry) where
  bits : List Long
  registered : Registered r bits

def ElementSet.empty (r : Registry) : ElementSet r := ⟨[], fun i hi => by simp at hi⟩

namespace BitSet

/-- The members after each of the five mutations are those that set algebra
gives if and only if the two sets have no common member, or no member of the
first one lies behind the end of the array of the second one. -/
theorem set_algebra_iff (r : Registry) (a b : ElementSet r) (hasListeners : Bool) (x : String) :
    ((∀ y, contains (r.register x) (some y) (add r hasListeners (some x) a.bits).bits = true ↔
        contains r (some y) a.bits = true ∨ y = x) ∧
      (∀ y, contains (r.register x) (some y) (remove r hasListeners (some x) a.bits).bits = true ↔
        contains r (some y) a.bits = true ∧ y ≠ x) ∧
      (∀ y, contains r (some y) (addAll r hasListeners (some b.bits) a.bits).bits = true ↔
        contains r (some y) a.bits = true ∨ contains r (some y) b.bits = true) ∧
      (∀ y, contains r (some y) (retainAll r hasListeners (some b.bits) a.bits).bits = true ↔
        contains r (some y) a.bits = true ∧ contains r (some y) b.bits = true) ∧
      (∀ y, contains r (some y) (removeAll r hasListeners (some b.bits) a.bits).bits = true ↔
        contains r (some y) a.bits = true ∧ contains r (some y) b.bits = false)) ↔
    (∀ y, contains r (some y) a.bits = true → contains r (some y) b.bits = false) ∨
      ∀ y, contains r (some y) a.bits = true → r.getIndex y < 64 * b.bits.length := by
  have hindex : (∀ i, has a.bits i = true → has b.bits i = false) ↔
      ∀ y, contains r (some y) a.bits = true → contains r (some y) b.bits = false := by
    rw [forall_has_iff a.registered]
    simp only [contains_some]
  have hlength : ∀ n m : Nat, n / 64 < m ↔ n < 64 * m := fun n m => by omega
  constructor
  · rintro ⟨-, -, -, -, hremoveAll⟩
    by_contra hneither
    rw [not_or, ← hindex] at hneither
    apply hneither.2
    intro y hy
    by_contra hbehind
    have hb : contains r (some y) b.bits = false := by
      rw [contains_some, has, word_of_le (by omega), BitVec.getLsbD_zero]
    have hkept := (hremoveAll y).mpr ⟨hy, hb⟩
    rw [contains_some, has_removeAll, hlength] at hkept
    exact hbehind (hkept.2.2.resolve_left hneither.1)
  · intro hcond
    refine ⟨contains_add a.registered hasListeners x, contains_remove a.registered hasListeners x, ?_, ?_, ?_⟩
    · intro y
      rw [contains_some, contains_some, contains_some, has_addAll, Bool.or_eq_true]
    · intro y
      rw [contains_some, contains_some, contains_some, has_retainAll, Bool.and_eq_true]
    · intro y
      rw [contains_some, contains_some, contains_some, has_removeAll, hindex]
      constructor
      · exact fun h => ⟨h.1, h.2.1⟩
      · intro h
        refine ⟨h.1, h.2, hcond.imp id (fun hshort => ?_)⟩
        rw [hlength]
        apply hshort
        rw [contains_some]
        exact h.1

end BitSet

/-- Names of the form `a…a`, as many as needed. -/
def Registry.numbered (n : Nat) : Registry :=
  ⟨(List.range n).map (fun k => String.ofList (List.replicate k 'a')), by
    apply List.nodup_range.map
    intro j k hjk
    have hlist := congrArg (fun s => s.toList.length) hjk
    simpa using hlist⟩

/-- The set of the elements 0 and 64 without the set of the element 0. -/
theorem removeAll_drops_the_second_word :
    let r := Registry.numbered 65
    let a : List Long := [1#64, 1#64]
    let b : List Long := [1#64]
    let y := String.ofList (List.replicate 64 'a')
    BitSet.contains r (some y) a = true ∧ BitSet.contains r (some y) b = false ∧
      BitSet.contains r (some y) (BitSet.removeAll r false (some b) a).bits = false := by
  intro r a b y
  have hindex : r.getIndex y = 64 := Registry.getIndex_of_getT (by
    change ((List.range 65).map (fun k => String.ofList (List.replicate k 'a')))[64]? = _
    rw [List.getElem?_map, List.getElem?_range (by decide)]
    rfl)
  rw [BitSet.contains_some, BitSet.contains_some, BitSet.contains_some, hindex]
  decide

end OpenJfx.Css
