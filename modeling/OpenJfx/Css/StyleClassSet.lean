import OpenJfx.Css.BitSetIterator

/-! # `StyleClassSet.toArray`

`toArray` counts the words it reads and the slots it writes with one variable; it
is right when every word has exactly one member.  With the iterator this is all
the ways to enumerate a set. -/
set_option autoImplicit false
namespace OpenJfx.Css
open OpenJfx.Lib OpenJfx.Lib.WordSet

namespace BitSet

/-! ## `toArray` -/

/-- The loop over the bits of one word; it moves the index it reads. -/
def storeBits (r : Registry) (state : Long) : List Nat → Nat × List (Option String) →
    Except Exn (Nat × List (Option String))
  | [], s => .ok s
  | b :: rest, (index, a) =>
      if state &&& 1#64 <<< b = 1#64 <<< b then do
        -- an index that overflows is negative and outside the table as well
        let a ← writeAt a index (r.getT (index * 64 + b))
        storeBits r state rest (index + 1, a)
      else storeBits r state rest (index, a)

/-- The loop over the words; `none` when it takes more turns than the first number. -/
def storeWords (r : Registry) (bits : List Long) : Nat → Nat × List (Option String) →
    Option (Except Exn (List (Option String)))
  | 0, _ => none
  | turns + 1, (index, a) =>
      if index < bits.length then
        match storeBits r (word bits index) (List.range 64) (index, a) with
        | .error e => some (.error e)
        | .ok s => storeWords r bits turns s
      else some (.ok a)

/-- `toArray(T[])`. -/
def toArrayInto (r : Registry) (bits : List Long) (turns : Nat) (a : List (Option String)) :
    Option (Except Exn (List (Option String))) :=
  storeWords r bits turns (0, if a.length < size bits then List.replicate (size bits) none else a)

def toArray (r : Registry) (bits : List Long) (turns : Nat) : Option (Except Exn (List (Option String))) :=
  toArrayInto r bits turns (List.replicate (size bits) none)

/-- The call returns an array that begins with the members. -/
def Lists (r : Registry) (bits : List Long) (call : Nat → Option (Except Exn (List (Option String)))) : Prop :=
  ∃ turns a, call turns = some (.ok a) ∧ (a.take (size bits)).Perm ((elements r bits).map some)

/-! ## Words with one member -/

theorem test_iff {state : Long} {b : Nat} (hb : b < 64) :
    (state &&& 1#64 <<< b = 1#64 <<< b) ↔ state.getLsbD b = true := and_bit_eq state hb

theorem storeBits_none {r : Registry} {state : Long} {bs : List Nat} (hbs : ∀ b ∈ bs, b < 64)
    (h : bs.filter (fun b => state.getLsbD b) = []) (s : Nat × List (Option String)) :
    storeBits r state bs s = .ok s := by
  induction bs with
  | nil => rfl
  | cons b bs ih =>
    have hb : ¬state.getLsbD b = true := List.filter_eq_nil_iff.mp h b List.mem_cons_self
    rw [List.filter_cons_of_neg hb] at h
    rw [storeBits, if_neg (fun htest => hb ((test_iff (hbs b List.mem_cons_self)).mp htest))]
    exact ih (fun c hc => hbs c (List.mem_cons_of_mem b hc)) h

theorem storeBits_single {r : Registry} {state : Long} {bs : List Nat} (hbs : ∀ b ∈ bs, b < 64) {m : Nat}
    (h : bs.filter (fun b => state.getLsbD b) = [m]) {index : Nat} {a : List (Option String)}
    (hindex : index < a.length) :
    storeBits r state bs (index, a) = .ok (index + 1, a.set index (r.getT (index * 64 + m))) := by
  induction bs with
  | nil => cases h
  | cons b bs ih =>
    have hrest : ∀ c ∈ bs, c < 64 := fun c hc => hbs c (List.mem_cons_of_mem b hc)
    by_cases hb : state.getLsbD b = true
    · rw [List.filter_cons_of_pos hb] at h
      obtain ⟨rfl, hnone⟩ := List.cons.inj h
      rw [storeBits, if_pos ((test_iff (hbs b List.mem_cons_self)).mpr hb), writeAt_natCast a index _ hindex]
      exact storeBits_none hrest hnone _
    · rw [List.filter_cons_of_neg hb] at h
      rw [storeBits, if_neg (fun htest => hb ((test_iff (hbs b List.mem_cons_self)).mp htest))]
      exact ih hrest h

/-- The member of a word that has one. -/
def theBit (state : Long) : Nat := ((List.range 64).filter (fun b => state.getLsbD b)).headD 0

theorem filter_of_single {state : Long} (h : bitCount state = 1) :
    (List.range 64).filter (fun b => state.getLsbD b) = [theBit state] := by
  rw [bitCount, List.countP_eq_length_filter] at h
  obtain ⟨m, hm⟩ := List.length_eq_one_iff.mp h
  rw [theBit, hm]
  rfl

theorem members_of_single {bits : List Long} (h : ∀ mask ∈ bits, bitCount mask = 1) :
    members bits = (List.range bits.length).map (fun n => n * 64 + theBit (word bits n)) := by
  rw [members, List.map_eq_flatMap]
  apply List.flatMap_congr
  intro n hn
  have hlt := List.mem_range.mp hn
  have hword : bitCount (word bits n) = 1 := by
    rw [word_of_lt hlt]
    exact h _ (List.getElem_mem hlt)
  rw [filter_of_single hword]
  rfl

theorem storeWords_of_single {r : Registry} {bits : List Long} (h : ∀ mask ∈ bits, bitCount mask = 1) {turns : Nat}
    {index : Nat} {a : List (Option String)} (hlength : bits.length ≤ a.length) (hindex : index ≤ bits.length)
    (hturns : bits.length - index < turns) :
    ∃ a', storeWords r bits turns (index, a) = some (.ok a') ∧ a'.length = a.length ∧
      (∀ i, i < index → a'[i]? = a[i]?) ∧
      ∀ i, index ≤ i → i < bits.length → a'[i]? = some (r.getT (i * 64 + theBit (word bits i))) := by
  induction turns generalizing index a with
  | zero => omega
  | succ turns ih =>
    by_cases hlt : index < bits.length
    · have hword : bitCount (word bits index) = 1 := by
        rw [word_of_lt hlt]
        exact h _ (List.getElem_mem hlt)
      have hstored := @storeBits_single r (word bits index) (List.range 64) (fun b hb => List.mem_range.mp hb) _
        (filter_of_single hword) index a (by omega)
      obtain ⟨a', hwords, hlength', hbefore, hbehind⟩ :=
        @ih (index + 1) (a.set index (r.getT (index * 64 + theBit (word bits index))))
          (by rw [List.length_set]; exact hlength) (by omega) (by omega)
      refine ⟨a', ?_, ?_, ?_, ?_⟩
      · rw [storeWords, if_pos hlt, hstored]
        exact hwords
      · rw [hlength', List.length_set]
      · intro i hi
        rw [hbefore i (by omega), List.getElem?_set_ne (by omega)]
      · intro i hle hi
        by_cases hhere : i = index
        · subst hhere
          rw [hbefore i (by omega), List.getElem?_set_self (by omega)]
        · exact hbehind i (by omega) hi
    · refine ⟨a, ?_, rfl, fun _ _ => rfl, fun i hle hi => by omega⟩
      rw [storeWords, if_neg hlt]

theorem size_of_single {bits : List Long} (h : ∀ mask ∈ bits, bitCount mask = 1) : size bits = bits.length := by
  have hmap : bits.map bitCount = bits.map (fun _ => 1) := List.map_congr_left h
  rw [size, hmap, List.map_const', List.sum_replicate_nat, Nat.mul_one]

theorem lists_of_single {r : Registry} {bits : List Long} (hr : Registered r bits)
    (h : ∀ mask ∈ bits, bitCount mask = 1) (a : List (Option String)) :
    Lists r bits (fun turns => toArrayInto r bits turns a) := by
  have hsize := size_of_single h
  obtain ⟨a', hwords, hlength, -, hslots⟩ := @storeWords_of_single r bits h (bits.length + 1) 0
    (if a.length < size bits then List.replicate (size bits) none else a)
    (by split
        · rw [List.length_replicate]
          omega
        · omega) (by omega) (by omega)
  refine ⟨bits.length + 1, a', hwords, ?_⟩
  have hfits : bits.length ≤ a'.length := by
    rw [hlength]
    split
    · rw [List.length_replicate]
      omega
    · omega
  have heq : a'.take (size bits) = (elements r bits).map some := by
    rw [elements_some hr, members_of_single h, hsize]
    apply List.ext_getElem?
    intro i
    rw [List.getElem?_take, List.getElem?_map, List.getElem?_map]
    by_cases hi : i < bits.length
    · rw [if_pos hi, hslots i (by omega) hi, List.getElem?_range hi]
      rfl
    · rw [if_neg hi, List.getElem?_eq_none (by rw [List.length_range]; omega)]
      rfl
  rw [heq]

/-! ## Arrays that come out right -/

/-- While `toArray()` runs: the slots below the index hold what the table has for a
bit of the word of the same number, the others null. -/
structure Filled (r : Registry) (n index : Nat) (a : List (Option String)) : Prop where
  length : a.length = n
  below : ∀ j, j < index → ∃ b, b < 64 ∧ a[j]? = some (r.getT (j * 64 + b))
  above : ∀ j, index ≤ j → j < n → a[j]? = some none

theorem Filled.write {r : Registry} {n index : Nat} {a a' : List (Option String)} (h : Filled r n index a) {b : Nat}
    (hb : b < 64) (hwrite : writeAt a (index : Int) (r.getT (index * 64 + b)) = .ok a') :
    Filled r n (index + 1) a' := by
  have hindex : index < a.length := by
    by_contra hnot
    change (if index < a.length then Except.ok (a.set index _) else Except.error _) = _ at hwrite
    rw [if_neg hnot] at hwrite
    cases hwrite
  rw [writeAt_natCast a index _ hindex, Except.ok.injEq] at hwrite
  subst hwrite
  refine ⟨?_, ?_, ?_⟩
  · rw [List.length_set, h.length]
  · intro j hj
    by_cases hhere : j = index
    · subst hhere
      exact ⟨b, hb, List.getElem?_set_self hindex⟩
    · rw [List.getElem?_set_ne (by omega)]
      exact h.below j (by omega)
  · intro j hj hjn
    rw [List.getElem?_set_ne (by omega)]
    exact h.above j (by omega) hjn

theorem Filled.storeBits {r : Registry} {n index : Nat} {a : List (Option String)} (h : Filled r n index a)
    {state : Long} {bs : List Nat} (hbs : ∀ b ∈ bs, b < 64) {s : Nat × List (Option String)}
    (hs : BitSet.storeBits r state bs (index, a) = .ok s) : Filled r n s.1 s.2 := by
  induction bs generalizing index a with
  | nil =>
    rw [BitSet.storeBits, Except.ok.injEq] at hs
    rw [← hs]
    exact h
  | cons b bs ih =>
    have hrest : ∀ c ∈ bs, c < 64 := fun c hc => hbs c (List.mem_cons_of_mem b hc)
    rw [BitSet.storeBits] at hs
    split at hs
    · cases hwrite : writeAt a (index : Int) (r.getT (index * 64 + b)) with
      | error e =>
        rw [hwrite] at hs
        cases hs
      | ok a' =>
        rw [hwrite] at hs
        exact ih (h.write (hbs b List.mem_cons_self) hwrite) hrest hs
    · exact ih h hrest hs

theorem Filled.storeWords {r : Registry} {bits : List Long} {n turns index : Nat} {a a' : List (Option String)}
    (h : Filled r n index a) (hwords : BitSet.storeWords r bits turns (index, a) = some (.ok a')) :
    ∃ last, bits.length ≤ last ∧ Filled r n last a' := by
  induction turns generalizing index a with
  | zero => cases hwords
  | succ turns ih =>
    rw [BitSet.storeWords] at hwords
    split at hwords
    · split at hwords
      · cases hwords
      · rename_i s hs
        exact ih (h.storeBits (fun b hb => List.mem_range.mp hb) hs) hwords
    · rename_i hend
      rw [Option.some.injEq, Except.ok.injEq] at hwords
      rw [← hwords]
      exact ⟨index, Nat.le_of_not_lt hend, h⟩

theorem single_of_lists {r : Registry} {bits : List Long} (hr : Registered r bits)
    (h : Lists r bits (toArray r bits)) : ∀ mask ∈ bits, bitCount mask = 1 := by
  obtain ⟨turns, a, hcall, hperm⟩ := h
  rw [toArray, toArrayInto, if_neg (by rw [List.length_replicate]; omega)] at hcall
  have hstart : Filled r (size bits) 0 (List.replicate (size bits) none) :=
    ⟨List.length_replicate, fun j hj => absurd hj (Nat.not_lt_zero j), fun j _ hj => List.getElem?_replicate_of_lt hj⟩
  obtain ⟨last, hlast, hfilled⟩ := hstart.storeWords hcall
  rw [List.take_of_length_le (Nat.le_of_eq hfilled.length)] at hperm
  -- a slot holds the name of a member
  have hslot : ∀ j, j < size bits → ∃ b, b < 64 ∧ has bits (j * 64 + b) = true := by
    intro j hj
    have hja : j < a.length := by
      rw [hfilled.length]
      exact hj
    obtain ⟨t, ht, hname⟩ := List.mem_map.mp (hperm.mem_iff.mp (List.getElem_mem hja))
    have hvalue : a[j]? = some (some t) := by rw [List.getElem?_eq_getElem hja, hname]
    by_cases hjlast : j < last
    · obtain ⟨b, hb, hget⟩ := hfilled.below j hjlast
      rw [hvalue, Option.some.injEq] at hget
      refine ⟨b, hb, ?_⟩
      rw [← Registry.getIndex_of_getT hget.symm]
      exact (mem_elements hr).mp ht
    · have hnull := hfilled.above j (Nat.le_of_not_lt hjlast) hj
      rw [hvalue] at hnull
      cases hnull
  have hfew : size bits ≤ bits.length := by
    by_contra hmore
    obtain ⟨b, hb, hhas⟩ := hslot bits.length (by omega)
    have hword := lt_of_has hhas
    omega
  have hmany : bits.length ≤ size bits := by
    by_contra hless
    obtain ⟨b, -, hget⟩ := hfilled.below (size bits) (by omega)
    rw [List.getElem?_eq_none (Nat.le_of_eq hfilled.length)] at hget
    cases hget
  have hcounts : ∀ n ∈ bits.map bitCount, 0 < n := by
    intro n hn
    obtain ⟨mask, hmask, rfl⟩ := List.mem_map.mp hn
    obtain ⟨j, hj, rfl⟩ := List.mem_iff_getElem.mp hmask
    obtain ⟨b, hb, hhas⟩ := hslot j (by omega)
    apply Nat.pos_of_ne_zero
    intro hzero
    rw [has_word hb, word_of_lt hj, (bitCount_eq_zero_iff _).mp hzero, BitVec.getLsbD_zero] at hhas
    cases hhas
  obtain ⟨hleast, hone⟩ := all_one_of_sum hcounts
  rw [List.length_map] at hleast hone
  intro mask hmask
  exact hone (Nat.le_antisymm hfew hleast) _ (List.mem_map_of_mem hmask)

/-! ## The enumeration -/

/-- The iterator keeps its promises in the calls that are in step and in no
others; `toArray` lists the members of a set, whatever array it gets, just if
every word of the set has exactly one member. -/
theorem enumerates_iff (r : Registry) (s : StyleClassSet r) :
    (∀ calls, (∃ as, answers r s.bits calls Cursor.start = some as ∧ Conforms (elements r s.bits) calls as) ↔
      InStep (size s.bits) s.bits.length 0 0 0 calls) ∧
    (Lists r s.bits (toArray r s.bits) ↔ ∀ mask ∈ s.bits, bitCount mask = 1) ∧
    ((∀ a, Lists r s.bits (fun turns => toArrayInto r s.bits turns a)) ↔ ∀ mask ∈ s.bits, bitCount mask = 1) := by
  refine ⟨?_, ?_, ?_⟩
  · intro calls
    have hlimit : s.bits.length = 0 ∨ 0 + max 64 s.bits.length ≤ (elements r s.bits).length + 2 ^ 31 := by
      have hshort := s.short
      omega
    have hstart := Progress.start (elements_nodup r s.bits)
    rw [conforms_iff s calls 0 0 0 _ Cursor.start (after_start s.bits) hstart hlimit, length_elements s.registered]
  · exact ⟨single_of_lists s.registered, fun h => lists_of_single s.registered h _⟩
  · exact ⟨fun h => single_of_lists s.registered (h _), lists_of_single s.registered⟩

theorem storeWords_of_zero (r : Registry) {bits : List Long} {index : Nat} (hlt : index < bits.length)
    (hzero : word bits index = 0#64) (turns : Nat) (a : List (Option String)) :
    storeWords r bits turns (index, a) = none := by
  induction turns with
  | zero => rfl
  | succ turns ih =>
    have hstored : storeBits r (word bits index) (List.range 64) (index, a) = .ok (index, a) := by
      apply storeBits_none (fun b hb => List.mem_range.mp hb)
      rw [hzero, List.filter_eq_nil_iff]
      intro b _
      simp
    rw [storeWords, if_pos hlt, hstored]
    exact ih

/-- The set of the element 0 denies its element at the second `hasNext` and has
null for a `next` without one; the array of the set of the element 64 is never
finished, and the array of two elements lacks the second one. -/
theorem enumeration_fails :
    let r : Registry := ⟨["a", "b"], by decide⟩
    (answers r [1#64] [Call.hasNext, Call.hasNext] Cursor.start = some [Answer.more true, Answer.more false] ∧
      ¬Conforms (elements r [1#64]) [Call.hasNext, Call.hasNext] [Answer.more true, Answer.more false]) ∧
    (answers r [1#64] [Call.next] Cursor.start = some [Answer.element none] ∧
      ¬Conforms (elements r [1#64]) [Call.next] [Answer.element none]) ∧
    (∀ turns, toArray (Registry.numbered 65) [0#64, 1#64] turns = none) ∧
    toArray r [3#64] 2 = some (.ok [some "a", none]) := by
  intro r
  have helements : elements r [1#64] = ["a"] := by decide +kernel
  refine ⟨⟨by decide +kernel, ?_⟩, ⟨by decide +kernel, ?_⟩, ?_, by decide +kernel⟩
  · rw [helements]
    rintro ⟨-, hdenied, -⟩
    cases hdenied
  · rw [helements]
    exact id
  · exact fun turns => storeWords_of_zero _ (by decide) rfl turns _

end BitSet

end OpenJfx.Css
