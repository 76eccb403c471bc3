import OpenJfx.Css.BitSetEquality
import OpenJfx.Lib.Java

/-! # `BitSet.iterator`

The iterator moves on inside `hasNext`, and `next` answers where the last move
ended; so an enumeration is right as long as the two calls keep step. -/
set_option autoImplicit false
namespace OpenJfx.Css
open OpenJfx.Lib OpenJfx.Lib.WordSet

/-- A set of style classes, whose array `add` never makes longer than the index
of a name asks for; an index is an `int`. -/
structure StyleClassSet (r : Registry) extends ElementSet r where
  short : bits.length ≤ 2 ^ 25

/-- `StyleClassSet.getStyleClass(int)`, `none` is null. -/
def getStyleClass (r : Registry) : Int → Option String
  | .ofNat index => r.getT index
  | .negSucc _ => none

namespace BitSet

/-! ## The iterator -/

structure Cursor where
  next : Int
  element : Int
  index : Int
deriving DecidableEq, Repr

def Cursor.start : Cursor := ⟨-1, 0, -1⟩

inductive Call where
  | hasNext
  | next
deriving DecidableEq, Repr

inductive Answer where
  | more (found : Bool)
  | element (t : Option String)
  | thrown (error : Exn)
deriving DecidableEq, Repr

/-- The loop of `hasNext`; `none` when it takes more turns than the first argument. -/
def scan (bits : List Long) : Nat → Cursor → Option (Answer × Cursor)
  | 0, _ => none
  | turns + 1, c =>
      let next := wrapInt (c.next + 1)
      let element := if next ≥ 64 then wrapInt (c.element + 1) else c.element
      if next ≥ 64 ∧ element ≥ bits.length then some (Answer.more false, ⟨next, element, c.index⟩)
      else
        let next := if next ≥ 64 then 0 else next
        match readAt bits element with
        | .error e => some (Answer.thrown e, ⟨next, element, c.index⟩)
        | .ok mask =>
            let bit : Long := 1#64 <<< (next % 64).toNat
            if bit &&& mask = bit then some (Answer.more true, ⟨next, element, wrapInt (64 * element + next)⟩)
            else scan bits turns ⟨next, element, c.index⟩

def Cursor.hasNext (bits : List Long) (c : Cursor) : Option (Answer × Cursor) :=
  if bits.length = 0 then some (Answer.more false, c)
  else scan bits (64 * bits.length + 1) c

/-- `next()`: the index is never refused, `getT` answers null outside the table. -/
def Cursor.answerNext (r : Registry) (c : Cursor) : Answer := Answer.element (getStyleClass r c.index)

def answer (r : Registry) (bits : List Long) : Call → Cursor → Option (Answer × Cursor)
  | .hasNext, c => c.hasNext bits
  | .next, c => some (c.answerNext r, c)

def answers (r : Registry) (bits : List Long) : List Call → Cursor → Option (List Answer)
  | [], _ => some []
  | call :: rest, c => do
      let (a, c) ← answer r bits call c
      let as ← answers r bits rest c
      pure (a :: as)

/-- What `java.util.Iterator` promises for a list of calls when the elements of
`remaining` are still to come, in whatever order. -/
def Conforms : List String → List Call → List Answer → Prop
  | _, [], as => as = []
  | remaining, .hasNext :: calls, .more found :: as => found = !remaining.isEmpty ∧ Conforms remaining calls as
  | remaining, .next :: calls, .element (some t) :: as => t ∈ remaining ∧ Conforms (remaining.erase t) calls as
  | remaining, .next :: calls, .thrown .noSuchElement :: as => remaining = [] ∧ Conforms remaining calls as
  | _, _ :: _, _ => False

/-- `hasNext` has been called `h` times and `next` `d` times, `last` is the least of
the set's size and of what `h` was at the last call of `next`.  A call of
`hasNext` has to find as many members delivered as it has itself moved over; a
call of `next` has to come after a move.  At the end of the array the counters
move on at each call, until one of them overflows. -/
def InStep (size words : Nat) : Nat → Nat → Nat → List Call → Prop
  | _, _, _, [] => True
  | h, d, last, .hasNext :: calls =>
      (h < size ↔ d < size) ∧ (words = 0 ∨ h + max 64 words < size + 2 ^ 31) ∧
        InStep size words (h + 1) d last calls
  | h, d, last, .next :: calls =>
      last < min h size ∧ InStep size words h (d + 1) (min h size) calls

/-! ## Moving over the bits -/

/-- The cursor in front of bit `p`. -/
def At (bits : List Long) (p : Nat) (c : Cursor) : Prop :=
  ∃ (element passed : Nat), c.element = element ∧ c.next + 1 = passed ∧ element < bits.length ∧ passed ≤ 64 ∧
    p = 64 * element + passed

/-- The cursor that has just looked at bit `p`. -/
def Cursor.over (p : Nat) (index : Int) : Cursor := ⟨(p % 64 : Nat), (p / 64 : Nat), index⟩

theorem at_start {bits : List Long} (h : bits.length ≠ 0) : At bits 0 Cursor.start :=
  ⟨0, 0, rfl, rfl, by omega, by omega, rfl⟩

theorem at_over {bits : List Long} {p : Nat} (hp : p < 64 * bits.length) (index : Int) :
    At bits (p + 1) (Cursor.over p index) :=
  ⟨p / 64, p % 64 + 1, rfl, rfl, by omega, by omega, by omega⟩

theorem found_iff {bits : List Long} {p : Nat} (hp : p / 64 < bits.length) :
    (1#64 <<< (((p % 64 : Nat) : Int) % 64).toNat &&& bits[p / 64] = 1#64 <<< (((p % 64 : Nat) : Int) % 64).toNat) ↔
      has bits p = true := by
  have hbit : (((p % 64 : Nat) : Int) % 64).toNat = p % 64 := by omega
  rw [hbit, BitVec.and_comm, and_bit_eq _ (Nat.mod_lt p (by decide)), has, word_of_lt hp]

section Scan
variable {bits : List Long} {c : Cursor} {p : Nat}

theorem scan_turn (short : bits.length ≤ 2 ^ 25) (h : At bits p c) (hp : p < 64 * bits.length) (turns : Nat) :
    scan bits (turns + 1) c =
      if has bits p = true then some (Answer.more true, Cursor.over p p)
      else scan bits turns (Cursor.over p c.index) := by
  obtain ⟨element, passed, helement, hnext, hlt, hpassed, rfl⟩ := h
  have hword : (64 * element + passed) / 64 < bits.length := by omega
  have hread : readAt bits ((64 * element + passed) / 64 : Nat) = .ok bits[(64 * element + passed) / 64] :=
    readAt_natCast bits _ hword
  have hindex : wrapInt (64 * ((64 * element + passed) / 64 : Nat) + ((64 * element + passed) % 64 : Nat)) =
      (64 * element + passed : Nat) := by
    rw [wrapInt_of_lt (by omega) (by omega)]
    omega
  have hmoved : scan bits (turns + 1) c =
      match readAt bits ((64 * element + passed) / 64 : Nat) with
      | .error e => some (Answer.thrown e, Cursor.over (64 * element + passed) c.index)
      | .ok mask =>
        let bit : Long := 1#64 <<< ((((64 * element + passed) % 64 : Nat) : Int) % 64).toNat
        if bit &&& mask = bit then
          some (Answer.more true, Cursor.over (64 * element + passed)
            (wrapInt (64 * ((64 * element + passed) / 64 : Nat) + ((64 * element + passed) % 64 : Nat))))
        else scan bits turns (Cursor.over (64 * element + passed) c.index) := by
    rw [scan, hnext, helement]
    by_cases hend : passed = 64
    · have hdiv : (64 * element + passed) / 64 = element + 1 := by omega
      have hmod : (64 * element + passed) % 64 = 0 := by omega
      have hwrap : wrapInt ((element : Int) + 1) = (element + 1 : Nat) := by
        rw [wrapInt_of_lt (by omega) (by omega)]
        rfl
      have hpass : wrapInt (passed : Int) = 64 := by
        rw [wrapInt_of_lt (by omega) (by omega)]
        omega
      rw [hpass, hwrap, Cursor.over, Cursor.over, hdiv, hmod]
      simp only [ge_iff_le, Int.le_refl, if_true, true_and]
      rw [if_neg (by omega)]
      rfl
    · have hdiv : (64 * element + passed) / 64 = element := by omega
      have hmod : (64 * element + passed) % 64 = passed := by omega
      have hpass : wrapInt (passed : Int) = (passed : Nat) := wrapInt_of_lt (by omega) (by omega)
      have hbelow : ¬(passed : Int) ≥ 64 := by omega
      rw [hpass, Cursor.over, Cursor.over, hdiv, hmod]
      simp only [hbelow, false_and, if_false]
  rw [hmoved, hread, hindex]
  dsimp only
  by_cases hhas : has bits (64 * element + passed) = true
  · rw [if_pos ((found_iff hword).mpr hhas), if_pos hhas]
  · rw [if_neg (fun hfound => hhas ((found_iff hword).mp hfound)), if_neg hhas]

theorem scan_found (short : bits.length ≤ 2 ^ 25) {m : Nat} (hm : has bits m = true) (h : At bits p c) (hp : p ≤ m)
    (hbetween : ∀ j, p ≤ j → j < m → has bits j = false) {turns : Nat} (hturns : m - p < turns) :
    scan bits turns c = some (Answer.more true, Cursor.over m m) := by
  have hword := lt_of_has hm
  induction turns generalizing p c with
  | zero => omega
  | succ turns ih =>
    rw [scan_turn short h (by omega)]
    by_cases hhere : p = m
    · rw [hhere, if_pos hm]
    · rw [hbetween p (Nat.le_refl p) (by omega), if_neg Bool.false_ne_true]
      apply ih (at_over (by omega) c.index) (by omega) _ (by omega)
      exact fun j hj hjm => hbetween j (by omega) hjm

theorem scan_exhausted (short : bits.length ≤ 2 ^ 25) (h : At bits p c)
    (hbehind : ∀ j, p ≤ j → has bits j = false) {turns : Nat} (hturns : 64 * bits.length - p < turns) :
    scan bits turns c = some (Answer.more false, ⟨64, bits.length, c.index⟩) := by
  induction turns generalizing p c with
  | zero => omega
  | succ turns ih =>
    by_cases hp : p < 64 * bits.length
    · rw [scan_turn short h hp, hbehind p (Nat.le_refl p), if_neg Bool.false_ne_true]
      exact ih (at_over hp c.index) (fun j hj => hbehind j (by omega)) (by omega)
    · obtain ⟨element, passed, helement, hnext, hlt, hpassed, rfl⟩ := h
      have hpass : wrapInt (c.next + 1) = 64 := by
        rw [hnext, wrapInt_of_lt (by omega) (by omega)]
        omega
      have hwrap : wrapInt (c.element + 1) = bits.length := by
        rw [helement, wrapInt_of_lt (by omega) (by omega)]
        omega
      rw [scan, hpass, hwrap]
      exact if_pos ⟨Int.le_refl 64, Int.le_refl _⟩

end Scan

/-! ## The calls of `hasNext` -/

/-- The bit the iterator stands on after `h` calls of `hasNext`. -/
def standsOn (bits : List Long) (h : Nat) : Option Nat := ((members bits).take h).getLast?

def indexOf : Option Nat → Int
  | none => -1
  | some m => m

def passed : Option Nat → Nat
  | none => 0
  | some m => m + 1

/-- The cursor after `h` calls of `hasNext`, as long as no counter has overflowed. -/
structure After (bits : List Long) (h : Nat) (c : Cursor) : Prop where
  index : c.index = indexOf (standsOn bits h)
  within : h ≤ (members bits).length → bits.length ≠ 0 → At bits (passed (standsOn bits h)) c
  beyond : (members bits).length < h → bits.length ≠ 0 →
    c.next + (members bits).length = 63 + h ∧ c.element + 1 + (members bits).length = bits.length + h

theorem after_start (bits : List Long) : After bits 0 Cursor.start :=
  ⟨rfl, fun _ hne => at_start hne, fun h => absurd h (Nat.not_lt_zero _)⟩

theorem standsOn_succ {bits : List Long} {h : Nat} (hlt : h < (members bits).length) :
    standsOn bits (h + 1) = some (members bits)[h] := by
  rw [standsOn, List.take_succ_eq_append_getElem hlt, List.getLast?_concat]

theorem standsOn_of_le {bits : List Long} {h : Nat} (hle : (members bits).length ≤ h) :
    standsOn bits (h + 1) = standsOn bits h := by
  rw [standsOn, standsOn, List.take_of_length_le hle, List.take_of_length_le (by omega)]

theorem lt_passed_iff {bits : List Long} {h i : Nat} (hi : i < (members bits).length) :
    (members bits)[i] < passed (standsOn bits h) ↔ i < h := by
  induction h with
  | zero =>
    constructor
    · exact fun hlt => absurd hlt (Nat.not_lt_zero _)
    · exact fun hlt => absurd hlt (Nat.not_lt_zero _)
  | succ h ih =>
    by_cases hh : h < (members bits).length
    · rw [standsOn_succ hh, passed]
      rcases Nat.lt_trichotomy i h with hlt | heq | hgt
      · have hless := members_lt hh hlt
        omega
      · subst heq
        omega
      · have hless := members_lt hi hgt
        omega
    · rw [standsOn_of_le (by omega), ih]
      omega

section HasNext
variable {bits : List Long} {h : Nat} {c : Cursor}

theorem exists_member {j : Nat} (hj : has bits j = true) :
    ∃ (i : Nat) (hi : i < (members bits).length), (members bits)[i] = j :=
  List.mem_iff_getElem.mp ((mem_members (by decide)).mpr hj)

theorem hasNext_moves (short : bits.length ≤ 2 ^ 25) (hc : After bits h c) (hlt : h < (members bits).length) :
    ∃ c', c.hasNext bits = some (Answer.more true, c') ∧ After bits (h + 1) c' := by
  have hm : has bits (members bits)[h] = true := (mem_members (by decide)).mp (List.getElem_mem hlt)
  have hword := lt_of_has hm
  have hpassed : passed (standsOn bits h) ≤ (members bits)[h] := by
    have hnot := (@lt_passed_iff bits h h hlt).not
    omega
  have hbetween : ∀ j, passed (standsOn bits h) ≤ j → j < (members bits)[h] → has bits j = false := by
    intro j hj hjlt
    by_contra hhas
    obtain ⟨i, hi, rfl⟩ := exists_member (Bool.not_eq_false _ ▸ hhas : has bits j = true)
    have hih : ¬i < h := fun hih => absurd ((lt_passed_iff hi).mpr hih) (by omega)
    rcases Nat.lt_or_ge h i with hgt | hle
    · have hless := members_lt hi hgt
      omega
    · have heq : i = h := by omega
      subst heq
      omega
  refine ⟨Cursor.over (members bits)[h] (members bits)[h], ?_, ?_, ?_, ?_⟩
  · rw [Cursor.hasNext, if_neg (by omega)]
    exact scan_found short hm (hc.within (by omega) (by omega)) hpassed hbetween (by omega)
  · rw [standsOn_succ hlt]
    rfl
  · intro _ _
    rw [standsOn_succ hlt]
    exact at_over (by omega) _
  · intro hbeyond
    omega

theorem hasNext_ends (short : bits.length ≤ 2 ^ 25) (hc : After bits h c) (hle : (members bits).length ≤ h)
    (hlimit : bits.length = 0 ∨ h + max 64 bits.length < (members bits).length + 2 ^ 31) :
    ∃ c', c.hasNext bits = some (Answer.more false, c') ∧ After bits (h + 1) c' := by
  by_cases hempty : bits.length = 0
  · refine ⟨c, ?_, ?_, ?_, ?_⟩
    · rw [Cursor.hasNext, if_pos hempty]
    · rw [standsOn_of_le hle]
      exact hc.index
    · exact fun _ hne => absurd hempty hne
    · exact fun _ hne => absurd hempty hne
  · have hlimit := hlimit.resolve_left hempty
    rw [Cursor.hasNext, if_neg hempty]
    by_cases hfirst : h = (members bits).length
    · refine ⟨⟨64, bits.length, c.index⟩, ?_, ?_, ?_, ?_⟩
      · apply scan_exhausted short (hc.within (by omega) hempty) _ (by omega)
        intro j hj
        by_contra hhas
        obtain ⟨i, hi, rfl⟩ := exists_member (Bool.not_eq_false _ ▸ hhas : has bits j = true)
        have hpassed := (@lt_passed_iff bits h i hi).mpr (by omega)
        omega
      · rw [standsOn_of_le hle]
        exact hc.index
      · intro hwithin
        omega
      · intro _ _
        constructor
        · dsimp only
          omega
        · dsimp only
          omega
    · obtain ⟨hnext, helement⟩ := hc.beyond (by omega) hempty
      have hnext' : wrapInt (c.next + 1) = c.next + 1 := wrapInt_of_lt (by omega) (by omega)
      have helement' : wrapInt (c.element + 1) = c.element + 1 := wrapInt_of_lt (by omega) (by omega)
      refine ⟨⟨c.next + 1, c.element + 1, c.index⟩, ?_, ?_, ?_, ?_⟩
      · have hpast : c.next + 1 ≥ 64 := by omega
        rw [scan, hnext', helement']
        simp only [hpast, if_true, true_and]
        exact if_pos (by omega)
      · rw [standsOn_of_le hle]
        exact hc.index
      · intro hwithin
        omega
      · intro _ _
        constructor
        · dsimp only
          omega
        · dsimp only
          omega

theorem hasNext_overflows (short : bits.length ≤ 2 ^ 25) (hc : After bits h c) (hempty : bits.length ≠ 0)
    (hlimit : h + max 64 bits.length = (members bits).length + 2 ^ 31) :
    ∃ c', c.hasNext bits = some (Answer.thrown Exn.arrayIndexOutOfBounds, c') := by
  obtain ⟨hnext, helement⟩ := hc.beyond (by omega) hempty
  rw [Cursor.hasNext, if_neg hempty, scan]
  by_cases hcounter : c.next + 1 = 2 ^ 31
  · have hwrap : wrapInt (c.next + 1) = -2 ^ 31 := by
      rw [hcounter]
      decide
    have hread := @readAt_outside _ bits c.element (Or.inr (by omega))
    rw [hwrap]
    simp only [show ¬(-2 ^ 31 : Int) ≥ 64 by decide, false_and, if_false, hread]
    exact ⟨_, rfl⟩
  · have hwrap : wrapInt (c.next + 1) = c.next + 1 := wrapInt_of_lt (by omega) (by omega)
    have hpast : c.next + 1 ≥ 64 := by omega
    have hnegative : wrapInt (c.element + 1) < 0 := by
      rw [show c.element + 1 = 2 ^ 31 by omega]
      decide
    have hread := @readAt_outside _ bits (wrapInt (c.element + 1)) (Or.inl hnegative)
    rw [hwrap]
    simp only [hpast, if_true, true_and]
    rw [if_neg (by omega), hread]
    exact ⟨_, rfl⟩

end HasNext

/-! ## The names -/

theorem elements_some {r : Registry} {bits : List Long} (h : Registered r bits) :
    (elements r bits).map some = (members bits).map r.getT := by
  have hnames : ∀ ms : List Nat, (∀ i ∈ ms, i < r.names.length) →
      (ms.filterMap r.getT).map some = ms.map r.getT := by
    intro ms
    induction ms with
    | nil => exact fun _ => rfl
    | cons m ms ih =>
      intro hms
      obtain ⟨t, ht⟩ := Registry.exists_getT (hms m List.mem_cons_self)
      rw [List.filterMap_cons_some ht, List.map_cons, List.map_cons, ht, ih]
      exact fun i hi => hms i (List.mem_cons_of_mem m hi)
  rw [elements_eq]
  exact hnames _ (fun i hi => h i ((mem_members (by decide)).mp hi))

theorem answerNext_eq {r : Registry} {bits : List Long} {h : Nat} {c : Cursor} (hr : Registered r bits)
    (hc : After bits h c) : c.answerNext r = Answer.element ((elements r bits).take h).getLast? := by
  have hname : getStyleClass r (indexOf (standsOn bits h)) = ((elements r bits).take h).getLast? := by
    have hlast : ((elements r bits).take h).getLast?.map some = (standsOn bits h).map r.getT := by
      rw [standsOn, ← List.getLast?_map, ← List.getLast?_map, List.map_take, List.map_take, elements_some hr]
    cases hm : standsOn bits h with
    | none =>
      rw [hm, Option.map_none, Option.map_eq_none_iff] at hlast
      rw [hlast]
      rfl
    | some m =>
      rw [hm, Option.map_some, Option.map_eq_some_iff] at hlast
      obtain ⟨t, ht, hget⟩ := hlast
      rw [ht]
      exact hget.symm
  rw [Cursor.answerNext, hc.index, hname]

/-- What has been delivered of the list `E` after `h` calls of `hasNext` and `d` of `next`. -/
structure Progress (E : List String) (h d last : Nat) (remaining : List String) : Prop where
  nodup : remaining.Nodup
  count : remaining.length + d = E.length
  coming : ∀ t ∈ E.drop last, t ∈ remaining
  delivered : ∀ t, (E.take last).getLast? = some t → t ∉ remaining
  last_le : last ≤ min h E.length

namespace Progress
variable {E remaining : List String} {h d last : Nat}

theorem start (hE : E.Nodup) : Progress E 0 0 0 E :=
  ⟨hE, rfl, fun _ ht => ht, fun t ht => by simp at ht, Nat.zero_le _⟩

theorem isEmpty_iff (hp : Progress E h d last remaining) : remaining.isEmpty = false ↔ d < E.length := by
  rw [← hp.count, List.isEmpty_eq_false_iff, ← List.length_pos_iff]
  omega

theorem hasNext (hp : Progress E h d last remaining) : Progress E (h + 1) d last remaining := by
  have hlast := hp.last_le
  exact ⟨hp.nodup, hp.count, hp.coming, hp.delivered, by omega⟩

theorem mem_iff (hp : Progress E h d last remaining) {t : String} (ht : (E.take h).getLast? = some t) :
    t ∈ remaining ↔ last < min h E.length := by
  have hlast := hp.last_le
  have htake : E.take h = E.take (min h E.length) := List.take_eq_take_min
  constructor
  · intro hmem
    by_contra hnot
    have hstill : last = min h E.length := by omega
    rw [htake, ← hstill] at ht
    exact hp.delivered t ht hmem
  · intro hlt
    apply hp.coming
    obtain ⟨k, hk⟩ : ∃ k, min h E.length = k + 1 := ⟨min h E.length - 1, by omega⟩
    have hkE : k < E.length := by omega
    rw [htake, hk, List.take_succ_eq_append_getElem hkE, List.getLast?_concat, Option.some.injEq] at ht
    rw [← ht, List.mem_drop_iff_getElem]
    exact ⟨k - last, by omega, by congr 1; omega⟩

theorem next (hE : E.Nodup) (hp : Progress E h d last remaining) {t : String}
    (ht : (E.take h).getLast? = some t) (hmem : t ∈ remaining) :
    Progress E h (d + 1) (min h E.length) (remaining.erase t) := by
  have htake : E.take h = E.take (min h E.length) := List.take_eq_take_min
  have hcount := hp.count
  have hpos := List.length_pos_of_mem hmem
  refine ⟨hp.nodup.erase t, ?_, ?_, ?_, Nat.le_refl _⟩
  · rw [List.length_erase_of_mem hmem]
    omega
  · intro u hu
    have hne : u ≠ t := by
      rintro rfl
      rw [htake] at ht
      exact List.disjoint_take_drop hE (Nat.le_refl _) (List.mem_of_getLast? ht) hu
    have hlast := hp.last_le
    have hbefore : u ∈ remaining := by
      apply hp.coming
      exact List.drop_subset_drop_left E hlast hu
    exact (List.mem_erase_of_ne hne).mpr hbefore
  · intro u hu
    rw [← htake, ht, Option.some.injEq] at hu
    rw [← hu]
    exact hp.nodup.not_mem_erase

end Progress

/-! ## Runs -/

theorem answers_cons {r : Registry} {bits : List Long} {call : Call} {calls : List Call} {c c' : Cursor} {a : Answer}
    (h : answer r bits call c = some (a, c')) {P : List Answer → Prop} :
    (∃ as, answers r bits (call :: calls) c = some as ∧ P as) ↔
      ∃ as, answers r bits calls c' = some as ∧ P (a :: as) := by
  have hanswers : answers r bits (call :: calls) c = (answers r bits calls c').map (fun as => a :: as) := by
    rw [answers, h]
    cases hrest : answers r bits calls c' with
    | none =>
      simp only [Option.bind_eq_bind, Option.bind_some, hrest]
      rfl
    | some as =>
      simp only [Option.bind_eq_bind, Option.bind_some, hrest]
      rfl
  rw [hanswers]
  constructor
  · rintro ⟨as, has, hP⟩
    obtain ⟨rest, hrest, rfl⟩ := Option.map_eq_some_iff.mp has
    exact ⟨rest, hrest, hP⟩
  · rintro ⟨rest, hrest, hP⟩
    exact ⟨a :: rest, Option.map_eq_some_iff.mpr ⟨rest, hrest, rfl⟩, hP⟩

/-- Wherever the calls before have led to, `calls` conform just if they keep step. -/
def Decided {r : Registry} (s : StyleClassSet r) (calls : List Call) : Prop :=
  ∀ (h d last : Nat) (remaining : List String) (c : Cursor), After s.bits h c →
    Progress (elements r s.bits) h d last remaining →
    (s.bits.length = 0 ∨ h + max 64 s.bits.length ≤ (elements r s.bits).length + 2 ^ 31) →
      ((∃ as, answers r s.bits calls c = some as ∧ Conforms remaining calls as) ↔
        InStep (elements r s.bits).length s.bits.length h d last calls)

namespace Decided
variable {r : Registry} {s : StyleClassSet r} {calls : List Call}

theorem hasNext (rest : Decided s calls) : Decided s (.hasNext :: calls) := by
  have hsize : (members s.bits).length = (elements r s.bits).length := by
    rw [length_members, length_elements s.registered]
  intro h d last remaining c hc hp hlimit
  rw [InStep]
  have hanswered : ∀ (found : Bool) (c' : Cursor), c.hasNext s.bits = some (Answer.more found, c') →
      After s.bits (h + 1) c' → (found = true ↔ h < (elements r s.bits).length) →
      (s.bits.length = 0 ∨ h + max 64 s.bits.length < (elements r s.bits).length + 2 ^ 31) →
      ((∃ as, answers r s.bits (Call.hasNext :: calls) c = some as ∧
          Conforms remaining (Call.hasNext :: calls) as) ↔
        (h < (elements r s.bits).length ↔ d < (elements r s.bits).length) ∧
          (s.bits.length = 0 ∨ h + max 64 s.bits.length < (elements r s.bits).length + 2 ^ 31) ∧
          InStep (elements r s.bits).length s.bits.length (h + 1) d last calls) := by
    intro found c' hcall hafter hfound hbelow
    rw [@answers_cons _ _ Call.hasNext _ _ _ _ hcall]
    have hrest := rest (h + 1) d last remaining c' hafter hp.hasNext (hbelow.imp id (fun hlt => by omega : _ → _))
    have hright : found = !remaining.isEmpty ↔
        (h < (elements r s.bits).length ↔ d < (elements r s.bits).length) := by
      rw [← hfound, ← hp.isEmpty_iff]
      cases found with
      | false => simp
      | true => simp
    constructor
    · rintro ⟨as, has, heq, hconforms⟩
      exact ⟨hright.mp heq, hbelow, hrest.mp ⟨as, has, hconforms⟩⟩
    · rintro ⟨heq, -, hstep⟩
      obtain ⟨as, has, hconforms⟩ := hrest.mpr hstep
      exact ⟨as, has, hright.mpr heq, hconforms⟩
  by_cases hbelow : s.bits.length = 0 ∨ h + max 64 s.bits.length < (elements r s.bits).length + 2 ^ 31
  · by_cases hlt : h < (elements r s.bits).length
    · obtain ⟨c', hcall, hafter⟩ := hasNext_moves s.short hc (by omega)
      exact hanswered true c' hcall hafter ⟨fun _ => hlt, fun _ => rfl⟩ hbelow
    · obtain ⟨c', hcall, hafter⟩ := hasNext_ends s.short hc (by omega) (by rw [hsize]; exact hbelow)
      exact hanswered false c' hcall hafter
        ⟨fun hno => absurd hno Bool.false_ne_true, fun hmore => absurd hmore hlt⟩ hbelow
  · obtain ⟨hwords, hreached⟩ := not_or.mp hbelow
    have hlast := hlimit.resolve_left hwords
    obtain ⟨c', hcall⟩ := hasNext_overflows s.short hc hwords (by omega)
    rw [@answers_cons _ _ Call.hasNext _ _ _ _ hcall]
    constructor
    · rintro ⟨as, -, hconforms⟩
      exact hconforms.elim
    · exact fun hstep => absurd hstep.2.1 hbelow

theorem next (rest : Decided s calls) : Decided s (.next :: calls) := by
  intro h d last remaining c hc hp hlimit
  rw [InStep]
  have hcall : answer r s.bits Call.next c = some (Answer.element ((elements r s.bits).take h).getLast?, c) := by
    rw [answer, answerNext_eq s.registered hc]
  rw [answers_cons hcall]
  cases ht : ((elements r s.bits).take h).getLast? with
  | none =>
    rw [List.getLast?_eq_none_iff, List.take_eq_nil_iff] at ht
    constructor
    · rintro ⟨as, -, hconforms⟩
      exact hconforms.elim
    · rintro ⟨hmoved, -⟩
      rcases ht with rfl | hempty
      · exact absurd hmoved (by simp)
      · rw [hempty] at hmoved
        exact absurd hmoved (by simp)
  | some t =>
    rw [← hp.mem_iff ht]
    have hrest : t ∈ remaining → ((∃ as, answers r s.bits calls c = some as ∧ Conforms (remaining.erase t) calls as) ↔
        InStep (elements r s.bits).length s.bits.length h (d + 1) (min h (elements r s.bits).length) calls) :=
      fun hmem => rest h _ _ _ c hc (hp.next (elements_nodup r s.bits) ht hmem) hlimit
    constructor
    · rintro ⟨as, has, hmem, hconforms⟩
      exact ⟨hmem, (hrest hmem).mp ⟨as, has, hconforms⟩⟩
    · rintro ⟨hmem, hstep⟩
      obtain ⟨as, has, hconforms⟩ := (hrest hmem).mpr hstep
      exact ⟨as, has, hmem, hconforms⟩

end Decided

theorem conforms_iff {r : Registry} (s : StyleClassSet r) (calls : List Call) : Decided s calls := by
  induction calls with
  | nil =>
    intro h d last remaining c _ _ _
    rw [InStep]
    exact ⟨fun _ => trivial, fun _ => ⟨[], rfl, rfl⟩⟩
  | cons call calls ih =>
    cases call with
    | hasNext => exact ih.hasNext
    | next => exact ih.next

end BitSet

end OpenJfx.Css
