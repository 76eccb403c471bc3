import OpenJfx.Css.BitSetAlgebra
import OpenJfx.Collections.SetListenerHelper
import OpenJfx.Lib.Run
import Mathlib.Data.List.Count

/-! # What `BitSet` reports

A mutation returns whether it modified the set and notifies the listeners of each
element that was added or removed.  `addListener` stores the helper that
`SetListenerHelper` returns, `removeListener` does not. -/
set_option autoImplicit false
namespace OpenJfx.Css
open OpenJfx.Lib OpenJfx.Lib.WordSet OpenJfx.Collections

/-! ## Listeners -/

/-- The helper of a set.  `invalidations` and `changes` are the listeners that
were added and not removed since; weak listeners can be collected. -/
structure Observers (I C : Type) where
  listenerHelper : SetListeners I C
  collectedInvalidations : List I
  collectedChanges : List C
  invalidations : List I
  changes : List C

inductive ListenerStep (I C : Type) where
  | addInvalidation (l : I)
  | removeInvalidation (l : I)
  | addChange (l : C)
  | removeChange (l : C)
  | collectInvalidation (l : I)
  | collectChange (l : C)
deriving DecidableEq, Repr

namespace Observers
variable {I C : Type} [DecidableEq I] [DecidableEq C]

def start : Observers I C := ⟨.start, [], [], [], []⟩

def step (a : ListenerStep I C) (s : Observers I C) : Observers I C :=
  match a with
  | .addInvalidation l =>
      { s with
        listenerHelper := s.listenerHelper.addInvalidation (s.collectedInvalidations.contains ·) l
        invalidations := s.invalidations ++ [l] }
  | .removeInvalidation l =>
      { s with
        listenerHelper := (s.listenerHelper.removeInvalidation l).2
        invalidations := s.invalidations.erase l }
  | .addChange l =>
      { s with
        listenerHelper := s.listenerHelper.addChange (s.collectedChanges.contains ·) l
        changes := s.changes ++ [l] }
  | .removeChange l =>
      { s with
        listenerHelper := (s.listenerHelper.removeChange l).2
        changes := s.changes.erase l }
  | .collectInvalidation l => { s with collectedInvalidations := l :: s.collectedInvalidations }
  | .collectChange l => { s with collectedChanges := l :: s.collectedChanges }

/-- A listener is removed from a helper that removes it in place. -/
def RemovesInPlace (a : ListenerStep I C) (s : Observers I C) : Prop :=
  match a with
  | .removeInvalidation l =>
      l ∈ s.invalidations → l ∉ s.collectedInvalidations → s.listenerHelper.shrinks = true
  | .removeChange l => l ∈ s.changes → l ∉ s.collectedChanges → s.listenerHelper.shrinks = true
  | _ => True

instance (a : ListenerStep I C) (s : Observers I C) : Decidable (RemovesInPlace a s) := by
  cases a <;> (unfold RemovesInPlace; infer_instance)

/-- The helper holds the registered listeners, besides collected ones. -/
def Holding {L : Type} [DecidableEq L] (collected held registered : List L) : Prop :=
  held.filter (· ∉ collected) = registered.filter (· ∉ collected)

theorem Holding.add {L : Type} [DecidableEq L] {collected held registered kept : List L}
    (h : Holding collected held registered)
    (hkept : kept = held ∨ kept = held.filter (fun l => !collected.contains l)) (l : L) :
    Holding collected (kept ++ [l]) (registered ++ [l]) := by
  have hsame : kept.filter (· ∉ collected) = held.filter (· ∉ collected) := by
    rcases hkept with rfl | rfl
    · rfl
    · rw [List.filter_filter]
      apply List.filter_congr
      intro x _
      simp
  rw [Holding, List.filter_append, List.filter_append, hsame, h]

theorem Holding.remove {L : Type} [DecidableEq L] {collected held registered : List L}
    (h : Holding collected held registered) {l : L} {inPlace : Bool}
    (hinPlace : l ∈ registered → l ∉ collected → inPlace = true) :
    Holding collected (if inPlace then held.erase l else held) (registered.erase l) := by
  rw [Holding, ← List.erase_filter]
  by_cases hin : inPlace = true
  · rw [if_pos hin, ← List.erase_filter, h]
  · rw [if_neg hin, h, List.erase_of_not_mem]
    intro hmem
    rw [List.mem_filter, decide_eq_true_eq] at hmem
    exact hin (hinPlace hmem.1 hmem.2)

theorem Holding.collect {L : Type} [DecidableEq L] {collected held registered : List L}
    (h : Holding collected held registered) (l : L) : Holding (l :: collected) held registered := by
  have hsplit : ∀ ls : List L, ls.filter (· ∉ l :: collected) = (ls.filter (· ∉ collected)).filter (· ≠ l) := by
    intro ls
    rw [List.filter_filter]
    apply List.filter_congr
    intro x _
    rw [Bool.eq_iff_iff]
    simp
  rw [Holding, hsplit, hsplit, h]

theorem Holding.count {L : Type} [DecidableEq L] {collected held registered : List L}
    (h : Holding collected held registered) {l : L} (hl : l ∉ collected) : held.count l = registered.count l := by
  have hlive : ∀ ls : List L, (ls.filter (· ∉ collected)).count l = ls.count l :=
    fun ls => List.count_filter (p := (· ∉ collected)) (decide_eq_true hl)
  rw [← hlive held, h, hlive]

def Sound (s : Observers I C) : Prop :=
  ∃ is cs, s.listenerHelper.Holds is cs ∧ Holding s.collectedInvalidations is s.invalidations ∧
    Holding s.collectedChanges cs s.changes

theorem Sound.step {s : Observers I C} (h : Sound s) (a : ListenerStep I C) (hguard : RemovesInPlace a s) :
    Sound (step a s) := by
  obtain ⟨is, cs, hholds, hi, hc⟩ := h
  cases a with
  | addInvalidation l =>
    obtain ⟨kept, hkept, hadd⟩ := SetListeners.addInvalidation_holds hholds _ l
    exact ⟨_, _, hadd, hi.add hkept l, hc⟩
  | removeInvalidation l => exact ⟨_, _, SetListeners.removeInvalidation_holds hholds l, hi.remove hguard, hc⟩
  | addChange l =>
    obtain ⟨kept, hkept, hadd⟩ := SetListeners.addChange_holds hholds _ l
    exact ⟨_, _, hadd, hi, hc.add hkept l⟩
  | removeChange l => exact ⟨_, _, SetListeners.removeChange_holds hholds l, hi, hc.remove hguard⟩
  | collectInvalidation l => exact ⟨is, cs, hholds, hi.collect l, hc⟩
  | collectChange l => exact ⟨is, cs, hholds, hi, hc.collect l⟩

theorem sound_start : Sound (start : Observers I C) := ⟨[], [], SetListeners.holds_start, rfl, rfl⟩

def notifications (s : Observers I C) (notified : List (String × Bool)) : List (SetListener I C × String × Bool) :=
  notified.flatMap (fun change => s.listenerHelper.fireValueChangedEvent.map (fun l => (l, change)))

theorem count_notifications (s : Observers I C) (notified : List (String × Bool)) (l : SetListener I C)
    (change : String × Bool) :
    (s.notifications notified).count (l, change) =
      notified.count change * s.listenerHelper.fireValueChangedEvent.count l := by
  induction notified with
  | nil => simp [notifications]
  | cons c rest ih =>
    have hhead : (s.listenerHelper.fireValueChangedEvent.map (fun l => (l, c))).count (l, change) =
        if c = change then s.listenerHelper.fireValueChangedEvent.count l else 0 := by
      split
      · rename_i heq
        rw [heq]
        exact List.count_map_of_injective _ (fun l => (l, change)) (fun _ _ hab => (Prod.mk.inj hab).1) l
      · rename_i hne
        apply List.count_eq_zero_of_not_mem
        intro hmem
        obtain ⟨k, -, hk⟩ := List.mem_map.mp hmem
        exact hne (Prod.mk.inj hk).2
    change ((s.listenerHelper.fireValueChangedEvent.map (fun l => (l, c))) ++ s.notifications rest).count _ = _
    rw [List.count_append, hhead, ih, List.count_cons]
    by_cases heq : c = change
    · simp [heq, Nat.add_mul, Nat.add_comm]
    · simp [heq]

end Observers

/-! ## Mutations -/

inductive SetMutation (r : Registry) where
  | add (t : Option String)
  | remove (o : Option String)
  | addAll (c : Option (ElementSet r))
  | retainAll (c : Option (ElementSet r))
  | removeAll (c : Option (ElementSet r))
  | clear

namespace SetMutation
variable {r : Registry}

def apply (hasListeners : Bool) (bits : List Long) : SetMutation r → Mutation
  | .add t => BitSet.add r hasListeners t bits
  | .remove o => BitSet.remove r hasListeners o bits
  | .addAll c => BitSet.addAll r hasListeners (c.map ElementSet.bits) bits
  | .retainAll c => BitSet.retainAll r hasListeners (c.map ElementSet.bits) bits
  | .removeAll c => BitSet.removeAll r hasListeners (c.map ElementSet.bits) bits
  | .clear => BitSet.clear r hasListeners bits

def registry : SetMutation r → Registry
  | .add (some t) => r.register t
  | .remove (some t) => r.register t
  | _ => r

/-- `clear` returns nothing. -/
def returnsFlag : SetMutation r → Bool
  | .clear => false
  | _ => true

/-- The calls whose flag and notifications do not depend on zero words or on the
words behind the end of the other array. -/
def Exact (a : ElementSet r) : SetMutation r → Prop
  | .addAll (some b) => b.bits.length ≤ a.bits.length ∨
      ∃ y, BitSet.contains r (some y) b.bits = true ∧ BitSet.contains r (some y) a.bits = false
  | .retainAll none => ∃ y, BitSet.contains r (some y) a.bits = true
  | .retainAll (some b) => a.bits.length ≤ b.bits.length ∨
      ∃ y, BitSet.contains r (some y) a.bits = true ∧ BitSet.contains r (some y) b.bits = false
  | .removeAll (some b) =>
      (∀ y, BitSet.contains r (some y) a.bits = true → BitSet.contains r (some y) b.bits = false) ∨
        ∀ y, BitSet.contains r (some y) a.bits = true → r.getIndex y < 64 * b.bits.length
  | _ => True

/-- `y` has left the set (`removed`) or has entered it. -/
def Changed (a : ElementSet r) (m : SetMutation r) (hasListeners removed : Bool) (y : String) : Prop :=
  BitSet.contains r (some y) a.bits = removed ∧
    BitSet.contains m.registry (some y) (m.apply hasListeners a.bits).bits = !removed

structure Reported (a : ElementSet r) (m : SetMutation r) (hasListeners removed : Bool) (ts : List String) :
    Prop where
  notified : (m.apply hasListeners a.bits).notified =
    if hasListeners then BitSet.notifyObservers removed ts else []
  nodup : ts.Nodup
  mem : ∀ y, y ∈ ts ↔ m.Changed a hasListeners removed y
  other : ∀ y, ¬m.Changed a hasListeners (!removed) y
  flag : m.returnsFlag = true → ((m.apply hasListeners a.bits).modified = true ↔ ts ≠ [])

theorem reported_nothing {a : ElementSet r} {m : SetMutation r} {hasListeners : Bool}
    (happly : m.apply hasListeners a.bits = ⟨a.bits, false, []⟩) (hregistry : m.registry = r) :
    m.Reported a hasListeners false [] := by
  have hno : ∀ removed y, ¬m.Changed a hasListeners removed y := by
    rintro removed y ⟨hbefore, hafter⟩
    rw [happly, hregistry, hbefore] at hafter
    cases removed with
    | false => cases hafter
    | true => cases hafter
  refine ⟨?_, List.nodup_nil, fun y => ?_, fun y => hno _ y, fun _ => ?_⟩
  · rw [happly]
    cases hasListeners with
    | false => rfl
    | true => rfl
  · exact ⟨fun h => (nomatch h), fun h => absurd h (hno _ y)⟩
  · rw [happly]
    exact ⟨fun h => (nomatch h), fun h => absurd rfl h⟩

theorem reported_elements {a : ElementSet r} {m : SetMutation r} {hasListeners removed : Bool} {masks : List Long}
    (hregistered : Registered r masks) (hregistry : m.registry = r)
    (hmasks : ∀ i, has masks i = true ↔
      has a.bits i = removed ∧ has (m.apply hasListeners a.bits).bits i = !removed)
    (hother : ∀ i, ¬(has a.bits i = !removed ∧ has (m.apply hasListeners a.bits).bits i = removed))
    (hnotified : (m.apply hasListeners a.bits).notified =
      if (m.apply hasListeners a.bits).modified && hasListeners then
        BitSet.notifyObservers removed (BitSet.elements r masks) else [])
    (hsome : (∃ i, has masks i = true) → (m.apply hasListeners a.bits).modified = true)
    (hflag : m.returnsFlag = true → (m.apply hasListeners a.bits).modified = true → ∃ i, has masks i = true) :
    m.Reported a hasListeners removed (BitSet.elements r masks) := by
  have hempty : BitSet.elements r masks ≠ [] ↔ ∃ i, has masks i = true := by
    constructor
    · intro hne
      obtain ⟨y, hy⟩ := List.exists_mem_of_ne_nil _ hne
      exact ⟨_, (BitSet.mem_elements hregistered).mp hy⟩
    · rintro ⟨i, hi⟩ hnil
      obtain ⟨y, hy⟩ := Registry.exists_getT (hregistered i hi)
      rw [← Registry.getIndex_of_getT hy, ← BitSet.mem_elements hregistered, hnil] at hi
      cases hi
  have hchanged : ∀ d y, m.Changed a hasListeners d y ↔
      has a.bits (r.getIndex y) = d ∧ has (m.apply hasListeners a.bits).bits (r.getIndex y) = !d := by
    intro d y
    rw [Changed, hregistry, BitSet.contains_some, BitSet.contains_some]
  refine ⟨?_, BitSet.elements_nodup r masks, fun y => ?_, fun y h => ?_, fun hreturns => ?_⟩
  · rw [hnotified]
    by_cases hmod : (m.apply hasListeners a.bits).modified = true
    · rw [hmod, Bool.true_and]
    · have hnil : BitSet.elements r masks = [] := by
        by_contra hne
        exact hmod (hsome (hempty.mp hne))
      rw [hnil]
      cases hasListeners with
      | false => rw [Bool.and_false]
      | true =>
        rw [Bool.eq_false_iff.mpr hmod]
        rfl
  · rw [BitSet.mem_elements hregistered, hmasks, hchanged]
  · rw [hchanged, Bool.not_not] at h
    exact hother _ h
  · rw [hempty]
    exact ⟨hflag hreturns, hsome⟩

theorem reported_add (a : ElementSet r) (hasListeners : Bool) (t : String) :
    ∃ ts, (SetMutation.add (some t) : SetMutation r).Reported a hasListeners false ts := by
  have hafter := BitSet.contains_add a.registered hasListeners t
  refine ⟨if (BitSet.add r hasListeners (some t) a.bits).modified then [t] else [], ?_, ?_, ?_, ?_, ?_⟩
  · change (if (BitSet.add r hasListeners (some t) a.bits).modified && hasListeners then
      BitSet.notifyObservers BitSet.ELEMENT_ADDED [t] else []) = _
    cases (BitSet.add r hasListeners (some t) a.bits).modified with
    | false =>
      cases hasListeners with
      | false => rfl
      | true => rfl
    | true => rfl
  · split
    · exact List.nodup_singleton t
    · exact List.nodup_nil
  · intro y
    have hchanged : (SetMutation.add (some t) : SetMutation r).Changed a hasListeners false y ↔
        BitSet.contains r (some y) a.bits = false ∧ y = t := by
      change BitSet.contains r (some y) a.bits = false ∧
        BitSet.contains (r.register t) (some y) (BitSet.add r hasListeners (some t) a.bits).bits = true ↔ _
      rw [hafter]
      constructor
      · rintro ⟨hbefore, hnow⟩
        rw [hbefore] at hnow
        exact ⟨hbefore, hnow.resolve_left (fun h => nomatch h)⟩
      · rintro ⟨hbefore, heq⟩
        exact ⟨hbefore, Or.inr heq⟩
    rw [hchanged, BitSet.add_modified, ← BitSet.contains_some]
    cases hbefore : BitSet.contains r (some t) a.bits with
    | false =>
      rw [Bool.not_false, if_pos rfl, List.mem_singleton]
      constructor
      · rintro rfl
        exact ⟨hbefore, rfl⟩
      · exact fun h => h.2
    | true =>
      constructor
      · exact fun h => (nomatch h)
      · rintro ⟨hy, rfl⟩
        rw [hbefore] at hy
        cases hy
  · rintro y ⟨hbefore, hnow⟩
    change BitSet.contains (r.register t) (some y) (BitSet.add r hasListeners (some t) a.bits).bits = false at hnow
    rw [Bool.eq_false_iff] at hnow
    exact hnow ((hafter y).mpr (Or.inl hbefore))
  · intro _
    change (BitSet.add r hasListeners (some t) a.bits).modified = true ↔ _
    split
    · rename_i hmod
      exact ⟨fun _ h => (nomatch h), fun _ => hmod⟩
    · rename_i hmod
      exact ⟨fun h => absurd h hmod, fun h => absurd rfl h⟩

theorem reported_remove (a : ElementSet r) (hasListeners : Bool) (t : String) :
    ∃ ts, (SetMutation.remove (some t) : SetMutation r).Reported a hasListeners true ts := by
  have hafter := BitSet.contains_remove a.registered hasListeners t
  have hnotified : (BitSet.remove r hasListeners (some t) a.bits).notified =
      if (BitSet.remove r hasListeners (some t) a.bits).modified && hasListeners then
        BitSet.notifyObservers BitSet.ELEMENT_REMOVED [t] else [] := by
    rw [BitSet.remove]
    dsimp only
    split
    · rfl
    · split
      · rfl
      · rfl
  refine ⟨if (BitSet.remove r hasListeners (some t) a.bits).modified then [t] else [], ?_, ?_, ?_, ?_, ?_⟩
  · change (BitSet.remove r hasListeners (some t) a.bits).notified = _
    rw [hnotified]
    cases (BitSet.remove r hasListeners (some t) a.bits).modified with
    | false =>
      cases hasListeners with
      | false => rfl
      | true => rfl
    | true => rfl
  · split
    · exact List.nodup_singleton t
    · exact List.nodup_nil
  · intro y
    have hchanged : (SetMutation.remove (some t) : SetMutation r).Changed a hasListeners true y ↔
        BitSet.contains r (some y) a.bits = true ∧ y = t := by
      change BitSet.contains r (some y) a.bits = true ∧
        BitSet.contains (r.register t) (some y) (BitSet.remove r hasListeners (some t) a.bits).bits = false ↔ _
      rw [Bool.eq_false_iff, Ne, hafter]
      constructor
      · rintro ⟨hbefore, hnow⟩
        refine ⟨hbefore, ?_⟩
        by_contra hne
        exact hnow ⟨hbefore, hne⟩
      · rintro ⟨hbefore, heq⟩
        exact ⟨hbefore, fun h => h.2 heq⟩
    rw [hchanged, BitSet.remove_modified, ← BitSet.contains_some]
    cases hbefore : BitSet.contains r (some t) a.bits with
    | true =>
      rw [if_pos rfl, List.mem_singleton]
      constructor
      · rintro rfl
        exact ⟨hbefore, rfl⟩
      · exact fun h => h.2
    | false =>
      constructor
      · exact fun h => by cases h
      · rintro ⟨hy, rfl⟩
        rw [hbefore] at hy
        cases hy
  · rintro y ⟨hbefore, hnow⟩
    change BitSet.contains r (some y) a.bits = false at hbefore
    change BitSet.contains (r.register t) (some y) (BitSet.remove r hasListeners (some t) a.bits).bits = true at hnow
    rw [hafter, hbefore] at hnow
    cases hnow.1
  · intro _
    change (BitSet.remove r hasListeners (some t) a.bits).modified = true ↔ _
    split
    · rename_i hmod
      exact ⟨fun _ h => (by cases h), fun _ => hmod⟩
    · rename_i hmod
      exact ⟨fun h => absurd h hmod, fun h => absurd rfl h⟩

theorem reported_clear {a : ElementSet r} {m : SetMutation r} {hasListeners : Bool}
    (happly : m.apply hasListeners a.bits = BitSet.clear r hasListeners a.bits) (hregistry : m.registry = r)
    (hflag : m.returnsFlag = true → ∃ i, has a.bits i = true) :
    m.Reported a hasListeners true (BitSet.elements r a.bits) := by
  have hafter : ∀ i, has (m.apply hasListeners a.bits).bits i = false := by
    intro i
    rw [happly]
    exact has_nil i
  apply reported_elements a.registered hregistry
  · intro i
    rw [hafter]
    simp
  · rintro i ⟨-, h⟩
    rw [hafter] at h
    cases h
  · rw [happly]
    rfl
  · intro _
    rw [happly]
    rfl
  · exact fun hreturns _ => hflag hreturns

theorem reported_addAll (a b : ElementSet r) (hasListeners : Bool)
    (hexact : (SetMutation.addAll (some b) : SetMutation r).Exact a) :
    ∃ ts, (SetMutation.addAll (some b) : SetMutation r).Reported a hasListeners false ts := by
  have hnotified : ∃ masks : List Long,
      (∀ i, has masks i = true ↔ has a.bits i = false ∧ has b.bits i = true) ∧
      (BitSet.addAll r hasListeners (some b.bits) a.bits).notified =
        if (BitSet.addAll r hasListeners (some b.bits) a.bits).modified && hasListeners then
          BitSet.notifyObservers BitSet.ELEMENT_ADDED (BitSet.elements r masks) else [] := by
    refine ⟨_, fun i => ?_, rfl⟩
    rw [has, word_tabulate]
    by_cases hb : i / 64 < b.bits.length
    · rw [if_pos (BitSet.lt_longer_iff.mpr (Or.inr hb))]
      by_cases ha : i / 64 < a.bits.length
      · rw [if_pos ⟨ha, hb⟩, BitVec.getLsbD_and, BitVec.getLsbD_not]
        change (decide (i % 64 < 64) && !has a.bits i && has b.bits i) = true ↔ _
        simp [Nat.mod_lt i (show 64 > 0 by decide)]
      · rw [if_neg (fun h => ha h.1), if_neg ha]
        have hno : has a.bits i = false := by rw [has, word_of_le (by omega), BitVec.getLsbD_zero]
        change has b.bits i = true ↔ _
        simp [hno]
    · have hno : has b.bits i = false := by rw [has, word_of_le (by omega), BitVec.getLsbD_zero]
      rw [hno]
      by_cases ha : i / 64 < a.bits.length
      · rw [if_pos (BitSet.lt_longer_iff.mpr (Or.inl ha)), if_neg (fun h => hb h.2), if_pos ha]
        simp
      · rw [if_neg (fun h => (BitSet.lt_longer_iff.mp h).elim ha hb)]
        simp
  obtain ⟨masks, hmasks, hnotified⟩ := hnotified
  have hafter := BitSet.has_addAll r hasListeners a.bits b.bits
  refine ⟨BitSet.elements r masks, reported_elements ?_ rfl ?_ ?_ hnotified ?_ ?_⟩
  · exact fun i hi => b.registered i ((hmasks i).mp hi).2
  · intro i
    change _ ↔ _ ∧ has (BitSet.addAll r hasListeners (some b.bits) a.bits).bits i = true
    rw [hmasks, hafter, Bool.or_eq_true]
    constructor
    · exact fun h => ⟨h.1, Or.inr h.2⟩
    · rintro ⟨hno, h⟩
      rw [hno] at h
      exact ⟨hno, h.resolve_left (fun h => by cases h)⟩
  · rintro i ⟨hbefore, hnow⟩
    change has (BitSet.addAll r hasListeners (some b.bits) a.bits).bits i = false at hnow
    rw [hafter, hbefore] at hnow
    cases hnow
  · rintro ⟨i, hi⟩
    apply (BitSet.addAll_modified r hasListeners a.bits b.bits).mpr
    exact Or.inr ⟨i, ((hmasks i).mp hi).2, ((hmasks i).mp hi).1⟩
  · intro _ hmod
    rcases (BitSet.addAll_modified r hasListeners a.bits b.bits).mp hmod with hlt | ⟨i, hbi, hai⟩
    · rcases hexact with hle | ⟨y, hby, hay⟩
      · omega
      · rw [BitSet.contains_some] at hby hay
        exact ⟨_, (hmasks _).mpr ⟨hay, hby⟩⟩
    · exact ⟨i, (hmasks i).mpr ⟨hai, hbi⟩⟩

theorem reported_retainAll (a b : ElementSet r) (hasListeners : Bool)
    (hexact : (SetMutation.retainAll (some b) : SetMutation r).Exact a) :
    ∃ ts, (SetMutation.retainAll (some b) : SetMutation r).Reported a hasListeners true ts := by
  have hnotified : ∃ masks : List Long,
      (∀ i, has masks i = true ↔ has a.bits i = true ∧ has b.bits i = false) ∧
      (BitSet.retainAll r hasListeners (some b.bits) a.bits).notified =
        if (BitSet.retainAll r hasListeners (some b.bits) a.bits).modified && hasListeners then
          BitSet.notifyObservers BitSet.ELEMENT_REMOVED (BitSet.elements r masks) else [] := by
    refine ⟨_, fun i => ?_, rfl⟩
    rw [has, word_tabulate]
    by_cases ha : i / 64 < a.bits.length
    · rw [if_pos ha]
      by_cases hb : i / 64 < b.bits.length
      · rw [if_pos hb, BitVec.getLsbD_and, BitVec.getLsbD_not]
        change (has a.bits i && (decide (i % 64 < 64) && !has b.bits i)) = true ↔ _
        simp [Nat.mod_lt i (show 64 > 0 by decide)]
      · rw [if_neg hb]
        have hno : has b.bits i = false := by rw [has, word_of_le (by omega), BitVec.getLsbD_zero]
        change has a.bits i = true ↔ _
        simp [hno]
    · have hno : has a.bits i = false := by rw [has, word_of_le (by omega), BitVec.getLsbD_zero]
      rw [if_neg ha, hno]
      simp
  obtain ⟨masks, hmasks, hnotified⟩ := hnotified
  have hafter := BitSet.has_retainAll r hasListeners a.bits b.bits
  refine ⟨BitSet.elements r masks, reported_elements ?_ rfl ?_ ?_ hnotified ?_ ?_⟩
  · exact fun i hi => a.registered i ((hmasks i).mp hi).1
  · intro i
    change _ ↔ _ ∧ has (BitSet.retainAll r hasListeners (some b.bits) a.bits).bits i = false
    rw [hmasks, hafter]
    constructor
    · rintro ⟨h1, h2⟩
      rw [h1, h2]
      exact ⟨rfl, rfl⟩
    · rintro ⟨h1, h2⟩
      rw [h1, Bool.true_and] at h2
      exact ⟨h1, h2⟩
  · rintro i ⟨hbefore, hnow⟩
    change has a.bits i = false at hbefore
    change has (BitSet.retainAll r hasListeners (some b.bits) a.bits).bits i = true at hnow
    rw [hafter, hbefore] at hnow
    cases hnow
  · rintro ⟨i, hi⟩
    apply (BitSet.retainAll_modified r hasListeners a.bits b.bits).mpr
    exact Or.inr ⟨i, (hmasks i).mp hi⟩
  · intro _ hmod
    rcases (BitSet.retainAll_modified r hasListeners a.bits b.bits).mp hmod with hlt | ⟨i, hi⟩
    · rcases hexact with hle | ⟨y, hy⟩
      · omega
      · rw [BitSet.contains_some, BitSet.contains_some] at hy
        exact ⟨_, (hmasks _).mpr hy⟩
    · exact ⟨i, (hmasks i).mpr hi⟩

theorem reported_removeAll (a b : ElementSet r) (hasListeners : Bool)
    (hexact : (SetMutation.removeAll (some b) : SetMutation r).Exact a) :
    ∃ ts, (SetMutation.removeAll (some b) : SetMutation r).Reported a hasListeners true ts := by
  have hnotified : ∃ masks : List Long,
      (∀ i, has masks i = true ↔ has a.bits i = true ∧ has b.bits i = true) ∧
      (BitSet.removeAll r hasListeners (some b.bits) a.bits).notified =
        if (BitSet.removeAll r hasListeners (some b.bits) a.bits).modified && hasListeners then
          BitSet.notifyObservers BitSet.ELEMENT_REMOVED (BitSet.elements r masks) else [] := by
    refine ⟨_, fun i => ?_, rfl⟩
    rw [has, word_tabulate]
    by_cases hboth : i / 64 < a.bits.length ∧ i / 64 < b.bits.length
    · rw [if_pos (BitSet.lt_shorter_iff.mpr hboth), BitVec.getLsbD_and]
      change (has a.bits i && has b.bits i) = true ↔ _
      rw [Bool.and_eq_true]
    · rw [if_neg (fun h => hboth (BitSet.lt_shorter_iff.mp h)), BitVec.getLsbD_zero]
      constructor
      · exact fun h => by cases h
      · exact fun h => absurd ⟨lt_of_has h.1, lt_of_has h.2⟩ hboth
  obtain ⟨masks, hmasks, hnotified⟩ := hnotified
  have hexact : (∀ i, has a.bits i = true → has b.bits i = false) ∨
      ∀ i, has a.bits i = true → i / 64 < b.bits.length := by
    rcases hexact with hdisjoint | hshort
    · left
      rw [BitSet.forall_has_iff a.registered]
      intro y hy
      have := hdisjoint y hy
      rw [BitSet.contains_some] at this
      exact this
    · right
      rw [BitSet.forall_has_iff a.registered]
      intro y hy
      have := hshort y hy
      omega
  have hafter : ∀ i, has (BitSet.removeAll r hasListeners (some b.bits) a.bits).bits i = true ↔
      has a.bits i = true ∧ has b.bits i = false := by
    intro i
    rw [BitSet.has_removeAll]
    constructor
    · exact fun h => ⟨h.1, h.2.1⟩
    · exact fun h => ⟨h.1, h.2, hexact.imp id (fun hshort => hshort i h.1)⟩
  refine ⟨BitSet.elements r masks, reported_elements ?_ rfl ?_ ?_ hnotified ?_ ?_⟩
  · exact fun i hi => a.registered i ((hmasks i).mp hi).1
  · intro i
    change _ ↔ _ ∧ has (BitSet.removeAll r hasListeners (some b.bits) a.bits).bits i = false
    rw [hmasks, Bool.eq_false_iff, Ne, hafter]
    constructor
    · rintro ⟨h1, h2⟩
      refine ⟨h1, fun h => ?_⟩
      rw [h2] at h
      cases h.2
    · rintro ⟨h1, h2⟩
      refine ⟨h1, ?_⟩
      by_contra h
      exact h2 ⟨h1, by simpa using h⟩
  · rintro i ⟨hbefore, hnow⟩
    change has a.bits i = false at hbefore
    have := ((hafter i).mp hnow).1
    rw [hbefore] at this
    cases this
  · rintro ⟨i, hi⟩
    exact (BitSet.removeAll_modified r hasListeners a.bits b.bits).mpr ⟨i, (hmasks i).mp hi⟩
  · intro _ hmod
    obtain ⟨i, hi⟩ := (BitSet.removeAll_modified r hasListeners a.bits b.bits).mp hmod
    exact ⟨i, (hmasks i).mpr hi⟩

theorem exists_reported (a : ElementSet r) (m : SetMutation r) (hasListeners : Bool) (hexact : m.Exact a) :
    ∃ removed ts, m.Reported a hasListeners removed ts := by
  cases m with
  | add t =>
    cases t with
    | none => exact ⟨false, [], reported_nothing rfl rfl⟩
    | some t => exact ⟨false, reported_add a hasListeners t⟩
  | remove o =>
    cases o with
    | none => exact ⟨false, [], reported_nothing rfl rfl⟩
    | some t => exact ⟨true, reported_remove a hasListeners t⟩
  | addAll c =>
    cases c with
    | none => exact ⟨false, [], reported_nothing rfl rfl⟩
    | some b => exact ⟨false, reported_addAll a b hasListeners hexact⟩
  | retainAll c =>
    cases c with
    | none =>
      refine ⟨true, _, reported_clear rfl rfl (fun _ => ?_)⟩
      obtain ⟨y, hy⟩ := hexact
      rw [BitSet.contains_some] at hy
      exact ⟨_, hy⟩
    | some b => exact ⟨true, reported_retainAll a b hasListeners hexact⟩
  | removeAll c =>
    cases c with
    | none => exact ⟨false, [], reported_nothing rfl rfl⟩
    | some b => exact ⟨true, reported_removeAll a b hasListeners hexact⟩
  | clear => exact ⟨true, _, reported_clear rfl rfl (fun h => nomatch h)⟩

theorem Reported.count_notified {a : ElementSet r} {m : SetMutation r} {kind : Bool} {ts : List String}
    (h : m.Reported a true kind ts) (y : String) (removed : Bool) [Decidable (m.Changed a true removed y)] :
    (m.apply true a.bits).notified.count (y, removed) = if m.Changed a true removed y then 1 else 0 := by
  rw [h.notified, if_pos rfl, BitSet.notifyObservers]
  by_cases hkind : removed = kind
  · subst hkind
    rw [List.count_map_of_injective ts (fun t => (t, removed)) (fun _ _ hab => (Prod.mk.inj hab).1) y,
      h.nodup.count]
    simp only [h.mem]
  · have hother : removed = !kind := by
      cases removed <;> cases kind <;> simp_all
    rw [List.count_eq_zero_of_not_mem, if_neg (by rw [hother]; exact h.other y)]
    intro hmem
    obtain ⟨t, -, ht⟩ := List.mem_map.mp hmem
    exact hkind (Prod.mk.inj ht).2.symm

theorem Reported.flag_iff {a : ElementSet r} {m : SetMutation r} {hasListeners kind : Bool} {ts : List String}
    (h : m.Reported a hasListeners kind ts) (hreturns : m.returnsFlag = true) :
    (m.apply hasListeners a.bits).modified = true ↔
      ∃ y, BitSet.contains m.registry (some y) (m.apply hasListeners a.bits).bits ≠
        BitSet.contains r (some y) a.bits := by
  rw [h.flag hreturns]
  constructor
  · intro hne
    obtain ⟨y, hy⟩ := List.exists_mem_of_ne_nil ts hne
    obtain ⟨hbefore, hafter⟩ := (h.mem y).mp hy
    refine ⟨y, ?_⟩
    rw [hbefore, hafter]
    simp
  · rintro ⟨y, hy⟩ hnil
    have hnot := h.mem y
    rw [hnil] at hnot
    cases hbefore : BitSet.contains r (some y) a.bits with
    | false =>
      have hafter : BitSet.contains m.registry (some y) (m.apply hasListeners a.bits).bits = true := by
        rw [hbefore] at hy
        simpa using hy
      cases kind with
      | false => exact nomatch hnot.mpr ⟨hbefore, hafter⟩
      | true => exact h.other y ⟨hbefore, hafter⟩
    | true =>
      have hafter : BitSet.contains m.registry (some y) (m.apply hasListeners a.bits).bits = false := by
        rw [hbefore] at hy
        simpa using hy
      cases kind with
      | false => exact h.other y ⟨hbefore, hafter⟩
      | true => exact nomatch hnot.mpr ⟨hbefore, hafter⟩

end SetMutation

section Reports
variable {I C : Type} [DecidableEq I] [DecidableEq C]

theorem count_listener (s : Observers I C) {r : Registry} {a : ElementSet r} {m : SetMutation r} {kind : Bool}
    {ts : List String} (h : m.Reported a s.listenerHelper.hasListeners kind ts) {l : SetListener I C} {n : Nat}
    (hcount : s.listenerHelper.fireValueChangedEvent.count l = n)
    (hnone : s.listenerHelper.hasListeners = false → n = 0) (y : String) (removed : Bool) :
    (s.notifications (m.apply s.listenerHelper.hasListeners a.bits).notified).count (l, y, removed) =
      if BitSet.contains r (some y) a.bits = removed ∧
        BitSet.contains m.registry (some y) (m.apply s.listenerHelper.hasListeners a.bits).bits = !removed
      then n else 0 := by
  rw [Observers.count_notifications, hcount]
  cases hhas : s.listenerHelper.hasListeners with
  | false => rw [hnone hhas, Nat.mul_zero, ite_self]
  | true =>
    rw [hhas] at h
    have : Decidable (m.Changed a true removed y) := inferInstanceAs (Decidable (_ ∧ _))
    rw [h.count_notified y removed]
    by_cases hchanged : m.Changed a true removed y
    · rw [if_pos hchanged, Nat.one_mul]
      exact (if_pos hchanged).symm
    · rw [if_neg hchanged, Nat.zero_mul]
      exact (if_neg hchanged).symm

/-- After every run of listener calls whose removals take place in the helper
itself, and for every mutation of the kind described by `Exact`: the flag says
whether the membership of some element changed, and each registered listener is
notified once for each of its registrations and each element that entered or left
the set, and of nothing else. -/
theorem changes_are_reported (calls : List (ListenerStep I C))
    (removals : Guarded Observers.RemovesInPlace Observers.step calls Observers.start)
    {r : Registry} (a : ElementSet r) (m : SetMutation r) (hexact : m.Exact a) :
    let s := exec Observers.step calls Observers.start
    let hasListeners := s.listenerHelper.hasListeners
    let result := m.apply hasListeners a.bits
    (m.returnsFlag = true → (result.modified = true ↔
      ∃ y, BitSet.contains m.registry (some y) result.bits ≠ BitSet.contains r (some y) a.bits)) ∧
    (∀ l, l ∉ s.collectedInvalidations → ∀ y removed,
      (s.notifications result.notified).count (.invalidation l, y, removed) =
        if BitSet.contains r (some y) a.bits = removed ∧
          BitSet.contains m.registry (some y) result.bits = !removed then s.invalidations.count l else 0) ∧
    (∀ l, l ∉ s.collectedChanges → ∀ y removed,
      (s.notifications result.notified).count (.change l, y, removed) =
        if BitSet.contains r (some y) a.bits = removed ∧
          BitSet.contains m.registry (some y) result.bits = !removed then s.changes.count l else 0) := by
  intro s hasListeners result
  have hsound : Observers.Sound s :=
    exec_invariant (fun a s h hk => h.step a hk) Observers.sound_start removals
  obtain ⟨is, cs, hholds, hi, hc⟩ := hsound
  obtain ⟨kind, ts, hreported⟩ := m.exists_reported a hasListeners hexact
  have hfire := SetListeners.fire_eq hholds
  have hinvalidation : ∀ l, s.listenerHelper.fireValueChangedEvent.count (.invalidation l) = is.count l := by
    intro l
    rw [hfire, List.count_append, List.count_map_of_injective is SetListener.invalidation
      (fun _ _ hab => SetListener.invalidation.inj hab) l, Nat.add_eq_left]
    apply List.count_eq_zero_of_not_mem
    simp
  have hchange : ∀ l, s.listenerHelper.fireValueChangedEvent.count (.change l) = cs.count l := by
    intro l
    rw [hfire, List.count_append, List.count_map_of_injective cs SetListener.change
      (fun _ _ hab => SetListener.change.inj hab) l, Nat.add_eq_right]
    apply List.count_eq_zero_of_not_mem
    simp
  refine ⟨hreported.flag_iff, ?_, ?_⟩
  · intro l hl y removed
    apply count_listener s hreported
    · rw [hinvalidation, hi.count hl]
    · intro hnone
      rw [← hi.count hl, (SetListeners.nil_of_not_hasListeners hholds hnone).1, List.count_nil]
  · intro l hl y removed
    apply count_listener s hreported
    · rw [hchange, hc.count hl]
    · intro hnone
      rw [← hc.count hl, (SetListeners.nil_of_not_hasListeners hholds hnone).2, List.count_nil]

/-- One of three listeners is removed, then an element is added to a set. -/
theorem changes_are_reported_to_two :
    let calls : List (ListenerStep Nat Nat) :=
      [.addChange 1, .addInvalidation 2, .addChange 3, .removeChange 1]
    let s := exec Observers.step calls Observers.start
    Guarded Observers.RemovesInPlace Observers.step calls Observers.start ∧
      (s.notifications (BitSet.add Registry.empty true (some "hover") []).notified).count
        (.change 3, "hover", false) = 1 := by
  intro calls s
  have hguarded : Guarded Observers.RemovesInPlace Observers.step calls Observers.start := by decide
  refine ⟨hguarded, ?_⟩
  have hreported := (changes_are_reported calls hguarded (ElementSet.empty Registry.empty)
    (.add (some "hover")) trivial).2.2 3 (by decide) "hover" false
  exact hreported.trans (by decide)

/-- The only listener stays in the helper after its removal; and adding a set with
a zero word at the end counts as a modification. -/
theorem removed_listener_is_notified :
    let s := exec Observers.step [.addChange 1, .removeChange 1] (Observers.start : Observers Nat Nat)
    s.changes = [] ∧
      s.notifications (BitSet.add Registry.empty s.listenerHelper.hasListeners (some "hover") []).notified =
        [(.change 1, "hover", false)] ∧
      (BitSet.addAll (Registry.numbered 65) false (some [1#64, 0#64]) [1#64]).modified = true ∧
      ∀ i, has (BitSet.addAll (Registry.numbered 65) false (some [1#64, 0#64]) [1#64]).bits i = has [1#64] i := by
  refine ⟨by decide, by decide, by decide, fun i => ?_⟩
  rw [BitSet.has_addAll]
  have hsame : has [1#64, 0#64] i = has [1#64] i := has_append_zeros [1#64] 1 i
  rw [hsame, Bool.or_self]

end Reports

end OpenJfx.Css
