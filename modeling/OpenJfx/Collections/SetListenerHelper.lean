import OpenJfx.Binding.ListenerSlots

/-! # `com.sun.javafx.collections.SetListenerHelper`

A call that removes a listener returns the helper to use from then on and may
change the `Generic` it was made on.  Both are results of the call here, because
a caller may keep its old reference.  Listeners do not call back, so no `Generic`
is locked when a call is made. -/
set_option autoImplicit false
namespace OpenJfx.Collections
open OpenJfx.Binding

inductive SetListenerHelper (I C : Type) where
  | null
  | singleInvalidation (listener : I)
  | singleChange (listener : C)
  | generic (invalidation change : Slots)
deriving DecidableEq, Repr

inductive SetListener (I C : Type) where
  | invalidation (l : I)
  | change (l : C)
deriving DecidableEq, Repr

/-- A helper with the listener arrays that have been created. -/
structure SetListeners (I C : Type) where
  helper : SetListenerHelper I C
  invalidationArrays : Heap I
  changeArrays : Heap C
deriving DecidableEq, Repr

namespace SetListeners
variable {I C : Type}

def start : SetListeners I C := ⟨.null, [], []⟩

def hasListeners (m : SetListeners I C) : Bool :=
  match m.helper with
  | .null => false
  | _ => true

def addInvalidation (collected : I → Bool) (listener : I) (m : SetListeners I C) : SetListeners I C :=
  match m.helper with
  | .null => { m with helper := .singleInvalidation listener }
  | .singleInvalidation this =>
      let (arrays, slots) := Slots.create [this, listener] m.invalidationArrays
      { m with helper := .generic slots Slots.empty, invalidationArrays := arrays }
  | .singleChange this =>
      let (invalidationArrays, invalidation) := Slots.create [listener] m.invalidationArrays
      let (changeArrays, change) := Slots.create [this] m.changeArrays
      ⟨.generic invalidation change, invalidationArrays, changeArrays⟩
  | .generic invalidation change =>
      let (arrays, slots) := invalidation.add false collected listener m.invalidationArrays
      { m with helper := .generic slots change, invalidationArrays := arrays }

def addChange (collected : C → Bool) (listener : C) (m : SetListeners I C) : SetListeners I C :=
  match m.helper with
  | .null => { m with helper := .singleChange listener }
  | .singleInvalidation this =>
      let (invalidationArrays, invalidation) := Slots.create [this] m.invalidationArrays
      let (changeArrays, change) := Slots.create [listener] m.changeArrays
      ⟨.generic invalidation change, invalidationArrays, changeArrays⟩
  | .singleChange this =>
      let (arrays, slots) := Slots.create [this, listener] m.changeArrays
      { m with helper := .generic Slots.empty slots, changeArrays := arrays }
  | .generic invalidation change =>
      let (arrays, slots) := change.add false collected listener m.changeArrays
      { m with helper := .generic invalidation slots, changeArrays := arrays }

def single {L : Type} (make : L → SetListenerHelper I C) (slot : Option (Option L)) : SetListenerHelper I C :=
  match slot with
  | some (some listener) => make listener
  | _ => .null

/-- `removeListener(InvalidationListener)`: the helper that is returned, and the
helper the call was made on. -/
def removeInvalidation [BEq I] (listener : I) (m : SetListeners I C) :
    SetListenerHelper I C × SetListeners I C :=
  match m.helper with
  | .null => (.null, m)
  | .singleInvalidation this => (if listener == this then .null else m.helper, m)
  | .singleChange _ => (m.helper, m)
  | .generic invalidation change =>
      match invalidation.indexOf listener m.invalidationArrays with
      | none => (m.helper, m)
      | some index =>
          if invalidation.size = 1 then
            if change.size = 1 then (single .singleChange (change.listeners m.changeArrays)[0]?, m)
            else (.generic Slots.empty change, { m with helper := .generic Slots.empty change })
          else if invalidation.size = 2 ∧ change.size = 0 then
            (single .singleInvalidation (invalidation.listeners m.invalidationArrays)[1 - index]?, m)
          else
            let (arrays, slots) := invalidation.removeAt false index m.invalidationArrays
            (.generic slots change, { m with helper := .generic slots change, invalidationArrays := arrays })

def removeChange [BEq C] (listener : C) (m : SetListeners I C) : SetListenerHelper I C × SetListeners I C :=
  match m.helper with
  | .null => (.null, m)
  | .singleInvalidation _ => (m.helper, m)
  | .singleChange this => (if listener == this then .null else m.helper, m)
  | .generic invalidation change =>
      match change.indexOf listener m.changeArrays with
      | none => (m.helper, m)
      | some index =>
          if change.size = 1 then
            if invalidation.size = 1 then
              (single .singleInvalidation (invalidation.listeners m.invalidationArrays)[0]?, m)
            else (.generic invalidation Slots.empty, { m with helper := .generic invalidation Slots.empty })
          else if change.size = 2 ∧ invalidation.size = 0 then
            (single .singleChange (change.listeners m.changeArrays)[1 - index]?, m)
          else
            let (arrays, slots) := change.removeAt false index m.changeArrays
            (.generic invalidation slots, { m with helper := .generic invalidation slots, changeArrays := arrays })

/-- `fireValueChangedEvent`: the listeners that are called, in order. -/
def fireValueChangedEvent (m : SetListeners I C) : List (SetListener I C) :=
  match m.helper with
  | .null => []
  | .singleInvalidation listener => [.invalidation listener]
  | .singleChange listener => [.change listener]
  | .generic invalidation change =>
      ((invalidation.registered m.invalidationArrays).filterMap id).map .invalidation ++
        ((change.registered m.changeArrays).filterMap id).map .change

/-! ## The listeners that a helper holds -/

/-- The invalidation listeners `is` and the change listeners `cs`. -/
def Holds (m : SetListeners I C) (is : List I) (cs : List C) : Prop :=
  match m.helper with
  | .null => is = [] ∧ cs = []
  | .singleInvalidation listener => is = [listener] ∧ cs = []
  | .singleChange listener => is = [] ∧ cs = [listener]
  | .generic invalidation change =>
      Slots.Represents m.invalidationArrays invalidation is ∧ Slots.Represents m.changeArrays change cs

/-- A removal changes the helper itself: it is a `Generic` and not one that goes
over into a single helper. -/
def shrinks (m : SetListeners I C) : Bool :=
  match m.helper with
  | .generic invalidation change => decide (invalidation.size + change.size ≠ 2)
  | _ => false

theorem holds_start : Holds (start : SetListeners I C) [] [] := ⟨rfl, rfl⟩

theorem fire_eq {m : SetListeners I C} {is : List I} {cs : List C} (h : Holds m is cs) :
    m.fireValueChangedEvent = is.map .invalidation ++ cs.map .change := by
  obtain ⟨helper, arraysI, arraysC⟩ := m
  cases helper with
  | null =>
    obtain ⟨rfl, rfl⟩ := h
    rfl
  | singleInvalidation listener =>
    obtain ⟨rfl, rfl⟩ := h
    rfl
  | singleChange listener =>
    obtain ⟨rfl, rfl⟩ := h
    rfl
  | generic invalidation change =>
    obtain ⟨hi, hc⟩ := h
    have hreduce : ∀ {L : Type} (ls : List L), (ls.map some).filterMap id = ls := by
      intro L ls
      rw [List.filterMap_map]
      exact List.filterMap_some
    rw [fireValueChangedEvent]
    dsimp only
    rw [hi.registered_eq, hc.registered_eq, hreduce, hreduce]

theorem nil_of_not_hasListeners {m : SetListeners I C} {is : List I} {cs : List C} (h : Holds m is cs)
    (hnone : m.hasListeners = false) : is = [] ∧ cs = [] := by
  obtain ⟨helper, arraysI, arraysC⟩ := m
  cases helper with
  | null => exact h
  | singleInvalidation listener => cases hnone
  | singleChange listener => cases hnone
  | generic invalidation change => cases hnone

theorem addInvalidation_holds {m : SetListeners I C} {is : List I} {cs : List C} (h : Holds m is cs)
    (collected : I → Bool) (l : I) :
    ∃ kept, (kept = is ∨ kept = is.filter (fun l => !collected l)) ∧
      Holds (m.addInvalidation collected l) (kept ++ [l]) cs := by
  obtain ⟨helper, arraysI, arraysC⟩ := m
  cases helper with
  | null =>
    obtain ⟨rfl, rfl⟩ := h
    exact ⟨[], Or.inl rfl, rfl, rfl⟩
  | singleInvalidation this =>
    obtain ⟨rfl, rfl⟩ := h
    exact ⟨[this], Or.inl rfl, Slots.represents_create [this, l] arraysI, Slots.represents_empty arraysC⟩
  | singleChange this =>
    obtain ⟨rfl, rfl⟩ := h
    exact ⟨[], Or.inl rfl, Slots.represents_create [l] arraysI, Slots.represents_create [this] arraysC⟩
  | generic invalidation change =>
    obtain ⟨hi, hc⟩ := h
    obtain ⟨kept, hkept, hadd⟩ := Slots.add_keeps hi false collected l
    exact ⟨kept, hkept, hadd, hc⟩

theorem addChange_holds {m : SetListeners I C} {is : List I} {cs : List C} (h : Holds m is cs)
    (collected : C → Bool) (l : C) :
    ∃ kept, (kept = cs ∨ kept = cs.filter (fun l => !collected l)) ∧
      Holds (m.addChange collected l) is (kept ++ [l]) := by
  obtain ⟨helper, arraysI, arraysC⟩ := m
  cases helper with
  | null =>
    obtain ⟨rfl, rfl⟩ := h
    exact ⟨[], Or.inl rfl, rfl, rfl⟩
  | singleInvalidation this =>
    obtain ⟨rfl, rfl⟩ := h
    exact ⟨[], Or.inl rfl, Slots.represents_create [this] arraysI, Slots.represents_create [l] arraysC⟩
  | singleChange this =>
    obtain ⟨rfl, rfl⟩ := h
    exact ⟨[this], Or.inl rfl, Slots.represents_empty arraysI, Slots.represents_create [this, l] arraysC⟩
  | generic invalidation change =>
    obtain ⟨hi, hc⟩ := h
    obtain ⟨kept, hkept, hadd⟩ := Slots.add_keeps hc false collected l
    exact ⟨kept, hkept, hi, hadd⟩

/-! ## Removal -/

theorem findIdx_none_iff {L : Type} [DecidableEq L] {ls : List L} {l : L} :
    ls.findIdx? (fun x => l == x) = none ↔ l ∉ ls := by
  rw [List.findIdx?_eq_none_iff]
  constructor
  · intro hnone hmem
    simpa using hnone l hmem
  · intro hnot x hx
    have hne : l ≠ x := fun heq => hnot (heq ▸ hx)
    simpa using hne

theorem eraseIdx_findIdx {L : Type} [DecidableEq L] {ls : List L} {l : L} {index : Nat}
    (h : ls.findIdx? (fun x => l == x) = some index) : ls.eraseIdx index = ls.erase l := by
  rw [List.erase_eq_eraseIdx, List.idxOf?]
  have hfun : (fun x => x == l) = (fun x => l == x) := by
    funext x
    rw [Bool.eq_iff_iff, beq_iff_eq, beq_iff_eq]
    exact eq_comm
  rw [hfun, h]

theorem removeInvalidation_holds [DecidableEq I] {m : SetListeners I C} {is : List I} {cs : List C} (h : Holds m is cs)
    (l : I) : Holds (m.removeInvalidation l).2 (if m.shrinks then is.erase l else is) cs := by
  obtain ⟨helper, arraysI, arraysC⟩ := m
  cases helper with
  | null => exact h
  | singleInvalidation this => exact h
  | singleChange this => exact h
  | generic invalidation change =>
    obtain ⟨hi, hc⟩ := h
    rw [removeInvalidation]
    dsimp only
    rw [Slots.indexOf_represents hi]
    cases hindex : is.findIdx? (fun x => l == x) with
    | none =>
      dsimp only
      rw [List.erase_of_not_mem (findIdx_none_iff.mp hindex), ite_self]
      exact ⟨hi, hc⟩
    | some index =>
      have hlt := (List.findIdx?_eq_some_iff_getElem.mp hindex).1
      have herase := eraseIdx_findIdx hindex
      have hsize := hi.1
      rw [shrinks]
      dsimp only
      by_cases hone : invalidation.size = 1
      · rw [if_pos hone]
        by_cases hother : change.size = 1
        · rw [if_pos hother, if_neg (by simp [hone, hother])]
          exact ⟨hi, hc⟩
        · rw [if_neg hother, if_pos (by simp [hone]; omega), ← herase]
          have hnil : is.eraseIdx index = [] := by
            rw [← List.length_eq_zero_iff, List.length_eraseIdx_of_lt hlt]
            omega
          rw [hnil]
          exact ⟨Slots.represents_empty arraysI, hc⟩
      · rw [if_neg hone]
        by_cases htwo : invalidation.size = 2 ∧ change.size = 0
        · rw [if_pos htwo, if_neg (by simp [htwo])]
          exact ⟨hi, hc⟩
        · rw [if_neg htwo, if_pos (by apply decide_eq_true; omega), ← herase]
          exact ⟨Slots.removeAt_represents hi false hlt, hc⟩

theorem removeChange_holds [DecidableEq C] {m : SetListeners I C} {is : List I} {cs : List C} (h : Holds m is cs)
    (l : C) : Holds (m.removeChange l).2 is (if m.shrinks then cs.erase l else cs) := by
  obtain ⟨helper, arraysI, arraysC⟩ := m
  cases helper with
  | null => exact h
  | singleInvalidation this => exact h
  | singleChange this => exact h
  | generic invalidation change =>
    obtain ⟨hi, hc⟩ := h
    rw [removeChange]
    dsimp only
    rw [Slots.indexOf_represents hc]
    cases hindex : cs.findIdx? (fun x => l == x) with
    | none =>
      dsimp only
      rw [List.erase_of_not_mem (findIdx_none_iff.mp hindex), ite_self]
      exact ⟨hi, hc⟩
    | some index =>
      have hlt := (List.findIdx?_eq_some_iff_getElem.mp hindex).1
      have herase := eraseIdx_findIdx hindex
      have hsize := hc.1
      rw [shrinks]
      dsimp only
      by_cases hone : change.size = 1
      · rw [if_pos hone]
        by_cases hother : invalidation.size = 1
        · rw [if_pos hother, if_neg (by simp [hone, hother])]
          exact ⟨hi, hc⟩
        · rw [if_neg hother, if_pos (by simp [hone]; omega), ← herase]
          have hnil : cs.eraseIdx index = [] := by
            rw [← List.length_eq_zero_iff, List.length_eraseIdx_of_lt hlt]
            omega
          rw [hnil]
          exact ⟨hi, Slots.represents_empty arraysC⟩
      · rw [if_neg hone]
        by_cases htwo : change.size = 2 ∧ invalidation.size = 0
        · rw [if_pos htwo, if_neg (by simp [htwo])]
          exact ⟨hi, hc⟩
        · rw [if_neg htwo, if_pos (by apply decide_eq_true; omega), ← herase]
          exact ⟨hi, Slots.removeAt_represents hc false hlt⟩

end SetListeners
end OpenJfx.Collections
