import OpenJfx.Binding.ListenerSlots
import OpenJfx.Lib.Run

/-! # `com.sun.javafx.binding.ExpressionHelper`: registration

An observable keeps its listeners in a helper, which is null, one of the two
single helpers or a `Generic`; every call that registers or removes a listener
returns the helper to use from then on.  `Generic` helpers are objects, because
a notification that is in progress keeps using the one it was started on.

`I` and `C` are the invalidation and the change listeners, `V` the values; null
is `none`.  `value` is what `observable.getValue()` returns. -/
set_option autoImplicit false
namespace OpenJfx.Binding
open OpenJfx.Lib

structure Generic (V : Type) where
  invalidation : Slots
  change : Slots
  locked : Bool
  currentValue : Option V
deriving DecidableEq, Repr

inductive Helper (I C V : Type) where
  | null
  | singleInvalidation (listener : I)
  | singleChange (listener : C) (currentValue : Option V)
  | generic (ref : Nat)
deriving DecidableEq, Repr

/-- The helper of one observable, with all objects it has created. -/
structure ExpressionHelper (I C V : Type) where
  helper : Helper I C V
  generics : List (Generic V)
  invalidationArrays : Heap I
  changeArrays : Heap C
deriving DecidableEq, Repr

namespace ExpressionHelper
variable {I C V : Type}

def start : ExpressionHelper I C V := ⟨.null, [], [], []⟩

/-- `new Generic(...)`, for the invalidation listeners `is` and the change
listeners `cs`; there are at most two of them. -/
def newGeneric (is : List I) (cs : List C) (currentValue : Option V) (m : ExpressionHelper I C V) :
    ExpressionHelper I C V :=
  let (invalidationArrays, invalidation) :=
    if is = [] then (m.invalidationArrays, Slots.empty) else Slots.create is m.invalidationArrays
  let (changeArrays, change) := if cs = [] then (m.changeArrays, Slots.empty) else Slots.create cs m.changeArrays
  { helper := .generic m.generics.length
    generics := m.generics ++ [⟨invalidation, change, false, currentValue⟩]
    invalidationArrays := invalidationArrays
    changeArrays := changeArrays }

/-- The fields of the current `Generic`, if there is one. -/
def current (m : ExpressionHelper I C V) : Option (Generic V) :=
  match m.helper with
  | .generic ref => m.generics[ref]?
  | _ => none

/-- A store into fields of a `Generic`. -/
def modifyGeneric (ref : Nat) (f : Generic V → Generic V) (m : ExpressionHelper I C V) : ExpressionHelper I C V :=
  { m with generics := m.generics.modify ref f }

/-- `addListener(InvalidationListener)`; `collected` tells the weak listeners
whose targets are gone. -/
def addInvalidation (collected : I → Bool) (value : Option V) (listener : I) (m : ExpressionHelper I C V) :
    ExpressionHelper I C V :=
  match m.helper with
  | .null => { m with helper := .singleInvalidation listener }
  | .singleInvalidation this => newGeneric [this, listener] [] none m
  | .singleChange this _ => newGeneric [listener] [this] value m
  | .generic ref =>
      match m.generics[ref]? with
      | none => m
      | some g =>
          let (arrays, slots) := g.invalidation.add g.locked collected listener m.invalidationArrays
          { m with
            invalidationArrays := arrays
            generics := m.generics.set ref { g with invalidation := slots } }

/-- `addListener(ChangeListener)`. -/
def addChange (collected : C → Bool) (value : Option V) (listener : C) (m : ExpressionHelper I C V) :
    ExpressionHelper I C V :=
  match m.helper with
  | .null => { m with helper := .singleChange listener value }
  | .singleInvalidation this => newGeneric [this] [listener] value m
  | .singleChange this _ => newGeneric [] [this, listener] value m
  | .generic ref =>
      match m.generics[ref]? with
      | none => m
      | some g =>
          let (arrays, slots) := g.change.add g.locked collected listener m.changeArrays
          { m with
            changeArrays := arrays
            generics := m.generics.set ref { g with
              change := slots
              currentValue := if slots.size = 1 then value else g.currentValue } }

/-- The helper for the one listener that is left, read out of its slot. -/
def single {L : Type} (make : L → Helper I C V) (slot : Option (Option L)) (m : ExpressionHelper I C V) :
    ExpressionHelper I C V :=
  match slot with
  | some (some listener) => { m with helper := make listener }
  | _ => m

/-- `removeListener(InvalidationListener)`. -/
def removeInvalidation [BEq I] (value : Option V) (listener : I) (m : ExpressionHelper I C V) :
    ExpressionHelper I C V :=
  match m.helper with
  | .null => m
  | .singleInvalidation this => if listener == this then { m with helper := .null } else m
  | .singleChange _ _ => m
  | .generic ref =>
      match m.generics[ref]? with
      | none => m
      | some g =>
          match g.invalidation.indexOf listener m.invalidationArrays with
          | none => m
          | some index =>
              if g.invalidation.size = 1 then
                if g.change.size = 1 then
                  single (fun c => .singleChange c value) (g.change.listeners m.changeArrays)[0]? m
                else { m with generics := m.generics.set ref { g with invalidation := Slots.empty } }
              else if g.invalidation.size = 2 ∧ g.change.size = 0 then
                single .singleInvalidation (g.invalidation.listeners m.invalidationArrays)[1 - index]? m
              else
                let (arrays, slots) := g.invalidation.removeAt g.locked index m.invalidationArrays
                { m with
                  invalidationArrays := arrays
                  generics := m.generics.set ref { g with invalidation := slots } }

/-- `removeListener(ChangeListener)`. -/
def removeChange [BEq C] (value : Option V) (listener : C) (m : ExpressionHelper I C V) :
    ExpressionHelper I C V :=
  match m.helper with
  | .null => m
  | .singleInvalidation _ => m
  | .singleChange this _ => if listener == this then { m with helper := .null } else m
  | .generic ref =>
      match m.generics[ref]? with
      | none => m
      | some g =>
          match g.change.indexOf listener m.changeArrays with
          | none => m
          | some index =>
              if g.change.size = 1 then
                if g.invalidation.size = 1 then
                  single .singleInvalidation (g.invalidation.listeners m.invalidationArrays)[0]? m
                else { m with generics := m.generics.set ref { g with change := Slots.empty } }
              else if g.change.size = 2 ∧ g.invalidation.size = 0 then
                single (fun c => .singleChange c value) (g.change.listeners m.changeArrays)[1 - index]? m
              else
                let (arrays, slots) := g.change.removeAt g.locked index m.changeArrays
                { m with
                  changeArrays := arrays
                  generics := m.generics.set ref { g with change := slots } }

def invalidationListeners (m : ExpressionHelper I C V) : List (Option I) :=
  match m.helper with
  | .null => []
  | .singleInvalidation listener => [some listener]
  | .singleChange _ _ => []
  | .generic ref =>
      match m.generics[ref]? with
      | none => []
      | some g => g.invalidation.registered m.invalidationArrays

def changeListeners (m : ExpressionHelper I C V) : List (Option C) :=
  match m.helper with
  | .null => []
  | .singleInvalidation _ => []
  | .singleChange listener _ => [some listener]
  | .generic ref =>
      match m.generics[ref]? with
      | none => []
      | some g => g.change.registered m.changeArrays

/-- What `addListener` keeps of the invalidation listeners `is`: all of them, but for
weak listeners that were collected when the array is compacted. -/
def keptInvalidation (collected : I → Bool) (is : List I) (m : ExpressionHelper I C V) : List I :=
  if m.current.any (fun g => g.invalidation.purges g.locked m.invalidationArrays) then
    is.filter (fun l => !collected l)
  else is

def keptChange (collected : C → Bool) (cs : List C) (m : ExpressionHelper I C V) : List C :=
  if m.current.any (fun g => g.change.purges g.locked m.changeArrays) then cs.filter (fun l => !collected l) else cs

/-! ## The helper holds two lists of listeners -/

/-- The invalidation listeners are `is` and the change listeners `cs`.  A
`Generic` is in use as soon as there are `least` listeners. -/
def Holds (least : Nat) (is : List I) (cs : List C) (m : ExpressionHelper I C V) : Prop :=
  match m.helper with
  | .null => is = [] ∧ cs = []
  | .singleInvalidation listener => is = [listener] ∧ cs = []
  | .singleChange listener _ => is = [] ∧ cs = [listener]
  | .generic ref => least ≤ is.length + cs.length ∧ ∃ g, m.generics[ref]? = some g ∧
      g.invalidation.Represents m.invalidationArrays is ∧ g.change.Represents m.changeArrays cs

section Holds
variable {least : Nat} {is : List I} {cs : List C} {m : ExpressionHelper I C V}

theorem newGeneric_holds (hleast : least ≤ is.length + cs.length) (v : Option V) :
    Holds least is cs (newGeneric is cs v m) := by
  have hg : (newGeneric is cs v m).generics[m.generics.length]? = some ⟨
      (if is = [] then (m.invalidationArrays, Slots.empty) else Slots.create is m.invalidationArrays).2,
      (if cs = [] then (m.changeArrays, Slots.empty) else Slots.create cs m.changeArrays).2, false, v⟩ := by
    rw [newGeneric]
    dsimp only
    rw [List.getElem?_append_right (Nat.le_refl _), Nat.sub_self, List.getElem?_cons_zero]
  refine ⟨hleast, _, hg, ?_, ?_⟩
  · rw [newGeneric]
    dsimp only
    split
    · rename_i hnil
      rw [hnil]
      exact Slots.represents_empty _
    · exact Slots.represents_create _ _
  · rw [newGeneric]
    dsimp only
    split
    · rename_i hnil
      rw [hnil]
      exact Slots.represents_empty _
    · exact Slots.represents_create _ _

theorem keptInvalidation_eq (collected : I → Bool) : m.keptInvalidation collected is = is ∨
    m.keptInvalidation collected is = is.filter (fun l => !collected l) := by
  rw [keptInvalidation]
  split
  · exact Or.inr rfl
  · exact Or.inl rfl

theorem keptChange_eq (collected : C → Bool) : m.keptChange collected cs = cs ∨
    m.keptChange collected cs = cs.filter (fun l => !collected l) := by
  rw [keptChange]
  split
  · exact Or.inr rfl
  · exact Or.inl rfl

theorem addInvalidation_holds {collected : I → Bool} (hl : least = 0 ∨ least = 2 ∧ ∀ x, collected x = false)
    (h : Holds least is cs m) (value : Option V) (l : I) :
    Holds least (m.keptInvalidation collected is ++ [l]) cs (addInvalidation collected value l m) := by
  have hkept := @keptInvalidation_eq I C V is m collected
  obtain ⟨helper, generics, arraysI, arraysC⟩ := m
  cases helper with
  | null =>
    obtain ⟨rfl, rfl⟩ := h
    exact ⟨rfl, rfl⟩
  | singleInvalidation this =>
    obtain ⟨rfl, rfl⟩ := h
    exact newGeneric_holds (by simp [keptInvalidation, current]; omega) none
  | singleChange this v =>
    obtain ⟨rfl, rfl⟩ := h
    exact newGeneric_holds (by simp; omega) value
  | generic ref =>
    obtain ⟨hleast, g, hg, hi, hc⟩ := h
    have hi' := Slots.add_represents hi g.locked collected l
    have hleast' : least ≤ (keptInvalidation collected is (⟨.generic ref, generics, arraysI, arraysC⟩ :
        ExpressionHelper I C V) ++ [l]).length + cs.length := by
      rcases hl with hzero | ⟨-, hnone⟩
      · omega
      · have hsame := Slots.kept_of_not_collected hnone hkept
        rw [hsame, List.length_append]
        omega
    dsimp only at hg hi'
    have hkeep : keptInvalidation collected is (⟨.generic ref, generics, arraysI, arraysC⟩ : ExpressionHelper I C V) =
        if g.invalidation.purges g.locked arraysI then is.filter (fun l => !collected l) else is := by
      simp only [keptInvalidation, current, hg, Option.any_some]
    rw [hkeep] at hleast' ⊢
    rw [addInvalidation]
    dsimp only
    rw [hg]
    exact ⟨hleast', _, List.getElem?_set_self (List.getElem?_eq_some_iff.mp hg).1, hi', hc⟩

theorem addChange_holds {collected : C → Bool} (hl : least = 0 ∨ least = 2 ∧ ∀ x, collected x = false)
    (h : Holds least is cs m) (value : Option V) (l : C) :
    Holds least is (m.keptChange collected cs ++ [l]) (addChange collected value l m) := by
  have hkept := @keptChange_eq I C V cs m collected
  obtain ⟨helper, generics, arraysI, arraysC⟩ := m
  cases helper with
  | null =>
    obtain ⟨rfl, rfl⟩ := h
    exact ⟨rfl, rfl⟩
  | singleInvalidation this =>
    obtain ⟨rfl, rfl⟩ := h
    exact newGeneric_holds (by simp; omega) value
  | singleChange this v =>
    obtain ⟨rfl, rfl⟩ := h
    exact newGeneric_holds (by simp [keptChange, current]; omega) value
  | generic ref =>
    obtain ⟨hleast, g, hg, hi, hc⟩ := h
    have hc' := Slots.add_represents hc g.locked collected l
    have hleast' : least ≤ is.length + (keptChange collected cs (⟨.generic ref, generics, arraysI, arraysC⟩ :
        ExpressionHelper I C V) ++ [l]).length := by
      rcases hl with hzero | ⟨-, hnone⟩
      · omega
      · have hsame := Slots.kept_of_not_collected hnone hkept
        rw [hsame, List.length_append]
        omega
    dsimp only at hg hc'
    have hkeep : keptChange collected cs (⟨.generic ref, generics, arraysI, arraysC⟩ : ExpressionHelper I C V) =
        if g.change.purges g.locked arraysC then cs.filter (fun l => !collected l) else cs := by
      simp only [keptChange, current, hg, Option.any_some]
    rw [hkeep] at hleast' ⊢
    rw [addChange]
    dsimp only
    rw [hg]
    exact ⟨hleast', _, List.getElem?_set_self (List.getElem?_eq_some_iff.mp hg).1, hi, hc'⟩

theorem listeners_getElem {L : Type} {heap : Heap L} {s : Slots} {ls : List L} (h : s.Represents heap ls) {i : Nat} {l : L}
    (hl : ls[i]? = some l) : (s.listeners heap)[i]? = some (some l) := by
  have hreg := h.registered_eq
  rw [Slots.registered, h.1] at hreg
  have hi := (List.getElem?_eq_some_iff.mp hl).1
  rw [← List.getElem?_take_of_lt hi, hreg, List.getElem?_map, hl]
  rfl

theorem other_of_two {L : Type} {a b : L} {index : Nat} (h : index < [a, b].length) :
    ∃ x, [a, b][1 - index]? = some x ∧ [a, b].eraseIdx index = [x] := by
  rcases Nat.lt_succ_iff_lt_or_eq.mp h with hfirst | rfl
  · rw [Nat.lt_one_iff.mp hfirst]
    exact ⟨b, rfl, rfl⟩
  · exact ⟨a, rfl, rfl⟩

theorem removeInvalidation_holds [BEq I] (hl : least = 0 ∨ least = 2) (h : Holds least is cs m) (value : Option V)
    (l : I) : Holds least (is.eraseP (fun x => l == x)) cs (removeInvalidation value l m) := by
  obtain ⟨helper, generics, arraysI, arraysC⟩ := m
  cases helper with
  | null =>
    obtain ⟨rfl, rfl⟩ := h
    exact ⟨rfl, rfl⟩
  | singleInvalidation this =>
    obtain ⟨rfl, rfl⟩ := h
    rw [removeInvalidation]
    dsimp only
    split
    · rename_i heq
      rw [List.eraseP_cons_of_pos heq]
      exact ⟨rfl, rfl⟩
    · rename_i hne
      rw [List.eraseP_cons_of_neg hne]
      exact ⟨rfl, rfl⟩
  | singleChange this v =>
    obtain ⟨rfl, rfl⟩ := h
    exact ⟨rfl, rfl⟩
  | generic ref =>
    obtain ⟨hleast, g, hg, hi, hc⟩ := h
    have href := (List.getElem?_eq_some_iff.mp hg).1
    dsimp only at hg hi hc href
    rw [removeInvalidation, List.eraseP_eq_eraseIdx]
    dsimp only
    rw [hg]
    dsimp only
    rw [Slots.indexOf_represents hi]
    cases hindex : is.findIdx? (fun x => l == x) with
    | none => exact ⟨hleast, g, hg, hi, hc⟩
    | some index =>
      have hlt : index < is.length := (List.findIdx?_eq_some_iff_getElem.mp hindex).1
      have hsizes : g.invalidation.size = is.length ∧ g.change.size = cs.length := ⟨hi.1, hc.1⟩
      have hlen : (is.eraseIdx index).length = is.length - 1 := List.length_eraseIdx_of_lt hlt
      dsimp only
      split
      · have hnone : is.eraseIdx index = [] := List.eq_nil_of_length_eq_zero (by omega)
        split
        · obtain ⟨c, hc1⟩ : ∃ c, cs = [c] := List.length_eq_one_iff.mp (by omega)
          rw [listeners_getElem hc (by rw [hc1]; rfl), hnone, hc1]
          exact ⟨rfl, rfl⟩
        · rw [hnone]
          exact ⟨by rw [List.length_nil]; omega, _, List.getElem?_set_self href, Slots.represents_empty _, hc⟩
      · split
        · have hcs : cs = [] := List.eq_nil_of_length_eq_zero (by omega)
          obtain ⟨a, b, rfl⟩ : ∃ a b, is = [a, b] := List.length_eq_two.mp (by omega)
          obtain ⟨x, hx, herase⟩ := other_of_two hlt
          rw [listeners_getElem hi hx, herase, hcs]
          exact ⟨rfl, rfl⟩
        · exact ⟨by omega, _, List.getElem?_set_self href, Slots.removeAt_represents hi _ hlt, hc⟩

theorem removeChange_holds [BEq C] (hl : least = 0 ∨ least = 2) (h : Holds least is cs m) (value : Option V)
    (l : C) : Holds least is (cs.eraseP (fun x => l == x)) (removeChange value l m) := by
  obtain ⟨helper, generics, arraysI, arraysC⟩ := m
  cases helper with
  | null =>
    obtain ⟨rfl, rfl⟩ := h
    exact ⟨rfl, rfl⟩
  | singleInvalidation this =>
    obtain ⟨rfl, rfl⟩ := h
    exact ⟨rfl, rfl⟩
  | singleChange this v =>
    obtain ⟨rfl, rfl⟩ := h
    rw [removeChange]
    dsimp only
    split
    · rename_i heq
      rw [List.eraseP_cons_of_pos heq]
      exact ⟨rfl, rfl⟩
    · rename_i hne
      rw [List.eraseP_cons_of_neg hne]
      exact ⟨rfl, rfl⟩
  | generic ref =>
    obtain ⟨hleast, g, hg, hi, hc⟩ := h
    have href := (List.getElem?_eq_some_iff.mp hg).1
    dsimp only at hg hi hc href
    rw [removeChange, List.eraseP_eq_eraseIdx]
    dsimp only
    rw [hg]
    dsimp only
    rw [Slots.indexOf_represents hc]
    cases hindex : cs.findIdx? (fun x => l == x) with
    | none => exact ⟨hleast, g, hg, hi, hc⟩
    | some index =>
      have hlt : index < cs.length := (List.findIdx?_eq_some_iff_getElem.mp hindex).1
      have hsizes : g.invalidation.size = is.length ∧ g.change.size = cs.length := ⟨hi.1, hc.1⟩
      have hlen : (cs.eraseIdx index).length = cs.length - 1 := List.length_eraseIdx_of_lt hlt
      dsimp only
      split
      · have hnone : cs.eraseIdx index = [] := List.eq_nil_of_length_eq_zero (by omega)
        split
        · obtain ⟨i, hi1⟩ : ∃ i, is = [i] := List.length_eq_one_iff.mp (by omega)
          rw [listeners_getElem hi (by rw [hi1]; rfl), hnone, hi1]
          exact ⟨rfl, rfl⟩
        · rw [hnone]
          exact ⟨by rw [List.length_nil]; omega, _, List.getElem?_set_self href, hi, Slots.represents_empty _⟩
      · split
        · have his : is = [] := List.eq_nil_of_length_eq_zero (by omega)
          obtain ⟨a, b, rfl⟩ : ∃ a b, cs = [a, b] := List.length_eq_two.mp (by omega)
          obtain ⟨x, hx, herase⟩ := other_of_two hlt
          rw [listeners_getElem hc hx, herase, his]
          exact ⟨rfl, rfl⟩
        · exact ⟨by omega, _, List.getElem?_set_self href, hi, Slots.removeAt_represents hc _ hlt⟩

theorem modifyGeneric_holds {ref : Nat} {f : Generic V → Generic V} (hf : ∀ g, (f g).invalidation = g.invalidation)
    (hf' : ∀ g, (f g).change = g.change) (h : Holds least is cs m) : Holds least is cs (m.modifyGeneric ref f) := by
  obtain ⟨helper, generics, arraysI, arraysC⟩ := m
  cases helper with
  | null => exact h
  | singleInvalidation this => exact h
  | singleChange this v => exact h
  | generic current =>
    obtain ⟨hleast, g, hg, hi, hc⟩ := h
    by_cases heq : ref = current
    · subst heq
      refine ⟨hleast, f g, ?_, by rw [hf]; exact hi, by rw [hf']; exact hc⟩
      rw [modifyGeneric]
      dsimp only
      rw [List.getElem?_modify_eq, hg]
      rfl
    · refine ⟨hleast, g, ?_, hi, hc⟩
      rw [modifyGeneric]
      dsimp only
      rw [List.getElem?_modify, hg]
      simp [heq]

theorem Holds.invalidationListeners_eq (h : Holds least is cs m) : m.invalidationListeners = is.map some := by
  obtain ⟨helper, generics, arraysI, arraysC⟩ := m
  cases helper with
  | null =>
    obtain ⟨rfl, rfl⟩ := h
    rfl
  | singleInvalidation this =>
    obtain ⟨rfl, rfl⟩ := h
    rfl
  | singleChange this v =>
    obtain ⟨rfl, rfl⟩ := h
    rfl
  | generic ref =>
    obtain ⟨-, g, hg, hi, -⟩ := h
    dsimp only at hg
    rw [invalidationListeners]
    dsimp only
    rw [hg]
    exact hi.registered_eq

theorem Holds.changeListeners_eq (h : Holds least is cs m) : m.changeListeners = cs.map some := by
  obtain ⟨helper, generics, arraysI, arraysC⟩ := m
  cases helper with
  | null =>
    obtain ⟨rfl, rfl⟩ := h
    rfl
  | singleInvalidation this =>
    obtain ⟨rfl, rfl⟩ := h
    rfl
  | singleChange this v =>
    obtain ⟨rfl, rfl⟩ := h
    rfl
  | generic ref =>
    obtain ⟨-, g, hg, -, hc⟩ := h
    dsimp only at hg
    rw [changeListeners]
    dsimp only
    rw [hg]
    exact hc.registered_eq

theorem Holds.null_iff (hleast : 0 < least) (h : Holds least is cs m) : m.helper = .null ↔ is = [] ∧ cs = [] := by
  obtain ⟨helper, generics, arraysI, arraysC⟩ := m
  cases helper with
  | null => exact ⟨fun _ => h, fun _ => rfl⟩
  | singleInvalidation this =>
    obtain ⟨rfl, rfl⟩ := h
    simp
  | singleChange this v =>
    obtain ⟨rfl, rfl⟩ := h
    simp
  | generic ref =>
    obtain ⟨hlen, -⟩ := h
    constructor
    · intro hnull
      cases hnull
    · rintro ⟨rfl, rfl⟩
      rw [List.length_nil, List.length_nil] at hlen
      omega

end Holds

/-! ## Sequences of registrations -/

/-- A call of `addListener` or `removeListener`, with the value that the
observable has at that time. -/
inductive Registration (I C V : Type) where
  | addInvalidation (value : Option V) (listener : I)
  | removeInvalidation (value : Option V) (listener : I)
  | addChange (value : Option V) (listener : C)
  | removeChange (value : Option V) (listener : C)
deriving DecidableEq, Repr

/-- No weak listener has been collected. -/
def register [BEq I] [BEq C] : Registration I C V → ExpressionHelper I C V → ExpressionHelper I C V
  | .addInvalidation value listener => addInvalidation (fun _ => false) value listener
  | .removeInvalidation value listener => removeInvalidation value listener
  | .addChange value listener => addChange (fun _ => false) value listener
  | .removeChange value listener => removeChange value listener

/-- The two lists that the calls are meant to maintain. -/
def Registration.apply [BEq I] [BEq C] : Registration I C V → List I × List C → List I × List C
  | .addInvalidation _ listener, (is, cs) => (is ++ [listener], cs)
  | .removeInvalidation _ listener, (is, cs) => (is.eraseP (fun l => listener == l), cs)
  | .addChange _ listener, (is, cs) => (is, cs ++ [listener])
  | .removeChange _ listener, (is, cs) => (is, cs.eraseP (fun l => listener == l))

theorem register_holds [BEq I] [BEq C] {is : List I} {cs : List C} {m : ExpressionHelper I C V}
    (h : Holds 2 is cs m) (r : Registration I C V) :
    Holds 2 (r.apply (is, cs)).1 (r.apply (is, cs)).2 (register r m) := by
  cases r with
  | addInvalidation value l =>
    have hadd := @addInvalidation_holds I C V 2 is cs m (fun _ => false) (Or.inr ⟨rfl, fun _ => rfl⟩) h value l
    rw [Slots.kept_of_not_collected (fun _ => rfl) (keptInvalidation_eq _)] at hadd
    exact hadd
  | removeInvalidation value l => exact removeInvalidation_holds (Or.inr rfl) h value l
  | addChange value l =>
    have hadd := @addChange_holds I C V 2 is cs m (fun _ => false) (Or.inr ⟨rfl, fun _ => rfl⟩) h value l
    rw [Slots.kept_of_not_collected (fun _ => rfl) (keptChange_eq _)] at hadd
    exact hadd
  | removeChange value l => exact removeChange_holds (Or.inr rfl) h value l

theorem exec_register_holds [BEq I] [BEq C] {is : List I} {cs : List C} {m : ExpressionHelper I C V}
    (h : Holds 2 is cs m) (rs : List (Registration I C V)) :
    Holds 2 (exec Registration.apply rs (is, cs)).1 (exec Registration.apply rs (is, cs)).2
      (exec register rs m) := by
  induction rs generalizing is cs m with
  | nil => exact h
  | cons r rs ih => exact ih (register_holds h r)

theorem registrations_refine_lists [BEq I] [BEq C] (rs : List (Registration I C V)) :
    (exec register rs start).invalidationListeners = (exec Registration.apply rs ([], [])).1.map some ∧
      (exec register rs start).changeListeners = (exec Registration.apply rs ([], [])).2.map some ∧
      ((exec register rs start).helper = .null ↔ exec Registration.apply rs ([], []) = ([], [])) := by
  have h := exec_register_holds (m := (start : ExpressionHelper I C V)) ⟨rfl, rfl⟩ rs
  refine ⟨h.invalidationListeners_eq, h.changeListeners_eq, ?_⟩
  rw [h.null_iff (by omega), Prod.ext_iff]

end ExpressionHelper
end OpenJfx.Binding
