import OpenJfx.Binding.Notification

/-! # Notifications while listeners come and go

A notification reads the array it started with.  The lock makes `addListener` and
`removeListener` work on a copy of that array, but it is a single flag: the end of
a nested notification releases it while the outer one is still reading.  The
condition below says that from then on no slot which is still to be read is
changed in place; with it every notification calls exactly the listeners that were
registered when it started. -/
set_option autoImplicit false
namespace OpenJfx.Binding
open OpenJfx.Lib

namespace ExpressionHelper
variable {I C V : Type}

def invalidationSlots (m : ExpressionHelper I C V) : Slots :=
  match m.current with
  | some g => g.invalidation
  | none => Slots.empty

def changeSlots (m : ExpressionHelper I C V) : Slots :=
  match m.current with
  | some g => g.change
  | none => Slots.empty

section Reads
variable {m : ExpressionHelper I C V} {s cur : Slots} {i : Nat}

theorem reads_dropped {L : Type} {heap : Heap L} {ls : List L} (h : Slots.Reads heap s cur i ls) :
    Slots.Reads heap Slots.empty cur i ls := by
  have happend := @Slots.Reads.append L heap s cur i ls h [] Slots.empty (by
    intro r hr
    cases hr)
  rw [List.append_nil] at happend
  exact happend

theorem reads_created {L : Type} {heap : Heap L} {ls : List L} (h : Slots.Reads heap s cur i ls) (new : List L) :
    Slots.Reads (if new = [] then (heap, Slots.empty) else Slots.create new heap).1
      (if new = [] then (heap, Slots.empty) else Slots.create new heap).2 cur i ls := by
  split
  · exact reads_dropped h
  · apply h.append
    intro r hr
    cases hr
    exact Nat.le_refl _

theorem newGeneric_current (is : List I) (cs : List C) (v : Option V) : (newGeneric is cs v m).current = some ⟨
    (if is = [] then (m.invalidationArrays, Slots.empty) else Slots.create is m.invalidationArrays).2,
    (if cs = [] then (m.changeArrays, Slots.empty) else Slots.create cs m.changeArrays).2, false, v⟩ := by
  rw [newGeneric, current]
  dsimp only
  rw [List.getElem?_append_right (Nat.le_refl _), Nat.sub_self, List.getElem?_cons_zero]

theorem newGeneric_reads {is₀ : List I} (h : Slots.Reads m.invalidationArrays s cur i is₀) (is : List I) (cs : List C)
    (v : Option V) :
    Slots.Reads (newGeneric is cs v m).invalidationArrays (newGeneric is cs v m).invalidationSlots cur i is₀ := by
  rw [invalidationSlots, newGeneric_current]
  exact reads_created h is

theorem newGeneric_readsChange {cs₀ : List C} (h : Slots.Reads m.changeArrays s cur i cs₀) (is : List I) (cs : List C)
    (v : Option V) : Slots.Reads (newGeneric is cs v m).changeArrays (newGeneric is cs v m).changeSlots cur i cs₀ := by
  rw [changeSlots, newGeneric_current]
  exact reads_created h cs

end Reads

/-- The first slot of the invalidation listeners' array that the call changes in
place. -/
def addShiftsInvalidation (collected : I → Bool) (m : ExpressionHelper I C V) : Option Nat :=
  m.current.bind (fun g => g.invalidation.trimsFrom g.locked collected m.invalidationArrays)

def addShiftsChange (collected : C → Bool) (m : ExpressionHelper I C V) : Option Nat :=
  m.current.bind (fun g => g.change.trimsFrom g.locked collected m.changeArrays)

def removeShiftsInvalidation [BEq I] (listener : I) (m : ExpressionHelper I C V) : Option Nat :=
  m.current.bind (fun g =>
    if g.locked = true ∨ g.invalidation.size = 1 ∨ g.invalidation.size = 2 ∧ g.change.size = 0 then none
    else g.invalidation.indexOf listener m.invalidationArrays)

def removeShiftsChange [BEq C] (listener : C) (m : ExpressionHelper I C V) : Option Nat :=
  m.current.bind (fun g =>
    if g.locked = true ∨ g.change.size = 1 ∨ g.change.size = 2 ∧ g.invalidation.size = 0 then none
    else g.change.indexOf listener m.changeArrays)

/-- The call leaves everything alone that a notification still has to read. -/
structure Carries (m m' : ExpressionHelper I C V) (shiftsI shiftsC : Option Nat) : Prop where
  generics : m.generics.length ≤ m'.generics.length
  invalidation : ∀ (cur : Slots) (i : Nat) (ls : List I),
    (∀ k ∈ shiftsI, cur.array = m.invalidationSlots.array → cur.size ≤ i ∨ cur.size ≤ k) →
    Slots.Reads m.invalidationArrays m.invalidationSlots cur i ls →
    Slots.Reads m'.invalidationArrays m'.invalidationSlots cur i ls
  change : ∀ (cur : Slots) (i : Nat) (ls : List C),
    (∀ k ∈ shiftsC, cur.array = m.changeSlots.array → cur.size ≤ i ∨ cur.size ≤ k) →
    Slots.Reads m.changeArrays m.changeSlots cur i ls → Slots.Reads m'.changeArrays m'.changeSlots cur i ls

section Carries
variable {m : ExpressionHelper I C V} {shiftsI shiftsC : Option Nat}

theorem carries_refl : Carries m m shiftsI shiftsC := ⟨Nat.le_refl _, fun _ _ _ _ h => h, fun _ _ _ _ h => h⟩

theorem carries_newGeneric (is : List I) (cs : List C) (v : Option V) :
    Carries m (newGeneric is cs v m) shiftsI shiftsC :=
  ⟨by simp [newGeneric], fun _ _ _ _ h => newGeneric_reads h is cs v,
    fun _ _ _ _ h => newGeneric_readsChange h is cs v⟩

theorem carries_single {helper : Helper I C V} (hnone : ({ m with helper := helper } : ExpressionHelper I C V).current = none) :
    Carries m { m with helper := helper } shiftsI shiftsC := by
  refine ⟨Nat.le_refl _, ?_, ?_⟩
  · intro cur i ls _ h
    rw [invalidationSlots, hnone]
    exact reads_dropped h
  · intro cur i ls _ h
    rw [changeSlots, hnone]
    exact reads_dropped h

theorem slots_modifyGeneric {ref : Nat} {f : Generic V → Generic V}
    (hf : ∀ g, (f g).invalidation = g.invalidation) (hf' : ∀ g, (f g).change = g.change) :
    (m.modifyGeneric ref f).invalidationSlots = m.invalidationSlots ∧
      (m.modifyGeneric ref f).changeSlots = m.changeSlots := by
  obtain ⟨helper, generics, arraysI, arraysC⟩ := m
  cases helper with
  | null => exact ⟨rfl, rfl⟩
  | singleInvalidation this => exact ⟨rfl, rfl⟩
  | singleChange this v => exact ⟨rfl, rfl⟩
  | generic current =>
    simp only [invalidationSlots, changeSlots, ExpressionHelper.current, modifyGeneric]
    rw [List.getElem?_modify]
    cases generics[current]? with
    | none => exact ⟨rfl, rfl⟩
    | some g =>
      by_cases heq : ref = current
      · simp [heq, hf, hf']
      · simp [heq]

theorem carries_modifyGeneric {ref : Nat} {f : Generic V → Generic V}
    (hf : ∀ g, (f g).invalidation = g.invalidation) (hf' : ∀ g, (f g).change = g.change) :
    Carries m (m.modifyGeneric ref f) shiftsI shiftsC := by
  have hslots := @slots_modifyGeneric I C V m ref f hf hf'
  refine ⟨by simp [modifyGeneric], ?_, ?_⟩
  · intro cur i ls _ h
    rw [hslots.1]
    exact h
  · intro cur i ls _ h
    rw [hslots.2]
    exact h

theorem current_set {ref : Nat} {g g' : Generic V} {arraysI : Heap I} {arraysC : Heap C} {generics : List (Generic V)}
    (hg : generics[ref]? = some g) :
    (⟨.generic ref, generics.set ref g', arraysI, arraysC⟩ : ExpressionHelper I C V).current = some g' :=
  List.getElem?_set_self (List.getElem?_eq_some_iff.mp hg).1

theorem addInvalidation_carries {is : List I} {cs : List C} (h : Holds 0 is cs m) (collected : I → Bool)
    (value : Option V) (l : I) :
    Carries m (addInvalidation collected value l m) (addShiftsInvalidation collected m) none := by
  obtain ⟨helper, generics, arraysI, arraysC⟩ := m
  cases helper with
  | null => exact carries_single rfl
  | singleInvalidation this => exact carries_newGeneric [this, l] [] none
  | singleChange this v => exact carries_newGeneric [l] [this] value
  | generic ref =>
    obtain ⟨-, g, hg, hi, hc⟩ := h
    have hcurrent : (⟨.generic ref, generics, arraysI, arraysC⟩ : ExpressionHelper I C V).current = some g := hg
    dsimp only at hg hi
    rw [addInvalidation]
    dsimp only
    rw [hg, addShiftsInvalidation, hcurrent]
    refine ⟨by simp, ?_, ?_⟩
    · intro cur i ls hclear hreads
      rw [invalidationSlots, hcurrent] at hclear hreads
      rw [invalidationSlots, current_set hg]
      exact Slots.add_reads hi hreads l hclear
    · intro cur i ls _ hreads
      rw [changeSlots, hcurrent] at hreads
      rw [changeSlots, current_set hg]
      exact hreads

theorem addChange_carries {is : List I} {cs : List C} (h : Holds 0 is cs m) (collected : C → Bool)
    (value : Option V) (l : C) :
    Carries m (addChange collected value l m) none (addShiftsChange collected m) := by
  obtain ⟨helper, generics, arraysI, arraysC⟩ := m
  cases helper with
  | null => exact carries_single rfl
  | singleInvalidation this => exact carries_newGeneric [this] [l] value
  | singleChange this v => exact carries_newGeneric [] [this, l] value
  | generic ref =>
    obtain ⟨-, g, hg, hi, hc⟩ := h
    have hcurrent : (⟨.generic ref, generics, arraysI, arraysC⟩ : ExpressionHelper I C V).current = some g := hg
    dsimp only at hg hc
    rw [addChange]
    dsimp only
    rw [hg, addShiftsChange, hcurrent]
    refine ⟨by simp, ?_, ?_⟩
    · intro cur i ls _ hreads
      rw [invalidationSlots, hcurrent] at hreads
      rw [invalidationSlots, current_set hg]
      exact hreads
    · intro cur i ls hclear hreads
      rw [changeSlots, hcurrent] at hclear hreads
      rw [changeSlots, current_set hg]
      exact Slots.add_reads hc hreads l hclear

theorem single_carries {L : Type} {make : L → Helper I C V} (hmake : ∀ l ref, make l ≠ .generic ref)
    (slot : Option (Option L)) : Carries m (single make slot m) shiftsI shiftsC := by
  unfold single
  split
  · rename_i l
    apply carries_single
    rw [current]
    dsimp only
    split
    · rename_i ref heq
      exact absurd heq (hmake l ref)
    · rfl
  · exact carries_refl

theorem removeInvalidation_carries [BEq I] {is : List I} {cs : List C} (h : Holds 0 is cs m) (value : Option V)
    (l : I) : Carries m (removeInvalidation value l m) (removeShiftsInvalidation l m) none := by
  obtain ⟨helper, generics, arraysI, arraysC⟩ := m
  cases helper with
  | null => exact carries_refl
  | singleInvalidation this =>
    rw [removeInvalidation]
    dsimp only
    split
    · exact carries_single rfl
    · exact carries_refl
  | singleChange this v => exact carries_refl
  | generic ref =>
    obtain ⟨-, g, hg, hi, hc⟩ := h
    have hcurrent : (⟨.generic ref, generics, arraysI, arraysC⟩ : ExpressionHelper I C V).current = some g := hg
    dsimp only at hg hi
    rw [removeInvalidation, removeShiftsInvalidation, hcurrent]
    dsimp only
    rw [hg, Option.bind_some]
    dsimp only
    cases hindex : g.invalidation.indexOf l arraysI with
    | none => exact carries_refl
    | some index =>
      have hlt : index < is.length := by
        rw [Slots.indexOf_represents hi] at hindex
        exact (List.findIdx?_eq_some_iff_getElem.mp hindex).1
      dsimp only
      split
      · split
        · apply single_carries
          intro c ref heq
          cases heq
        · refine ⟨by simp, ?_, ?_⟩
          · intro cur i ls _ hreads
            rw [invalidationSlots, current_set hg]
            exact reads_dropped hreads
          · intro cur i ls _ hreads
            rw [changeSlots, hcurrent] at hreads
            rw [changeSlots, current_set hg]
            exact hreads
      · rename_i hone
        split
        · apply single_carries
          intro i ref heq
          cases heq
        · rename_i htwo
          refine ⟨by simp, ?_, ?_⟩
          · intro cur i ls hclear hreads
            rw [invalidationSlots, hcurrent] at hclear hreads
            rw [invalidationSlots, current_set hg]
            apply Slots.removeAt_reads hi hreads hlt
            intro hunlocked
            apply hclear index
            rw [if_neg (by
              rintro (hlocked | hsize | hsize)
              · rw [hunlocked] at hlocked
                cases hlocked
              · exact hone hsize
              · exact htwo hsize)]
            rfl
          · intro cur i ls _ hreads
            rw [changeSlots, hcurrent] at hreads
            rw [changeSlots, current_set hg]
            exact hreads

theorem removeChange_carries [BEq C] {is : List I} {cs : List C} (h : Holds 0 is cs m) (value : Option V)
    (l : C) : Carries m (removeChange value l m) none (removeShiftsChange l m) := by
  obtain ⟨helper, generics, arraysI, arraysC⟩ := m
  cases helper with
  | null => exact carries_refl
  | singleInvalidation this => exact carries_refl
  | singleChange this v =>
    rw [removeChange]
    dsimp only
    split
    · exact carries_single rfl
    · exact carries_refl
  | generic ref =>
    obtain ⟨-, g, hg, hi, hc⟩ := h
    have hcurrent : (⟨.generic ref, generics, arraysI, arraysC⟩ : ExpressionHelper I C V).current = some g := hg
    dsimp only at hg hc
    rw [removeChange, removeShiftsChange, hcurrent]
    dsimp only
    rw [hg, Option.bind_some]
    dsimp only
    cases hindex : g.change.indexOf l arraysC with
    | none => exact carries_refl
    | some index =>
      have hlt : index < cs.length := by
        rw [Slots.indexOf_represents hc] at hindex
        exact (List.findIdx?_eq_some_iff_getElem.mp hindex).1
      dsimp only
      split
      · split
        · apply single_carries
          intro i ref heq
          cases heq
        · refine ⟨by simp, ?_, ?_⟩
          · intro cur i ls _ hreads
            rw [invalidationSlots, hcurrent] at hreads
            rw [invalidationSlots, current_set hg]
            exact hreads
          · intro cur i ls _ hreads
            rw [changeSlots, current_set hg]
            exact reads_dropped hreads
      · rename_i hone
        split
        · apply single_carries
          intro c ref heq
          cases heq
        · rename_i htwo
          refine ⟨by simp, ?_, ?_⟩
          · intro cur i ls _ hreads
            rw [invalidationSlots, hcurrent] at hreads
            rw [invalidationSlots, current_set hg]
            exact hreads
          · intro cur i ls hclear hreads
            rw [changeSlots, hcurrent] at hclear hreads
            rw [changeSlots, current_set hg]
            apply Slots.removeAt_reads hc hreads hlt
            intro hunlocked
            apply hclear index
            rw [if_neg (by
              rintro (hlocked | hsize | hsize)
              · rw [hunlocked] at hlocked
                cases hlocked
              · exact hone hsize
              · exact htwo hsize)]
            rfl

end Carries
end ExpressionHelper

/-! ## The invariant -/

namespace Fire
variable {I C V : Type}

/-- The first slot of the invalidation listeners that is still to be read. -/
def nextInvalidation (f : Fire I C V) : Nat :=
  match f.loop with
  | .invalidation i => i
  | .change _ _ => f.curInvalidation.size

def nextChange (f : Fire I C V) : Nat :=
  match f.loop with
  | .invalidation _ => 0
  | .change i _ => i

def inChanges (f : Fire I C V) : Bool :=
  match f.loop with
  | .invalidation _ => false
  | .change _ _ => true

end Fire

/-- The notification has called what it should have called. -/
def Record.Exact {I C : Type} (r : Record I C) : Prop :=
  r.invokedInvalidation = r.registeredInvalidation.map some ∧
    r.invokedChange = if r.changed then r.registeredChange.map some else []

instance {I C : Type} [DecidableEq I] [DecidableEq C] (r : Record I C) : Decidable r.Exact :=
  inferInstanceAs (Decidable (_ ∧ _))

/-- The listeners `registered` were registered; those below `i` have been called and
the others are in their slots. -/
structure Delivers {L : Type} (heap : Heap L) (s cur : Slots) (i : Nat) (registered : List L)
    (invoked : List (Option L)) : Prop where
  invoked_eq : invoked = (registered.map some).take i
  bounded : i ≤ cur.size
  reads : Slots.Reads heap s cur i registered

section Delivers
variable {L : Type} {heap : Heap L} {s cur : Slots} {i : Nat} {registered : List L} {invoked : List (Option L)}

theorem delivers_start (h : s.Represents heap registered) : Delivers heap s s 0 registered [] :=
  ⟨rfl, Nat.zero_le _, Slots.reads_start h⟩

theorem Delivers.advance (h : Delivers heap s cur i registered invoked) (hi : i < cur.size) :
    Delivers heap s cur (i + 1) registered (invoked ++ [cur.get heap i]) := by
  have hlen := h.reads.length
  have hget := h.reads.get_eq (List.getElem?_eq_getElem (by omega : i < registered.length))
  refine ⟨?_, by omega, h.reads.mono (by omega)⟩
  rw [h.invoked_eq, hget, List.take_add_one, List.getElem?_map, List.getElem?_eq_getElem (by omega)]
  rfl

theorem Delivers.all (h : Delivers heap s cur i registered invoked) (hi : ¬ i < cur.size) :
    invoked = registered.map some := by
  have hlen := h.reads.length
  rw [h.invoked_eq, List.take_of_length_le]
  rw [List.length_map]
  omega

theorem Delivers.begun (h : Delivers heap s cur i registered invoked) : invoked <+: registered.map some := by
  rw [h.invoked_eq]
  exact List.take_prefix i _

end Delivers

structure FireInv {I C V : Type} (m : ExpressionHelper I C V) (f : Fire I C V) : Prop where
  ref : f.ref < m.generics.length
  changed : f.record.changed = f.inChanges
  invalidation : Delivers m.invalidationArrays m.invalidationSlots f.curInvalidation f.nextInvalidation
    f.record.registeredInvalidation f.record.invokedInvalidation
  change : Delivers m.changeArrays m.changeSlots f.curChange f.nextChange
    f.record.registeredChange f.record.invokedChange

section FireInv
variable {I C V : Type}

theorem FireInv.carry {m m' : ExpressionHelper I C V} {f : Fire I C V} {shiftsI shiftsC : Option Nat}
    (h : FireInv m f) (carries : m.Carries m' shiftsI shiftsC)
    (hI : ∀ k ∈ shiftsI, f.curInvalidation.array = m.invalidationSlots.array →
      f.curInvalidation.size ≤ f.nextInvalidation ∨ f.curInvalidation.size ≤ k)
    (hC : ∀ k ∈ shiftsC, f.curChange.array = m.changeSlots.array →
      f.curChange.size ≤ f.nextChange ∨ f.curChange.size ≤ k) : FireInv m' f := by
  have hi := h.invalidation
  have hc := h.change
  exact ⟨Nat.lt_of_lt_of_le h.ref carries.generics, h.changed,
    ⟨hi.invoked_eq, hi.bounded, carries.invalidation _ _ _ hI hi.reads⟩,
    ⟨hc.invoked_eq, hc.bounded, carries.change _ _ _ hC hc.reads⟩⟩

theorem FireInv.modifyGeneric {m : ExpressionHelper I C V} {f : Fire I C V} {ref : Nat} {g : Generic V → Generic V}
    (h : FireInv m f) (hg : ∀ x, (g x).invalidation = x.invalidation) (hg' : ∀ x, (g x).change = x.change) :
    FireInv (m.modifyGeneric ref g) f :=
  h.carry (@ExpressionHelper.carries_modifyGeneric I C V m none none ref g hg hg')
    (by intro k hk; cases hk) (by intro k hk; cases hk)

end FireInv

namespace Observable
variable {I C V : Type}

def shiftsInvalidation [BEq I] : Step I C V → Observable I C V → Option Nat
  | .addInvalidation collected _, o => o.helper.addShiftsInvalidation collected
  | .removeInvalidation listener, o => o.helper.removeShiftsInvalidation listener
  | _, _ => none

def shiftsChange [BEq C] : Step I C V → Observable I C V → Option Nat
  | .addChange collected _, o => o.helper.addShiftsChange collected
  | .removeChange listener, o => o.helper.removeShiftsChange listener
  | _, _ => none

/-- The condition on a step: an array that a notification in progress is reading
is changed in place only in front of, or behind, the slots it still has to read. -/
def Undisturbing [BEq I] [BEq C] (a : Step I C V) (o : Observable I C V) : Prop :=
  ∀ f ∈ o.fires,
    (∀ k ∈ shiftsInvalidation a o, f.curInvalidation.array = o.helper.invalidationSlots.array →
      f.curInvalidation.size ≤ f.nextInvalidation ∨ f.curInvalidation.size ≤ k) ∧
    (∀ k ∈ shiftsChange a o, f.curChange.array = o.helper.changeSlots.array →
      f.curChange.size ≤ f.nextChange ∨ f.curChange.size ≤ k)

instance [BEq I] [BEq C] (a : Step I C V) (o : Observable I C V) : Decidable (Undisturbing a o) :=
  inferInstanceAs (Decidable (∀ f ∈ o.fires, (∀ k ∈ shiftsInvalidation a o, _) ∧ (∀ k ∈ shiftsChange a o, _)))

structure Inv (o : Observable I C V) : Prop where
  holds : o.helper.Holds 0 o.registeredInvalidation o.registeredChange
  fires : ∀ f ∈ o.fires, FireInv o.helper f
  finished : ∀ r ∈ o.finished, r.Exact

section Steps
variable {o : Observable I C V} {compares : Bool}

theorem finished_append {finished : List (Record I C)} {r : Record I C} (h : ∀ r ∈ finished, r.Exact) (hr : r.Exact) :
    ∀ r' ∈ finished ++ [r], r'.Exact := by
  intro r' hr'
  rcases List.mem_append.mp hr' with hr' | hr'
  · exact h r' hr'
  · rw [List.mem_singleton.mp hr']
    exact hr

theorem fire_inv [DecidableEq V] (h : Inv o) : Inv (fire compares o) := by
  obtain ⟨hholds, hfires, hfinished⟩ := h
  unfold fire
  split
  · rename_i hhelper
    rw [ExpressionHelper.Holds, hhelper] at hholds
    refine ⟨by rw [ExpressionHelper.Holds, hhelper]; exact hholds, hfires, finished_append hfinished ?_⟩
    rw [hholds.1, hholds.2]
    exact ⟨rfl, rfl⟩
  · rename_i listener hhelper
    rw [ExpressionHelper.Holds, hhelper] at hholds
    refine ⟨by rw [ExpressionHelper.Holds, hhelper]; exact hholds, hfires, finished_append hfinished ?_⟩
    rw [hholds.1, hholds.2]
    exact ⟨rfl, rfl⟩
  · rename_i listener oldValue hhelper
    have hlisteners : o.registeredInvalidation = [] ∧ o.registeredChange = [listener] := by
      rw [ExpressionHelper.Holds, hhelper] at hholds
      exact hholds
    have hexact : Record.Exact ⟨o.registeredInvalidation, o.registeredChange, [], [some listener], true⟩ := by
      rw [hlisteners.1, hlisteners.2]
      exact ⟨rfl, rfl⟩
    split
    · -- the value is stored in the helper, which is no `Generic` before and after
      have hholds' : ({ o.helper with helper := .singleChange listener o.value } : ExpressionHelper I C V).Holds 0
          o.registeredInvalidation o.registeredChange := hlisteners
      have hfires' : ∀ f ∈ o.fires, FireInv { o.helper with helper := .singleChange listener o.value } f := by
        intro f hf
        exact (hfires f hf).carry (@ExpressionHelper.carries_single I C V o.helper none none _ rfl)
          (by intro k hk; cases hk) (by intro k hk; cases hk)
      dsimp only
      split
      · exact ⟨hholds', hfires', finished_append hfinished hexact⟩
      · refine ⟨hholds', hfires', finished_append hfinished ⟨?_, rfl⟩⟩
        rw [hlisteners.1]
        rfl
    · exact ⟨hholds, hfires, finished_append hfinished hexact⟩
  · rename_i ref hhelper
    have hgeneric := hholds
    rw [ExpressionHelper.Holds, hhelper] at hgeneric
    obtain ⟨-, g, hg, hi, hc⟩ := hgeneric
    rw [hg]
    dsimp only
    have hslots : o.helper.invalidationSlots = g.invalidation ∧ o.helper.changeSlots = g.change := by
      simp [ExpressionHelper.invalidationSlots, ExpressionHelper.changeSlots, ExpressionHelper.current, hhelper, hg]
    have hnew : FireInv o.helper ⟨ref, g.invalidation, g.change, .invalidation 0,
        ⟨o.registeredInvalidation, o.registeredChange, [], [], false⟩⟩ := by
      refine ⟨(List.getElem?_eq_some_iff.mp hg).1, rfl, ?_, ?_⟩
      · rw [hslots.1]
        exact delivers_start hi
      · rw [hslots.2]
        exact delivers_start hc
    refine ⟨ExpressionHelper.modifyGeneric_holds (fun _ => rfl) (fun _ => rfl) hholds, ?_, hfinished⟩
    intro f hf
    rcases List.mem_cons.mp hf with rfl | hf
    · exact hnew.modifyGeneric (fun _ => rfl) (fun _ => rfl)
    · exact (hfires f hf).modifyGeneric (fun _ => rfl) (fun _ => rfl)

theorem set_inv [DecidableEq V] (h : Inv o) (v : Option V) : Inv (set compares v o) := by
  rw [set]
  split
  · split
    · exact fire_inv ⟨h.holds, h.fires, h.finished⟩
    · exact ⟨h.holds, h.fires, h.finished⟩
  · exact h

theorem finish_inv {f : Fire I C V} {rest : List (Frame I C V)} (h : Inv o) (hframes : o.frames = .generic f :: rest)
    {r : Record I C} (hrecord : r.Exact) : Inv (finish f.ref r rest o) := by
  obtain ⟨hholds, hfires, hfinished⟩ := h
  refine ⟨ExpressionHelper.modifyGeneric_holds (fun _ => rfl) (fun _ => rfl) hholds, ?_,
    finished_append hfinished hrecord⟩
  intro f' hf'
  have hmem : f' ∈ o.fires := by
    rw [fires, hframes]
    exact List.mem_cons_of_mem f hf'
  exact (hfires f' hmem).modifyGeneric (fun _ => rfl) (fun _ => rfl)

theorem replace_inv {f f' : Fire I C V} {rest : List (Frame I C V)} {log : List (Entry C V)} (h : Inv o)
    (hframes : o.frames = .generic f :: rest) (hf' : FireInv o.helper f') :
    Inv { o with frames := .generic f' :: rest, log := log } := by
  refine ⟨h.holds, ?_, h.finished⟩
  intro f'' hf''
  rcases List.mem_cons.mp hf'' with rfl | hf''
  · exact hf'
  · apply h.fires
    rw [fires, hframes]
    exact List.mem_cons_of_mem f hf''

theorem enterChanges_inv [DecidableEq V] {f : Fire I C V} {rest : List (Frame I C V)} (h : Inv o)
    (hframes : o.frames = .generic f :: rest) {i : Nat} (hloop : f.loop = .invalidation i)
    (hi : ¬ i < f.curInvalidation.size) : Inv (enterChanges compares f rest o) := by
  have hf : FireInv o.helper f := h.fires f (by
    rw [fires, hframes]
    exact List.mem_cons_self)
  have hchanged := hf.changed
  have hdi := hf.invalidation
  have hdc := hf.change
  rw [Fire.nextInvalidation, hloop] at hdi
  rw [Fire.nextChange, hloop] at hdc
  rw [Fire.inChanges, hloop] at hchanged
  have hsize : i = f.curInvalidation.size := by
    have := hdi.bounded
    dsimp only at this
    omega
  subst hsize
  have hexact : f.record.Exact := by
    refine ⟨hdi.all (by omega), ?_⟩
    rw [hchanged, hdc.invoked_eq]
    rfl
  -- the loop over the change listeners begins
  have hnext : ∀ old : Option V, FireInv o.helper
      { f with loop := .change 0 old, record := { f.record with changed := true } } :=
    fun _ => ⟨hf.ref, rfl, hdi, hdc⟩
  unfold enterChanges
  split
  · split
    · exact h
    · rename_i g hg
      split
      · have hvalue : Inv { o with
            valid := true
            helper := o.helper.modifyGeneric f.ref (fun g => { g with currentValue := o.value }) } := by
          refine ⟨ExpressionHelper.modifyGeneric_holds (fun _ => rfl) (fun _ => rfl) h.holds, ?_, h.finished⟩
          intro f' hf'
          exact (h.fires f' hf').modifyGeneric (fun _ => rfl) (fun _ => rfl)
        dsimp only
        split
        · exact replace_inv hvalue hframes ((hnext g.currentValue).modifyGeneric (fun _ => rfl) (fun _ => rfl))
        · exact finish_inv hvalue hframes hexact
      · rename_i hnone
        exact finish_inv h hframes ⟨hexact.1, hdc.all hnone⟩
  · exact replace_inv h hframes (hnext none)

theorem next_inv [DecidableEq V] (h : Inv o) : Inv (next compares o) := by
  unfold next
  split
  · exact h
  · rename_i rest hframes
    refine ⟨h.holds, ?_, h.finished⟩
    intro f hf
    apply h.fires
    rw [fires, hframes]
    exact hf
  · rename_i f rest hframes
    have hf : FireInv o.helper f := h.fires f (by
      rw [fires, hframes]
      exact List.mem_cons_self)
    have hdi := hf.invalidation
    have hdc := hf.change
    have hchanged := hf.changed
    split
    · rename_i i hloop
      split
      · rename_i hi
        rw [Fire.nextInvalidation, hloop] at hdi
        rw [Fire.nextChange, hloop] at hdc
        rw [Fire.inChanges, hloop] at hchanged
        exact replace_inv h hframes ⟨hf.ref, hchanged, hdi.advance hi, hdc⟩
      · rename_i hi
        exact enterChanges_inv h hframes hloop hi
    · rename_i i oldValue hloop
      rw [Fire.nextInvalidation, hloop] at hdi
      rw [Fire.nextChange, hloop] at hdc
      rw [Fire.inChanges, hloop] at hchanged
      split
      · rename_i hi
        exact replace_inv h hframes ⟨hf.ref, hchanged, hdi, hdc.advance hi⟩
      · rename_i hi
        apply finish_inv h hframes
        refine ⟨hdi.all (Nat.lt_irrefl _), ?_⟩
        rw [hchanged, hdc.all hi]
        rfl

variable [BEq I] [BEq C] [DecidableEq V]

theorem step_inv (a : Step I C V) (h : Inv o) (guard : Undisturbing a o) : Inv (step compares a o) := by
  have hholds := h.holds
  cases a with
  | addInvalidation collected l =>
    refine ⟨ExpressionHelper.addInvalidation_holds (Or.inl rfl) hholds o.value l, ?_, h.finished⟩
    intro f hf
    exact (h.fires f hf).carry (ExpressionHelper.addInvalidation_carries hholds collected o.value l)
      (guard f hf).1 (guard f hf).2
  | removeInvalidation l =>
    refine ⟨ExpressionHelper.removeInvalidation_holds (Or.inl rfl) hholds o.value l, ?_, h.finished⟩
    intro f hf
    exact (h.fires f hf).carry (ExpressionHelper.removeInvalidation_carries hholds o.value l)
      (guard f hf).1 (guard f hf).2
  | addChange collected l =>
    refine ⟨ExpressionHelper.addChange_holds (Or.inl rfl) hholds o.value l, ?_, h.finished⟩
    intro f hf
    exact (h.fires f hf).carry (ExpressionHelper.addChange_carries hholds collected o.value l)
      (guard f hf).1 (guard f hf).2
  | removeChange l =>
    refine ⟨ExpressionHelper.removeChange_holds (Or.inl rfl) hholds o.value l, ?_, h.finished⟩
    intro f hf
    exact (h.fires f hf).carry (ExpressionHelper.removeChange_carries hholds o.value l)
      (guard f hf).1 (guard f hf).2
  | fire => exact fire_inv h
  | set v => exact set_inv h v
  | next => exact next_inv h

/-! ## Every notification ends

No more than its remaining turns have to be taken, when the listeners return. -/

def Fire.turns (f : Fire I C V) : Nat :=
  match f.loop with
  | .invalidation i => f.curInvalidation.size - i + f.curChange.size + 2
  | .change i _ => f.curChange.size - i + 1

def Frame.turns : Frame I C V → Nat
  | .single => 1
  | .generic f => Fire.turns f

def turns (o : Observable I C V) : Nat := o.frames.foldr (fun f n => Frame.turns f + n) 0

omit [BEq I] [BEq C] in
theorem next_turns {f : Frame I C V} {rest : List (Frame I C V)} (hframes : o.frames = f :: rest)
    (href : ∀ f ∈ o.fires, f.ref < o.helper.generics.length) : (next compares o).turns < o.turns := by
  have hturns : o.turns = Frame.turns f + rest.foldr (fun f n => Frame.turns f + n) 0 := by
    rw [turns, hframes, List.foldr_cons]
  rw [hturns, next, hframes]
  cases f with
  | single =>
    dsimp only [turns, Frame.turns]
    omega
  | generic f =>
    obtain ⟨g, hg⟩ : ∃ g, o.helper.generics[f.ref]? = some g := by
      have hlt := href f (by rw [fires, hframes]; exact List.mem_cons_self)
      exact ⟨_, List.getElem?_eq_getElem hlt⟩
    dsimp only
    cases hloop : f.loop with
    | invalidation i =>
      have hf : Frame.turns (.generic f) = f.curInvalidation.size - i + f.curChange.size + 2 := by
        simp only [Frame.turns, Fire.turns, hloop]
      rw [hf]
      dsimp only
      split
      · simp only [turns, List.foldr_cons, Frame.turns, Fire.turns]
        omega
      · rw [enterChanges]
        split
        · rw [hg]
          dsimp only
          split
          · split
            · simp only [turns, List.foldr_cons, Frame.turns, Fire.turns]
              omega
            · simp only [turns, finish]
              omega
          · simp only [turns, finish]
            omega
        · simp only [turns, List.foldr_cons, Frame.turns, Fire.turns]
          omega
    | change i oldValue =>
      have hf : Frame.turns (.generic f) = f.curChange.size - i + 1 := by
        simp only [Frame.turns, Fire.turns, hloop]
      rw [hf]
      dsimp only
      split
      · simp only [turns, notifyChange, List.foldr_cons, Frame.turns, Fire.turns]
        omega
      · simp only [turns, finish]
        omega

theorem notifications_end {P : Observable I C V → Prop} (hnext : ∀ o, P o → P (next compares o))
    (href : ∀ o, P o → ∀ f ∈ o.fires, f.ref < o.helper.generics.length) (h : P o) :
    ∃ n, (exec (step compares) (List.replicate n .next) o).frames = [] := by
  induction hturns : o.turns using Nat.strongRecOn generalizing o with
  | _ k ih =>
    cases hframes : o.frames with
    | nil => exact ⟨0, hframes⟩
    | cons f rest =>
      have hless := @next_turns I C V o compares _ f rest hframes (href o h)
      obtain ⟨n, hn⟩ := ih _ (hturns ▸ hless) (hnext o h) rfl
      exact ⟨n + 1, hn⟩

end Steps

end Observable
end OpenJfx.Binding
