import Mathlib.Data.List.Nodup
import OpenJfx.Binding.ReentrantFire

/-! # The values that a change listener is told

`fireValueChangedEvent` keeps the old value in a local variable and reads the new
one from a field before each call.  A set made by a change listener runs a whole
notification in between, so the listeners behind it get the inner change first
and then the old value of the outer change with the new value of the inner one.
The condition below excludes just that; with it the values form a chain for every
listener. -/
set_option autoImplicit false
namespace OpenJfx.Binding
open OpenJfx.Lib

section Log
variable {C V : Type} [DecidableEq C]

/-- The value that the entry leaves the listener with. -/
def Entry.seenBy (c : C) : Entry C V → Option (Option V)
  | .registered d v => if d = c then some v else none
  | .changed d _ newValue => if d = c then some newValue else none

def lastSeen (c : C) (log : List (Entry C V)) : Option (Option V) :=
  log.foldl (fun seen e => (e.seenBy c).or seen) none

/-- Every change is told from the value that the listener saw last, to another. -/
def Chained (log : List (Entry C V)) : Prop :=
  ∀ (before after : List (Entry C V)) (c : C) (oldValue newValue : Option V),
    log = before ++ .changed c oldValue newValue :: after →
      lastSeen c before = some oldValue ∧ oldValue ≠ newValue

theorem lastSeen_append (c : C) (log : List (Entry C V)) (e : Entry C V) :
    lastSeen c (log ++ [e]) = (e.seenBy c).or (lastSeen c log) := by
  rw [lastSeen, List.foldl_append]
  rfl

theorem lastSeen_registered (c d : C) (v : Option V) (log : List (Entry C V)) :
    lastSeen c (log ++ [Entry.registered d v]) = if d = c then some v else lastSeen c log := by
  rw [lastSeen_append, Entry.seenBy]
  split
  · rfl
  · rfl

theorem lastSeen_changed (c d : C) (oldValue newValue : Option V) (log : List (Entry C V)) :
    lastSeen c (log ++ [Entry.changed d oldValue newValue]) = if d = c then some newValue else lastSeen c log := by
  rw [lastSeen_append, Entry.seenBy]
  split
  · rfl
  · rfl

theorem Chained.append {log : List (Entry C V)} (h : Chained log) {e : Entry C V}
    (he : ∀ (c : C) (oldValue newValue : Option V), e = .changed c oldValue newValue →
      lastSeen c log = some oldValue ∧ oldValue ≠ newValue) : Chained (log ++ [e]) := by
  intro before after c oldValue newValue heq
  rcases List.eq_nil_or_concat after with rfl | ⟨after', last, rfl⟩
  · obtain ⟨rfl, hlast⟩ := List.append_inj' heq rfl
    exact he c oldValue newValue (List.singleton_inj.mp hlast)
  · rw [List.concat_eq_append, ← List.cons_append, ← List.append_assoc] at heq
    obtain ⟨hlog, -⟩ := List.append_inj' heq rfl
    exact h before after' c oldValue newValue hlog

end Log

namespace ExpressionHelper
variable {I C V : Type}

/-- The value of the last notification of the change listeners. -/
def currentValue (m : ExpressionHelper I C V) : Option V :=
  match m.helper with
  | .singleChange _ v => v
  | .generic ref => (m.generics[ref]?).bind Generic.currentValue
  | _ => none

section CurrentValue
variable {m : ExpressionHelper I C V} {is : List I} {cs : List C} {value : Option V}

theorem newGeneric_currentValue (is : List I) (cs : List C) : (newGeneric is cs value m).currentValue = value := by
  rw [newGeneric, currentValue]
  dsimp only
  rw [List.getElem?_append_right (Nat.le_refl _), Nat.sub_self, List.getElem?_cons_zero]
  rfl

theorem addInvalidation_currentValue (h : Holds 0 is cs m) (hcs : cs ≠ []) (hvalue : m.currentValue = value)
    (collected : I → Bool) (l : I) : (addInvalidation collected value l m).currentValue = value := by
  obtain ⟨helper, generics, arraysI, arraysC⟩ := m
  cases helper with
  | null => exact absurd h.2 hcs
  | singleInvalidation this => exact absurd h.2 hcs
  | singleChange this v => exact newGeneric_currentValue [l] [this]
  | generic ref =>
    obtain ⟨-, g, hg, -, -⟩ := h
    dsimp only at hg
    rw [← hvalue, addInvalidation]
    dsimp only
    rw [hg, currentValue, currentValue]
    dsimp only
    rw [List.getElem?_set_self (List.getElem?_eq_some_iff.mp hg).1, hg]
    rfl

theorem addChange_currentValue (h : Holds 0 is cs m) (hvalue : cs ≠ [] → m.currentValue = value)
    (collected : C → Bool) (l : C) : (addChange collected value l m).currentValue = value := by
  obtain ⟨helper, generics, arraysI, arraysC⟩ := m
  cases helper with
  | null => rfl
  | singleInvalidation this => exact newGeneric_currentValue [this] [l]
  | singleChange this v => exact newGeneric_currentValue [] [this, l]
  | generic ref =>
    obtain ⟨-, g, hg, -, hc⟩ := h
    obtain ⟨kept, hkept, hsize, -⟩ := Slots.add_keeps hc g.locked collected l
    dsimp only at hg hsize
    rw [addChange]
    dsimp only
    rw [hg, currentValue]
    dsimp only
    rw [List.getElem?_set_self (List.getElem?_eq_some_iff.mp hg).1, Option.bind_some]
    dsimp only
    split
    · rfl
    · rename_i hmore
      have hne : cs ≠ [] := by
        rintro rfl
        have hnil : kept = [] := by
          rcases hkept with rfl | rfl
          · rfl
          · rfl
        rw [hnil] at hsize
        exact hmore hsize
      have hcurrent := hvalue hne
      rw [currentValue] at hcurrent
      dsimp only at hcurrent
      rw [hg] at hcurrent
      exact hcurrent

theorem modifyGeneric_currentValue {ref : Nat} {f : Generic V → Generic V} (hf : ∀ g, (f g).currentValue = g.currentValue) :
    (m.modifyGeneric ref f).currentValue = m.currentValue := by
  obtain ⟨helper, generics, arraysI, arraysC⟩ := m
  cases helper with
  | null => rfl
  | singleInvalidation this => rfl
  | singleChange this v => rfl
  | generic current =>
    simp only [currentValue, modifyGeneric]
    rw [List.getElem?_modify]
    cases generics[current]? with
    | none => rfl
    | some g =>
      by_cases heq : ref = current
      · simp [heq, hf]
      · simp [heq]

theorem storeValue_currentValue {ref : Nat} {g : Generic V} (hhelper : m.helper = .generic ref)
    (hg : m.generics[ref]? = some g) (v : Option V) :
    (m.modifyGeneric ref (fun g => { g with currentValue := v })).currentValue = v := by
  rw [currentValue, modifyGeneric]
  dsimp only
  rw [hhelper]
  dsimp only
  rw [List.getElem?_modify, hg]
  simp

theorem single_currentValue {L : Type} {make : L → Helper I C V} {slot : Option (Option L)}
    (hmake : ∀ l, ({ m with helper := make l } : ExpressionHelper I C V).currentValue = value)
    (hvalue : m.currentValue = value) : (single make slot m).currentValue = value := by
  unfold single
  split
  · exact hmake _
  · exact hvalue

theorem removeInvalidation_currentValue [BEq I] (h : Holds 0 is cs m) (hcs : cs ≠ []) (hvalue : m.currentValue = value)
    (l : I) : (removeInvalidation value l m).currentValue = value := by
  obtain ⟨helper, generics, arraysI, arraysC⟩ := m
  cases helper with
  | null => exact absurd h.2 hcs
  | singleInvalidation this => exact absurd h.2 hcs
  | singleChange this v => exact hvalue
  | generic ref =>
    obtain ⟨-, g, hg, -, hc⟩ := h
    have hset : ∀ (g' : Generic V) (arrays : Heap I), g'.currentValue = g.currentValue →
        (⟨.generic ref, generics.set ref g', arrays, arraysC⟩ : ExpressionHelper I C V).currentValue = value := by
      intro g' arrays heq
      rw [← hvalue, currentValue, currentValue]
      dsimp only at hg ⊢
      rw [List.getElem?_set_self (List.getElem?_eq_some_iff.mp hg).1, hg]
      exact heq
    dsimp only at hg
    rw [removeInvalidation]
    dsimp only
    rw [hg]
    dsimp only
    split
    · exact hvalue
    · split
      · split
        · exact single_currentValue (fun _ => rfl) hvalue
        · exact hset _ _ rfl
      · split
        · rename_i hsizes
          have hnil : cs = [] := List.eq_nil_of_length_eq_zero (hc.1.symm.trans hsizes.2)
          exact absurd hnil hcs
        · exact hset _ _ rfl

theorem removeChange_currentValue [BEq C] (h : Holds 0 is cs m) (hread : cs ≠ [] → m.currentValue = value) (l : C)
    (hcs : cs.eraseP (fun x => l == x) ≠ []) : (removeChange value l m).currentValue = value := by
  have hne : cs ≠ [] := by
    rintro rfl
    exact hcs rfl
  have hvalue := hread hne
  obtain ⟨helper, generics, arraysI, arraysC⟩ := m
  cases helper with
  | null => exact absurd h.2 hne
  | singleInvalidation this => exact absurd h.2 hne
  | singleChange this v =>
    obtain ⟨rfl, rfl⟩ := h
    rw [removeChange]
    dsimp only
    split
    · rename_i heq
      rw [List.eraseP_cons_of_pos heq] at hcs
      exact absurd rfl hcs
    · exact hvalue
  | generic ref =>
    obtain ⟨-, g, hg, -, hc⟩ := h
    have hset : ∀ (g' : Generic V) (arrays : Heap C), g'.currentValue = g.currentValue →
        (⟨.generic ref, generics.set ref g', arraysI, arrays⟩ : ExpressionHelper I C V).currentValue = value := by
      intro g' arrays heq
      rw [← hvalue, currentValue, currentValue]
      dsimp only at hg ⊢
      rw [List.getElem?_set_self (List.getElem?_eq_some_iff.mp hg).1, hg]
      exact heq
    dsimp only at hg
    rw [removeChange]
    dsimp only
    rw [hg]
    dsimp only
    cases hindex : g.change.indexOf l arraysC with
    | none => exact hvalue
    | some index =>
      dsimp only
      split
      · rename_i hsize
        -- the last change listener is removed
        rw [Slots.indexOf_represents hc] at hindex
        have hlt : index < cs.length := (List.findIdx?_eq_some_iff_getElem.mp hindex).1
        have hnil : cs.eraseP (fun x => l == x) = [] := by
          rw [List.eraseP_eq_eraseIdx, hindex]
          apply List.eq_nil_of_length_eq_zero
          rw [List.length_eraseIdx_of_lt hlt, ← hc.1, hsize]
        exact absurd hnil hcs
      · split
        · exact single_currentValue (fun _ => rfl) hvalue
        · exact hset _ _ rfl

end CurrentValue
end ExpressionHelper

namespace Observable
variable {I C V : Type}

/-- The change listeners that the innermost notification still has to call: the
place of the first one, and the old value they will be told. -/
def pending (o : Observable I C V) : Option (Nat × Option V) :=
  match o.fires with
  | f :: _ =>
      match f.loop with
      | .change i oldValue => if i < f.curChange.size then some (i, oldValue) else none
      | .invalidation _ => none
  | [] => none

/-- A notification that has no change listener left to call, or has not come to
them yet. -/
def Fire.Settled (f : Fire I C V) : Prop := f.inChanges = true → f.curChange.size ≤ f.nextChange

instance (f : Fire I C V) : Decidable (Fire.Settled f) := inferInstanceAs (Decidable (_ → _))

/-- Listeners are registered, once each, and removed between notifications; a
listener sets the value only when no notification has a change listener left to
call. -/
def Orderly [DecidableEq C] [DecidableEq V] : Step I C V → Observable I C V → Prop
  | .addInvalidation _ _, o => o.frames = []
  | .removeInvalidation _, o => o.frames = []
  | .addChange _ c, o => o.frames = [] ∧ some c ∉ o.helper.changeListeners
  | .removeChange _, o => o.frames = []
  | .fire, _ => False
  | .set v, o => o.value ≠ v → ∀ f ∈ o.fires, Fire.Settled f
  | .next, _ => True

instance [DecidableEq I] [DecidableEq C] [DecidableEq V] :
    ∀ (a : Step I C V) (o : Observable I C V), Decidable (Orderly a o)
  | .addInvalidation _ _, o => inferInstanceAs (Decidable (o.frames = []))
  | .removeInvalidation _, o => inferInstanceAs (Decidable (o.frames = []))
  | .addChange _ c, o => inferInstanceAs (Decidable (o.frames = [] ∧ some c ∉ o.helper.changeListeners))
  | .removeChange _, o => inferInstanceAs (Decidable (o.frames = []))
  | .fire, _ => inferInstanceAs (Decidable False)
  | .set v, o => inferInstanceAs (Decidable (o.value ≠ v → ∀ f ∈ o.fires, Fire.Settled f))
  | .next, _ => inferInstanceAs (Decidable True)

/-- What the registered change listeners have seen: the current value, or the old
one if they are still to be called. -/
def Told [DecidableEq C] (cs : List C) (currentValue : Option V) (log : List (Entry C V)) :
    Option (Nat × Option V) → Prop
  | none => ∀ c ∈ cs, lastSeen c log = some currentValue
  | some (i, oldValue) => oldValue ≠ currentValue ∧
      ∀ (j : Nat) (c : C), cs[j]? = some c → lastSeen c log = some (if i ≤ j then oldValue else currentValue)

structure ChainInv [DecidableEq C] (is : List I) (cs : List C) (o : Observable I C V) : Prop where
  chained : Chained o.log
  holds : o.helper.Holds 0 is cs
  nodup : cs.Nodup
  onCurrent : ∀ f ∈ o.fires, o.helper.helper = .generic f.ref ∧ f.curChange = o.helper.changeSlots
  settled : ∀ f ∈ o.fires.tail, Fire.Settled f
  told : Told cs o.helper.currentValue o.log o.pending
  read : cs ≠ [] → (o.valid = true ∧ o.helper.currentValue = o.value) ∨ ∃ f ∈ o.fires, f.inChanges = false

theorem fires_nil {o : Observable I C V} (h : o.frames = []) : o.fires = [] := by
  rw [fires, h]
  rfl

theorem readsOnAdd_first {is : List I} {m : ExpressionHelper I C V} (h : m.Holds 0 is []) (collected : C → Bool)
    (value : Option V) (c : C) : readsOnAdd m (m.addChange collected value c) = true := by
  obtain ⟨helper, generics, arraysI, arraysC⟩ := m
  cases helper with
  | null => rfl
  | singleInvalidation this => rfl
  | singleChange this v => rfl
  | generic ref =>
    obtain ⟨-, g, hg, -, hc⟩ := h
    have hcurrent : (⟨.generic ref, generics, arraysI, arraysC⟩ : ExpressionHelper I C V).current = some g := hg
    obtain ⟨kept, hkept, hsize, -⟩ := Slots.add_keeps hc g.locked collected c
    have hnil : kept = [] := by
      rcases hkept with rfl | rfl
      · rfl
      · rfl
    rw [hnil] at hsize
    dsimp only at hg hsize
    rw [ExpressionHelper.addChange]
    dsimp only
    rw [hg, readsOnAdd, hcurrent]
    dsimp only
    rw [ExpressionHelper.current_set hg]
    exact decide_eq_true hsize

section Idle
variable [DecidableEq C] {is : List I} {cs : List C} {o : Observable I C V}

theorem ChainInv.idle (h : ChainInv is cs o) (hframes : o.frames = []) :
    (cs ≠ [] → o.valid = true ∧ o.helper.currentValue = o.value) ∧ ∀ c ∈ cs, lastSeen c o.log = some o.value := by
  have hfires := fires_nil hframes
  have hread : cs ≠ [] → o.valid = true ∧ o.helper.currentValue = o.value := by
    intro hne
    rcases h.read hne with hread | ⟨f, hf, -⟩
    · exact hread
    · rw [hfires] at hf
      cases hf
  refine ⟨hread, ?_⟩
  intro c hc
  have htold := h.told
  rw [pending, hfires] at htold
  rw [htold c hc, (hread (List.ne_nil_of_mem hc)).2]

theorem chainInv_of_idle (hframes : o.frames = []) (chained : Chained o.log) (holds : o.helper.Holds 0 is cs)
    (nodup : cs.Nodup) (hread : cs ≠ [] → o.valid = true ∧ o.helper.currentValue = o.value)
    (hseen : ∀ c ∈ cs, lastSeen c o.log = some o.value) : ChainInv is cs o := by
  have hfires := fires_nil hframes
  refine ⟨chained, holds, nodup, ?_, ?_, ?_, fun hne => Or.inl (hread hne)⟩
  · rw [hfires]
    simp
  · rw [hfires]
    simp
  · rw [pending, hfires]
    intro c hc
    rw [hseen c hc, (hread (List.ne_nil_of_mem hc)).2]

/-! ## Registrations -/

theorem addInvalidation_chain [BEq I] [DecidableEq V] (h : ChainInv is cs o) (hframes : o.frames = [])
    (collected : I → Bool) (l : I) : ∃ is', ChainInv is' cs (step true (.addInvalidation collected l) o) := by
  obtain ⟨hread, hseen⟩ := h.idle hframes
  have hholds := @ExpressionHelper.addInvalidation_holds I C V 0 is cs o.helper collected (Or.inl rfl) h.holds o.value l
  refine ⟨_, chainInv_of_idle hframes h.chained hholds h.nodup ?_ hseen⟩
  intro hne
  exact ⟨rfl, ExpressionHelper.addInvalidation_currentValue h.holds hne (hread hne).2 collected l⟩

theorem removeInvalidation_chain [BEq I] [DecidableEq V] (h : ChainInv is cs o) (hframes : o.frames = []) (l : I) :
    ∃ is', ChainInv is' cs (step true (.removeInvalidation l) o) := by
  obtain ⟨hread, hseen⟩ := h.idle hframes
  refine ⟨_, chainInv_of_idle hframes h.chained
    (ExpressionHelper.removeInvalidation_holds (Or.inl rfl) h.holds o.value l) h.nodup ?_ hseen⟩
  intro hne
  refine ⟨?_, ExpressionHelper.removeInvalidation_currentValue h.holds hne (hread hne).2 l⟩
  rw [step]
  dsimp only
  rw [(hread hne).1, Bool.true_or]

theorem removeChange_chain [BEq I] [DecidableEq V] (h : ChainInv is cs o) (hframes : o.frames = []) (c : C) :
    ∃ cs', ChainInv is cs' (step true (.removeChange c) o) := by
  obtain ⟨hread, hseen⟩ := h.idle hframes
  have hsub : (cs.eraseP (fun x => c == x)).Sublist cs := List.eraseP_sublist
  refine ⟨_, chainInv_of_idle hframes h.chained
    (ExpressionHelper.removeChange_holds (Or.inl rfl) h.holds o.value c) (h.nodup.sublist hsub) ?_ ?_⟩
  · intro hne
    have hcs : cs ≠ [] := by
      rintro rfl
      exact hne rfl
    refine ⟨?_, ExpressionHelper.removeChange_currentValue h.holds (fun hcs => (hread hcs).2) c hne⟩
    rw [step]
    dsimp only
    rw [(hread hcs).1, Bool.true_or]
  · intro d hd
    exact hseen d (hsub.subset hd)

theorem addChange_chain [BEq I] [DecidableEq V] (h : ChainInv is cs o) (hframes : o.frames = [])
    (collected : C → Bool) {c : C} (hnew : some c ∉ o.helper.changeListeners) :
    ∃ cs', ChainInv is cs' (step true (.addChange collected c) o) := by
  obtain ⟨hread, hseen⟩ := h.idle hframes
  have hholds := @ExpressionHelper.addChange_holds I C V 0 is cs o.helper collected (Or.inl rfl) h.holds o.value c
  have hsub : (o.helper.keptChange collected cs).Sublist cs := by
    rcases @ExpressionHelper.keptChange_eq I C V cs o.helper collected with heq | heq
    · rw [heq]
    · rw [heq]
      exact List.filter_sublist
  have hc : c ∉ cs := by
    rw [h.holds.changeListeners_eq] at hnew
    intro hmem
    exact hnew (List.mem_map_of_mem hmem)
  refine ⟨_, chainInv_of_idle hframes ?_ hholds ?_ ?_ ?_⟩
  · apply h.chained.append
    intro d oldValue newValue heq
    cases heq
  · apply List.nodup_append.mpr
    refine ⟨h.nodup.sublist hsub, by simp, ?_⟩
    intro d hd e he heq
    rw [List.mem_singleton.mp he] at heq
    subst heq
    exact hc (hsub.subset hd)
  · intro _
    refine ⟨?_, ExpressionHelper.addChange_currentValue h.holds (fun hcs => (hread hcs).2) collected c⟩
    rw [step]
    dsimp only
    by_cases hcs : cs = []
    · subst hcs
      rw [readsOnAdd_first h.holds, Bool.or_true]
    · rw [(hread hcs).1, Bool.true_or]
  · intro d hd
    rw [step]
    dsimp only
    rw [lastSeen_registered]
    split
    · rfl
    · rename_i hne
      rcases List.mem_append.mp hd with hd | hd
      · exact hseen d (hsub.subset hd)
      · exact absurd (List.mem_singleton.mp hd).symm hne

end Idle

/-! ## Notifications -/

theorem pending_settled {o : Observable I C V} (h : ∀ f ∈ o.fires, Fire.Settled f) : o.pending = none := by
  rw [pending]
  split
  · rename_i f rest hfires
    have hf := h f (by rw [hfires]; exact List.mem_cons_self)
    split
    · rename_i i oldValue hloop
      rw [Fire.Settled, Fire.inChanges, Fire.nextChange, hloop] at hf
      rw [if_neg (Nat.not_lt.mpr (hf rfl))]
    · rfl
  · rfl

theorem changeSlots_represents {is : List I} {cs : List C} {m : ExpressionHelper I C V} (h : m.Holds 0 is cs) {ref : Nat}
    (hhelper : m.helper = .generic ref) : m.changeSlots.Represents m.changeArrays cs := by
  rw [ExpressionHelper.Holds, hhelper] at h
  obtain ⟨-, g, hg, -, hc⟩ := h
  have hslots : m.changeSlots = g.change := by
    simp [ExpressionHelper.changeSlots, ExpressionHelper.current, hhelper, hg]
  rw [hslots]
  exact hc

section Fire
variable [DecidableEq C] {is : List I} {cs : List C} {o : Observable I C V}

theorem fireSingle_chain [DecidableEq V] (h : ChainInv is cs o) {listener : C} {oldValue : Option V}
    (hhelper : o.helper.helper = .singleChange listener oldValue) (v : Option V) :
    ChainInv is cs (fire true { o with value := v, valid := false }) := by
  have hfires : o.fires = [] := by
    apply List.eq_nil_iff_forall_not_mem.mpr
    intro f hf
    have := (h.onCurrent f hf).1
    rw [hhelper] at this
    cases this
  have hholds := h.holds
  rw [ExpressionHelper.Holds, hhelper] at hholds
  obtain ⟨rfl, rfl⟩ := hholds
  have hseen : lastSeen listener o.log = some oldValue := by
    have htold := h.told
    rw [pending, hfires, ExpressionHelper.currentValue, hhelper] at htold
    exact htold listener (by simp)
  have hholds' : ({ o.helper with helper := .singleChange listener v } : ExpressionHelper I C V).Holds 0 [] [listener] :=
    ⟨rfl, rfl⟩
  rw [fire]
  dsimp only
  rw [hhelper]
  dsimp only
  rw [if_pos rfl]
  split
  · rename_i hne
    refine ⟨?_, hholds', h.nodup, ?_, ?_, ?_, fun _ => Or.inl ⟨rfl, rfl⟩⟩
    · apply h.chained.append
      intro c old new heq
      cases heq
      exact ⟨hseen, Ne.symm hne⟩
    · intro f hf
      have : f ∈ o.fires := hf
      rw [hfires] at this
      cases this
    · intro f hf
      have : f ∈ o.fires.tail := hf
      rw [hfires] at this
      cases this
    · have hnone : ({ o with
          helper := { o.helper with helper := .singleChange listener v }
          frames := .single :: o.frames } : Observable I C V).pending = none := by
        apply pending_settled
        intro f hf
        have : f ∈ o.fires := hf
        rw [hfires] at this
        cases this
      change Told _ v (o.log ++ [Entry.changed listener oldValue v]) ({ o with
          helper := { o.helper with helper := .singleChange listener v }
          frames := .single :: o.frames } : Observable I C V).pending
      rw [hnone]
      intro c hc
      rw [List.mem_singleton.mp hc, lastSeen_changed, if_pos rfl]
  · rename_i heq
    have heq : v = oldValue := by simpa using heq
    subst heq
    refine ⟨h.chained, hholds', h.nodup, ?_, ?_, ?_, fun _ => Or.inl ⟨rfl, rfl⟩⟩
    · intro f hf
      have : f ∈ o.fires := hf
      rw [hfires] at this
      cases this
    · exact h.settled
    · have htold := h.told
      rw [ExpressionHelper.currentValue, hhelper] at htold
      exact htold

theorem fireGeneric_chain [DecidableEq V] (h : ChainInv is cs o) {ref : Nat} (hhelper : o.helper.helper = .generic ref)
    (settled : ∀ f ∈ o.fires, Fire.Settled f) (v : Option V) :
    ChainInv is cs (fire true { o with value := v, valid := false }) := by
  have hholds := h.holds
  rw [ExpressionHelper.Holds, hhelper] at hholds
  obtain ⟨-, g, hg, -, -⟩ := hholds
  have htold := h.told
  rw [pending_settled settled] at htold
  rw [fire]
  dsimp only
  rw [hhelper]
  dsimp only
  rw [hg]
  have hslots := (@ExpressionHelper.slots_modifyGeneric I C V o.helper ref (fun g => { g with locked := true })
    (fun _ => rfl) (fun _ => rfl)).2
  have hcurrent : o.helper.changeSlots = g.change := by
    simp [ExpressionHelper.changeSlots, ExpressionHelper.current, hhelper, hg]
  refine ⟨h.chained, ExpressionHelper.modifyGeneric_holds (fun _ => rfl) (fun _ => rfl) h.holds, h.nodup, ?_,
    settled, ?_, fun _ => Or.inr ⟨_, List.mem_cons_self, rfl⟩⟩
  · intro f hf
    rcases List.mem_cons.mp hf with rfl | hf
    · exact ⟨hhelper, hcurrent.symm.trans hslots.symm⟩
    · obtain ⟨hf1, hf2⟩ := h.onCurrent f hf
      exact ⟨hf1, hf2.trans hslots.symm⟩
  · change Told cs (o.helper.modifyGeneric ref (fun g => { g with locked := true })).currentValue o.log none
    rw [@ExpressionHelper.modifyGeneric_currentValue I C V o.helper ref (fun g => { g with locked := true })
      (fun _ => rfl)]
    exact htold

theorem set_chain [DecidableEq V] (h : ChainInv is cs o) (v : Option V) (settled : o.value ≠ v → ∀ f ∈ o.fires, Fire.Settled f) :
    ChainInv is cs (set true v o) := by
  rw [set]
  split
  · rename_i hne
    split
    · cases hhelper : o.helper.helper with
      | null =>
        have hholds := h.holds
        rw [ExpressionHelper.Holds, hhelper] at hholds
        rw [fire, hhelper]
        exact ⟨h.chained, h.holds, h.nodup, h.onCurrent, h.settled, h.told, fun hcs => absurd hholds.2 hcs⟩
      | singleInvalidation listener =>
        have hholds := h.holds
        rw [ExpressionHelper.Holds, hhelper] at hholds
        rw [fire, hhelper]
        exact ⟨h.chained, h.holds, h.nodup, h.onCurrent, h.settled, h.told, fun hcs => absurd hholds.2 hcs⟩
      | singleChange listener oldValue => exact fireSingle_chain h hhelper v
      | generic ref => exact fireGeneric_chain h hhelper (settled hne) v
    · rename_i hinvalid
      refine ⟨h.chained, h.holds, h.nodup, h.onCurrent, h.settled, h.told, ?_⟩
      intro hcs
      rcases h.read hcs with hread | hread
      · exact absurd hread.1 hinvalid
      · exact Or.inr hread
  · exact h

theorem finish_chain (h : ChainInv is cs o) {f : Fire I C V} {rest : List (Frame I C V)}
    (hframes : o.frames = .generic f :: rest) (r : Record I C) (settled : Fire.Settled f)
    (hread : cs ≠ [] → (o.valid = true ∧ o.helper.currentValue = o.value) ∨
      ∃ f' ∈ ({ o with frames := rest } : Observable I C V).fires, f'.inChanges = false) :
    ChainInv is cs (finish f.ref r rest o) := by
  have hfires : o.fires = f :: ({ o with frames := rest } : Observable I C V).fires := by
    rw [fires, hframes]
    rfl
  have htail : ∀ f' ∈ ({ o with frames := rest } : Observable I C V).fires, Fire.Settled f' := by
    intro f' hf'
    apply h.settled
    rw [hfires]
    exact hf'
  have hall : ∀ f' ∈ o.fires, Fire.Settled f' := by
    intro f' hf'
    rw [hfires] at hf'
    rcases List.mem_cons.mp hf' with rfl | hf'
    · exact settled
    · exact htail f' hf'
  have hslots := (@ExpressionHelper.slots_modifyGeneric I C V o.helper f.ref (fun g => { g with locked := false })
    (fun _ => rfl) (fun _ => rfl)).2
  have hvalue := @ExpressionHelper.modifyGeneric_currentValue I C V o.helper f.ref
    (fun g => { g with locked := false }) (fun _ => rfl)
  have hpending : (finish f.ref r rest o).pending = none := pending_settled htail
  have htold := h.told
  rw [pending_settled hall] at htold
  refine ⟨h.chained, ExpressionHelper.modifyGeneric_holds (fun _ => rfl) (fun _ => rfl) h.holds, h.nodup, ?_, ?_, ?_, ?_⟩
  · intro f' hf'
    obtain ⟨h1, h2⟩ := h.onCurrent f' (by
      rw [hfires]
      exact List.mem_cons_of_mem f hf')
    exact ⟨h1, h2.trans hslots.symm⟩
  · intro f' hf'
    exact htail f' (List.mem_of_mem_tail hf')
  · rw [hpending]
    change Told cs (o.helper.modifyGeneric f.ref (fun g => { g with locked := false })).currentValue o.log none
    rw [hvalue]
    exact htold
  · intro hcs
    change (o.valid = true ∧ (o.helper.modifyGeneric f.ref (fun g => { g with locked := false })).currentValue = o.value) ∨ _
    rw [hvalue]
    exact hread hcs

theorem replace_chain (h : ChainInv is cs o) {f f' : Fire I C V} {rest : List (Frame I C V)} {log : List (Entry C V)}
    (hframes : o.frames = .generic f :: rest) (href : f'.ref = f.ref) (hcur : f'.curChange = f.curChange)
    (hphase : f'.inChanges = f.inChanges) (chained : Chained log)
    (told : Told cs o.helper.currentValue log
      ({ o with frames := .generic f' :: rest, log := log } : Observable I C V).pending) :
    ChainInv is cs { o with frames := .generic f' :: rest, log := log } := by
  have hfires : o.fires = f :: ({ o with frames := rest } : Observable I C V).fires := by
    rw [fires, hframes]
    rfl
  refine ⟨chained, h.holds, h.nodup, ?_, ?_, told, ?_⟩
  · intro f'' hf''
    rcases List.mem_cons.mp hf'' with rfl | hf''
    · rw [href, hcur]
      apply h.onCurrent
      rw [hfires]
      exact List.mem_cons_self
    · apply h.onCurrent
      rw [hfires]
      exact List.mem_cons_of_mem f hf''
  · intro f'' hf''
    apply h.settled
    rw [hfires]
    exact hf''
  · intro hcs
    apply (h.read hcs).imp_right
    rintro ⟨f'', hf'', hin⟩
    rw [hfires] at hf''
    rcases List.mem_cons.mp hf'' with rfl | hf''
    · exact ⟨f', List.mem_cons_self, hphase.trans hin⟩
    · exact ⟨f'', List.mem_cons_of_mem f' hf'', hin⟩

theorem notifyChange_chain (h : ChainInv is cs o) {f : Fire I C V} {rest : List (Frame I C V)}
    (hframes : o.frames = .generic f :: rest) {i : Nat} {oldValue : Option V} (hloop : f.loop = .change i oldValue)
    (hi : i < f.curChange.size) : ChainInv is cs (notifyChange true f i oldValue rest o) := by
  have hmem : f ∈ o.fires := by
    rw [fires, hframes]
    exact List.mem_cons_self
  obtain ⟨hhelper, hcur⟩ := h.onCurrent f hmem
  have hrep := changeSlots_represents h.holds hhelper
  have hlen : f.curChange.size = cs.length := by
    rw [hcur]
    exact hrep.1
  have hc : cs[i]? = some cs[i] := List.getElem?_eq_getElem (by omega)
  have hslot : f.curChange.get o.helper.changeArrays i = some cs[i] := by
    rw [hcur]
    exact ((Slots.reads_start hrep).mono (Nat.zero_le i)).get_eq hc
  have hvalue : (o.helper.generics[f.ref]?).bind Generic.currentValue = o.helper.currentValue := by
    rw [ExpressionHelper.currentValue, hhelper]
  have hpending : o.pending = some (i, oldValue) := by
    rw [pending, fires, hframes]
    simp [hloop, hi]
  have htold := h.told
  rw [hpending] at htold
  obtain ⟨hne, hseen⟩ := htold
  have hthis : lastSeen cs[i] o.log = some oldValue := by
    rw [hseen i cs[i] hc, if_pos (Nat.le_refl _)]
  -- the listener has seen the value now, the others are as before
  have hafter : ∀ (j : Nat) (d : C), cs[j]? = some d →
      lastSeen d (o.log ++ [Entry.changed cs[i] oldValue o.helper.currentValue]) =
        some (if i + 1 ≤ j then oldValue else o.helper.currentValue) := by
    intro j d hd
    rw [lastSeen_changed]
    obtain ⟨hj, rfl⟩ := List.getElem?_eq_some_iff.mp hd
    by_cases hij : i = j
    · subst hij
      rw [if_pos rfl, if_neg (by omega)]
    · have hne' : cs[i] ≠ cs[j] := by
        intro heq
        exact hij (h.nodup.getElem_inj_iff.mp heq)
      rw [if_neg hne', hseen j _ hd]
      by_cases hle : i ≤ j
      · rw [if_pos hle, if_pos (by omega)]
      · rw [if_neg hle, if_neg (by omega)]
  rw [notifyChange]
  dsimp only
  rw [hslot, hvalue]
  dsimp only
  rw [if_pos rfl]
  refine replace_chain h hframes rfl rfl (by rw [Fire.inChanges, Fire.inChanges, hloop]) ?_ ?_
  · apply h.chained.append
    intro c old new heq
    cases heq
    exact ⟨hthis, hne⟩
  · rw [pending]
    change Told cs _ _ (if i + 1 < f.curChange.size then some (i + 1, oldValue) else none)
    split
    · exact ⟨hne, hafter⟩
    · intro d hd
      obtain ⟨j, hj, rfl⟩ := List.getElem_of_mem hd
      rw [hafter j _ (List.getElem?_eq_getElem hj), if_neg (by omega)]

theorem enterChanges_chain [DecidableEq V] (h : ChainInv is cs o) {f : Fire I C V} {rest : List (Frame I C V)}
    (hframes : o.frames = .generic f :: rest) {i : Nat} (hloop : f.loop = .invalidation i) :
    ChainInv is cs (enterChanges true f rest o) := by
  have hfires : o.fires = f :: ({ o with frames := rest } : Observable I C V).fires := by
    rw [fires, hframes]
    rfl
  obtain ⟨hhelper, hcur⟩ := h.onCurrent f (by
    rw [hfires]
    exact List.mem_cons_self)
  have hholds := h.holds
  rw [ExpressionHelper.Holds, hhelper] at hholds
  obtain ⟨-, g, hg, -, -⟩ := hholds
  have hrep := changeSlots_represents h.holds hhelper
  have hlen : f.curChange.size = cs.length := by
    rw [hcur]
    exact hrep.1
  have hsettled : Fire.Settled f := by
    intro hin
    rw [Fire.inChanges, hloop] at hin
    cases hin
  have hall : ∀ f' ∈ o.fires, Fire.Settled f' := by
    intro f' hf'
    rw [hfires] at hf'
    rcases List.mem_cons.mp hf' with rfl | hf'
    · exact hsettled
    · apply h.settled
      rw [hfires]
      exact hf'
  have htold := h.told
  rw [pending_settled hall] at htold
  have hold : o.helper.currentValue = g.currentValue := by
    rw [ExpressionHelper.currentValue, hhelper]
    dsimp only
    rw [hg]
    rfl
  have hslots := (@ExpressionHelper.slots_modifyGeneric I C V o.helper f.ref
    (fun g => { g with currentValue := o.value }) (fun _ => rfl) (fun _ => rfl)).2
  have hstored := ExpressionHelper.storeValue_currentValue hhelper hg o.value
  unfold enterChanges
  rw [if_pos rfl, hg]
  dsimp only
  split
  · rename_i hsize
    split
    · rename_i hne
      -- all change listeners are to be called, with the value they have seen as the old one
      refine ⟨h.chained, ExpressionHelper.modifyGeneric_holds (fun _ => rfl) (fun _ => rfl) h.holds, h.nodup, ?_, ?_, ?_,
        fun _ => Or.inl ⟨rfl, hstored⟩⟩
      · intro f' hf'
        rcases List.mem_cons.mp hf' with rfl | hf'
        · exact ⟨hhelper, hcur.trans hslots.symm⟩
        · obtain ⟨h1, h2⟩ := h.onCurrent f' (by
            rw [hfires]
            exact List.mem_cons_of_mem f hf')
          exact ⟨h1, h2.trans hslots.symm⟩
      · intro f' hf'
        apply hall
        rw [hfires]
        exact List.mem_cons_of_mem f hf'
      · rw [pending]
        change Told cs (o.helper.modifyGeneric f.ref (fun g => { g with currentValue := o.value })).currentValue o.log
          (if 0 < f.curChange.size then some (0, g.currentValue) else none)
        rw [hstored, if_pos hsize]
        refine ⟨Ne.symm hne, ?_⟩
        intro j c hc
        rw [if_pos (Nat.zero_le j), ← hold]
        exact htold c (List.mem_of_getElem? hc)
    · rename_i heq
      have heq : o.value = g.currentValue := by simpa using heq
      have hread : ChainInv is cs { o with
          valid := true
          helper := o.helper.modifyGeneric f.ref (fun g => { g with currentValue := o.value }) } := by
        refine ⟨h.chained, ExpressionHelper.modifyGeneric_holds (fun _ => rfl) (fun _ => rfl) h.holds, h.nodup, ?_,
          h.settled, ?_, fun _ => Or.inl ⟨rfl, hstored⟩⟩
        · intro f' hf'
          obtain ⟨h1, h2⟩ := h.onCurrent f' hf'
          exact ⟨h1, h2.trans hslots.symm⟩
        · change Told cs (o.helper.modifyGeneric f.ref (fun g => { g with currentValue := o.value })).currentValue o.log
            o.pending
          rw [hstored, pending_settled hall, heq, ← hold]
          exact htold
      exact finish_chain hread hframes _ hsettled (fun _ => Or.inl ⟨rfl, hstored⟩)
  · rename_i hsize
    have hnil : cs = [] := List.eq_nil_of_length_eq_zero (by omega)
    exact finish_chain h hframes _ hsettled (fun hcs => absurd hnil hcs)

theorem ChainInv.refs (h : ChainInv is cs o) : ∀ f ∈ o.fires, f.ref < o.helper.generics.length := by
  intro f hf
  have hholds := h.holds
  rw [ExpressionHelper.Holds, (h.onCurrent f hf).1] at hholds
  obtain ⟨-, g, hg, -⟩ := hholds
  exact (List.getElem?_eq_some_iff.mp hg).1

theorem next_chain [DecidableEq V] (h : ChainInv is cs o) : ChainInv is cs (next true o) := by
  unfold next
  split
  · exact h
  · rename_i rest hframes
    have hfires : ({ o with frames := rest } : Observable I C V).fires = o.fires := by
      rw [fires, fires, hframes]
      rfl
    have hpending : ({ o with frames := rest } : Observable I C V).pending = o.pending := by
      rw [pending, pending, hfires]
    refine ⟨h.chained, h.holds, h.nodup, ?_, ?_, ?_, ?_⟩
    · rw [hfires]
      exact h.onCurrent
    · rw [hfires]
      exact h.settled
    · rw [hpending]
      exact h.told
    · rw [hfires]
      exact h.read
  · rename_i f rest hframes
    split
    · rename_i i hloop
      split
      · refine replace_chain h hframes ?_ ?_ ?_ h.chained ?_
        · rfl
        · rfl
        · rw [Fire.inChanges, Fire.inChanges, hloop]
        · have hnone : o.pending = none := by
            rw [pending, fires, hframes]
            simp [hloop]
          have htold := h.told
          rw [hnone] at htold
          exact htold
      · exact enterChanges_chain h hframes hloop
    · rename_i i oldValue hloop
      split
      · rename_i hi
        exact notifyChange_chain h hframes hloop hi
      · rename_i hi
        apply finish_chain h hframes _
        · intro _
          rw [Fire.nextChange, hloop]
          exact Nat.not_lt.mp hi
        · intro hcs
          apply (h.read hcs).imp_right
          rintro ⟨f', hf', hin⟩
          rw [fires, hframes] at hf'
          rcases List.mem_cons.mp hf' with rfl | hf'
          · rw [Fire.inChanges, hloop] at hin
            cases hin
          · exact ⟨f', hf', hin⟩

theorem start_chain (value : Option V) : ChainInv [] [] (start value : Observable I C V) := by
  refine chainInv_of_idle rfl ?_ ⟨rfl, rfl⟩ List.nodup_nil (fun h => absurd rfl h) (by simp)
  intro before after c oldValue newValue heq
  exact absurd heq.symm (by simp [start])

variable [DecidableEq I] [DecidableEq V]

theorem step_chain (a : Step I C V) (h : ∃ is cs, ChainInv is cs o) (orderly : Orderly a o) :
    ∃ is cs, ChainInv is cs (step true a o) := by
  obtain ⟨is, cs, h⟩ := h
  cases a with
  | addInvalidation collected l =>
    obtain ⟨is', h'⟩ := addInvalidation_chain h orderly collected l
    exact ⟨is', cs, h'⟩
  | removeInvalidation l =>
    obtain ⟨is', h'⟩ := removeInvalidation_chain h orderly l
    exact ⟨is', cs, h'⟩
  | addChange collected c =>
    obtain ⟨cs', h'⟩ := addChange_chain h orderly.1 collected orderly.2
    exact ⟨is, cs', h'⟩
  | removeChange c =>
    obtain ⟨cs', h'⟩ := removeChange_chain h orderly c
    exact ⟨is, cs', h'⟩
  | fire => exact absurd orderly id
  | set v => exact ⟨is, cs, set_chain h v orderly⟩
  | next => exact ⟨is, cs, next_chain h⟩

theorem deliveries_chain {value : Option V} {steps : List (Step I C V)}
    (orderly : Guarded Orderly (step true) steps (start value)) :
    Chained (exec (step true) steps (start value)).log ∧
      ((exec (step true) steps (start value)).frames = [] →
        ∀ c, some c ∈ (exec (step true) steps (start value)).helper.changeListeners →
          lastSeen c (exec (step true) steps (start value)).log =
            some (exec (step true) steps (start value)).value) ∧
      ∃ n, (exec (step true) (List.replicate n .next) (exec (step true) steps (start value))).frames = [] := by
  obtain ⟨is, cs, h⟩ := @exec_invariant _ _ (fun o => ∃ is cs, ChainInv is cs o) _ _
    (fun a _ hs hg => step_chain a hs hg) _ _ ⟨[], [], start_chain value⟩ orderly
  refine ⟨h.chained, ?_, notifications_end (fun _ ho => next_chain ho) (fun _ ho => ho.refs) h⟩
  intro hframes c hc
  rw [h.holds.changeListeners_eq] at hc
  obtain ⟨d, hd, heq⟩ := List.mem_map.mp hc
  cases heq
  exact (h.idle hframes).2 c hd

end Fire

/-- The invalidation listener sets the value again before it has been read, and
so does the second change listener when it is called. -/
def lastListenerSets : List (Step Nat Nat Nat) :=
  [.addChange (fun _ => false) 1, .addChange (fun _ => false) 2, .addInvalidation (fun _ => false) 3, .set (some 1),
    .next, .set (some 2), .next, .next, .next, .set (some 3), .next, .next, .next, .next, .next, .next]

theorem deliveries_chain_last : Guarded Orderly (step true) lastListenerSets (start (some 0)) ∧
    Chained (exec (step true) lastListenerSets (start (some 0))).log ∧
    (exec (step true) lastListenerSets (start (some 0))).log =
      [.registered 1 (some 0), .registered 2 (some 0), .changed 1 (some 0) (some 2), .changed 2 (some 0) (some 2),
        .changed 1 (some 2) (some 3), .changed 2 (some 2) (some 3)] := by
  have orderly : Guarded Orderly (step true) lastListenerSets (start (some 0)) := by decide
  exact ⟨orderly, (deliveries_chain orderly).1, by decide⟩

/-- The first of two change listeners sets the value again: the second one is told
of the change from 1 to 2 before it has heard of 1, and then of one from 0 to 2. -/
theorem first_listener_sets_breaks_chain :
    (exec (step true) [.addChange (fun _ => false) 1, .addChange (fun _ => false) 2, .set (some 1), .next, .next,
      .set (some 2), .next, .next, .next, .next, .next, .next] (start (some 0) : Observable Nat Nat Nat)).log =
      [.registered 1 (some 0), .registered 2 (some 0), .changed 1 (some 0) (some 1), .changed 1 (some 1) (some 2),
        .changed 2 (some 1) (some 2), .changed 2 (some 0) (some 2)] ∧
    ¬ Chained (exec (step true) [.addChange (fun _ => false) 1, .addChange (fun _ => false) 2, .set (some 1), .next,
      .next, .set (some 2), .next, .next, .next, .next, .next, .next] (start (some 0) : Observable Nat Nat Nat)).log := by
  refine ⟨by decide, ?_⟩
  intro h
  have hfirst := h [.registered 1 (some 0), .registered 2 (some 0), .changed 1 (some 0) (some 1),
    .changed 1 (some 1) (some 2)] [.changed 2 (some 0) (some 2)] 2 (some 1) (some 2) (by decide)
  exact absurd hfirst.1 (by decide)

end Observable
end OpenJfx.Binding
