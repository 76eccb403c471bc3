import Mathlib.Data.List.Basic
import OpenJfx.Lib.Run

/-! # `com.sun.javafx.binding.BidirectionalBinding`

Two properties with a binding that is a change listener of both.  Each property
may have invalidation listeners, and change listeners registered before and after
the binding; they are foreign code and may read and set the property while they
are notified.  As for a single property, a run is a list of steps, and `next`
returns from the call in progress.

The subclasses for the primitive types and for objects do the same, and so does
`TypedNumberBidirectionalBinding`. -/
set_option autoImplicit false
namespace OpenJfx.Binding
open OpenJfx.Lib

inductive Side where
  | first
  | second
deriving DecidableEq, Repr

def Side.other : Side → Side
  | .first => .second
  | .second => .first

theorem Side.other_other (side : Side) : side.other.other = side := by
  cases side with
  | first => rfl
  | second => rfl

theorem Side.eq_or_eq_other (side source : Side) : side = source ∨ side = source.other := by
  cases side with
  | first => cases source <;> simp [Side.other]
  | second => cases source <;> simp [Side.other]

/-- The number of listeners of a property, apart from the binding. -/
structure Listeners where
  invalidation : Nat
  before : Nat
  after : Nat
deriving DecidableEq, Repr

/-- A property: its value, its `valid` flag, and the value its helper remembers. -/
structure Property (V : Type) where
  value : V
  valid : Bool
  currentValue : V
deriving DecidableEq, Repr

/-- The calls in progress: the two loops of `fireValueChangedEvent` of a property,
and `changed` of the binding, while it sets the other side or, in its error path,
restores the source. -/
inductive Call (V : Type) where
  | invalidation (side : Side) (i : Nat)
  | change (side : Side) (i : Nat) (oldValue : V)
  | updating (source : Side)
  | restoring (source : Side) (oldValue : V)
deriving DecidableEq, Repr

structure Bound (V : Type) where
  first : Property V
  second : Property V
  updating : Bool
  bound : Bool
  calls : List (Call V)
deriving DecidableEq, Repr

/-- How the setter of the other side ends, when the binding calls it: normally, or
with an exception thrown before or after the value is stored; `lost` means that
setting the source back to its old value throws as well. -/
inductive Attempt where
  | accepted
  | rejected
  | stored
  | lost
deriving DecidableEq, Repr

namespace Bound
variable {V : Type}

/-- `bind` makes the values equal and then registers the binding. -/
def start (v : V) : Bound V := ⟨⟨v, true, v⟩, ⟨v, true, v⟩, false, true, []⟩

def property (side : Side) (s : Bound V) : Property V :=
  match side with
  | .first => s.first
  | .second => s.second

def value (side : Side) (s : Bound V) : V := (s.property side).value

def store (side : Side) (p : Property V) (s : Bound V) : Bound V :=
  match side with
  | .first => { s with first := p }
  | .second => { s with second := p }

section Machine
variable [DecidableEq V]

/-- `set` of a property. -/
def set (side : Side) (v : V) (s : Bound V) : Bound V :=
  let p := s.property side
  if p.value ≠ v then
    if p.valid then
      { s.store side { p with value := v, valid := false } with calls := .invalidation side 0 :: s.calls }
    else s.store side { p with value := v }
  else s

def get (side : Side) (s : Bound V) : Bound V := s.store side { s.property side with valid := true }

/-- `changed` of the binding, up to the point where a setter has been called. -/
def changed (attempt : Attempt) (source : Side) (oldValue newValue : V) (s : Bound V) : Bound V :=
  if s.updating then s
  else
    match attempt with
    | .accepted => set source.other newValue { s with updating := true, calls := .updating source :: s.calls }
    | .rejected =>
        set source oldValue { s with updating := true, calls := .restoring source oldValue :: s.calls }
    | .stored =>
        let s := s.store source.other { s.property source.other with value := newValue, valid := false }
        set source oldValue { s with updating := true, calls := .restoring source oldValue :: s.calls }
    | .lost => { s with bound := false }

/-- What follows the loop over the invalidation listeners. -/
def enterChanges (side : Side) (rest : List (Call V)) (s : Bound V) : Bound V :=
  let p := s.property side
  let s := s.store side { p with valid := true, currentValue := p.value }
  if p.value ≠ p.currentValue then { s with calls := .change side 0 p.currentValue :: rest }
  else { s with calls := rest }

/-- The call in progress returns.  An exception thrown by the binding is caught by
the loop that called it. -/
def next (listeners : Side → Listeners) (attempt : Attempt) (s : Bound V) : Bound V :=
  match s.calls with
  | [] => s
  | .updating _ :: rest => { s with updating := false, calls := rest }
  | .restoring _ _ :: rest => { s with updating := false, calls := rest }
  | .invalidation side i :: rest =>
      if i < (listeners side).invalidation then { s with calls := .invalidation side (i + 1) :: rest }
      else enterChanges side rest s
  | .change side i oldValue :: rest =>
      if i < (listeners side).before + 1 + (listeners side).after then
        let s := { s with calls := .change side (i + 1) oldValue :: rest }
        if i = (listeners side).before then changed attempt side oldValue (s.property side).currentValue s else s
      else { s with calls := rest }

inductive Step (V : Type) where
  | set (side : Side) (value : V)
  | get (side : Side)
  | next (attempt : Attempt)
deriving DecidableEq, Repr

/-- When restoring the source has failed too, the binding is removed, and the run
is not followed any further. -/
def step (listeners : Side → Listeners) (a : Step V) (s : Bound V) : Bound V :=
  if s.bound then
    match a with
    | .set side v => set side v s
    | .get side => get side s
    | .next attempt => next listeners attempt s
  else s

end Machine

/-! ## The condition -/

def notifying (s : Bound V) : Option Side :=
  match s.calls with
  | .invalidation side _ :: _ => some side
  | .change side _ _ :: _ => some side
  | _ => none

/-- The binding, not updating, is the next listener to be called, and the other
side has the value already. -/
def repeats [DecidableEq V] (listeners : Side → Listeners) (s : Bound V) : Bool :=
  match s.calls with
  | .change side i _ :: _ =>
      i = (listeners side).before ∧ s.updating = false ∧ s.value side.other = (s.property side).currentValue
  | _ => false

/-- The value of a property is set from outside or by one of its own listeners, and
it is not changed while the binding is updating.  A setter called by the binding
may throw before it has stored the value, if it does not have that value yet; then
restoring the source does not throw as well. -/
def Undisturbed [DecidableEq V] (listeners : Side → Listeners) : Step V → Bound V → Prop
  | .set side v, s => (s.calls = [] ∨ s.notifying = some side) ∧ (s.value side ≠ v → s.updating = false)
  | .get _, _ => True
  | .next attempt, s =>
      attempt ≠ .stored ∧ attempt ≠ .lost ∧ (attempt = .rejected → s.repeats listeners = false)

instance [DecidableEq V] (listeners : Side → Listeners) : ∀ (a : Step V) (s : Bound V),
    Decidable (Undisturbed listeners a s)
  | .set side v, s => inferInstanceAs (Decidable
      ((s.calls = [] ∨ s.notifying = some side) ∧ (s.value side ≠ v → s.updating = false)))
  | .get _, _ => inferInstanceAs (Decidable True)
  | .next attempt, s => inferInstanceAs (Decidable
      (attempt ≠ .stored ∧ attempt ≠ .lost ∧ (attempt = .rejected → s.repeats listeners = false)))

/-! ## What the calls do -/

/-- `t` has the property `p` on one side, and agrees with `s` otherwise. -/
structure Stores (side : Side) (p : Property V) (s t : Bound V) : Prop where
  this : t.property side = p
  other : t.property side.other = s.property side.other
  updating : t.updating = s.updating
  bound : t.bound = s.bound

theorem stores_store (side : Side) (p : Property V) (s : Bound V) (calls : List (Call V)) :
    Stores side p s { s.store side p with calls := calls } := by
  cases side with
  | first => exact ⟨rfl, rfl, rfl, rfl⟩
  | second => exact ⟨rfl, rfl, rfl, rfl⟩

theorem store_stores (side : Side) (p : Property V) (s : Bound V) : Stores side p s (s.store side p) := by
  cases side with
  | first => exact ⟨rfl, rfl, rfl, rfl⟩
  | second => exact ⟨rfl, rfl, rfl, rfl⟩

theorem store_calls (side : Side) (p : Property V) (s : Bound V) : (s.store side p).calls = s.calls := by
  cases side with
  | first => rfl
  | second => rfl

theorem set_cases [DecidableEq V] (side : Side) (v : V) (s : Bound V) :
    (s.value side = v ∧ set side v s = s) ∨
    (s.value side ≠ v ∧ (s.property side).valid = true ∧
      Stores side ⟨v, false, (s.property side).currentValue⟩ s (set side v s) ∧
      (set side v s).calls = .invalidation side 0 :: s.calls) ∨
    (s.value side ≠ v ∧ (s.property side).valid = false ∧
      Stores side ⟨v, false, (s.property side).currentValue⟩ s (set side v s) ∧ (set side v s).calls = s.calls) := by
  rw [set]
  dsimp only
  split
  · rename_i hne
    split
    · rename_i hvalid
      exact Or.inr (Or.inl ⟨hne, hvalid, stores_store _ _ _ _, rfl⟩)
    · rename_i hvalid
      have hfalse : (s.property side).valid = false := by simpa using hvalid
      refine Or.inr (Or.inr ⟨hne, hfalse, ?_, store_calls _ _ _⟩)
      rw [hfalse]
      exact store_stores _ _ _
  · rename_i heq
    have heq : (s.property side).value = v := by simpa using heq
    exact Or.inl ⟨heq, rfl⟩

theorem set_bound [DecidableEq V] (side : Side) (v : V) (s : Bound V) : (set side v s).bound = s.bound := by
  rcases set_cases side v s with ⟨-, heq⟩ | ⟨-, -, hstores, -⟩ | ⟨-, -, hstores, -⟩
  · rw [heq]
  · exact hstores.bound
  · exact hstores.bound

theorem get_stores (side : Side) (s : Bound V) :
    Stores side { s.property side with valid := true } s (get side s) ∧ (get side s).calls = s.calls := by
  exact ⟨store_stores _ _ _, store_calls _ _ _⟩

theorem enterChanges_stores [DecidableEq V] (side : Side) (rest : List (Call V)) (s : Bound V) :
    Stores side ⟨s.value side, true, s.value side⟩ s (enterChanges side rest s) ∧
      ((s.value side ≠ (s.property side).currentValue ∧
        (enterChanges side rest s).calls = .change side 0 (s.property side).currentValue :: rest) ∨
      (s.value side = (s.property side).currentValue ∧ (enterChanges side rest s).calls = rest)) := by
  unfold enterChanges
  dsimp only
  split
  · rename_i hne
    exact ⟨stores_store _ _ _ _, Or.inl ⟨hne, rfl⟩⟩
  · rename_i heq
    have heq : (s.property side).value = (s.property side).currentValue := by simpa using heq
    exact ⟨stores_store _ _ _ _, Or.inr ⟨heq, rfl⟩⟩

/-! ### The binding stays registered -/

/-- The helper has seen the value. -/
def Settled (p : Property V) : Prop := p.value = p.currentValue ∧ p.valid = true

/-- The same, unless the invalidation listeners are being called. -/
def Consistent (side : Side) (p : Property V) (calls : List (Call V)) : Prop :=
  Settled p ∨ ∃ i rest, calls = .invalidation side i :: rest

def Fires (side : Side) : Call V → Prop
  | .invalidation side' _ => side' = side
  | .change side' _ _ => side' = side
  | _ => False

/-- A loop that will still call the binding, and whose old value is `q`. -/
def Owed (listeners : Side → Listeners) (q : V) : Call V → Prop
  | .change side i oldValue => i ≤ (listeners side).before ∧ oldValue = q
  | _ => False

/-- The other side has the value `q`: this is `x`, or the binding is still to be
called with `q` as the old value. -/
def Debt (listeners : Side → Listeners) (x q : V) (calls : List (Call V)) : Prop :=
  x = q ∨ ∃ c ∈ calls, Owed listeners q c

/-- The binding is not active: only listeners of `source` are being called. -/
structure Normal (listeners : Side → Listeners) (source : Side) (s : Bound V) : Prop where
  updating : s.updating = false
  fires : ∀ c ∈ s.calls, Fires source c
  consistent : Consistent source (s.property source) s.calls
  settled : Settled (s.property source.other)
  debt : Debt listeners (s.property source).currentValue (s.value source.other) s.calls

/-- The binding has set the other side, whose listeners are being called. -/
structure Updates (source : Side) (s : Bound V) (above below : List (Call V)) : Prop where
  updating : s.updating = true
  calls : s.calls = above ++ .updating source :: below
  shape : above = [] ∨ ∃ c, above = [c] ∧ Fires source.other c
  fires : ∀ c ∈ below, Fires source c
  settled : Settled (s.property source)
  consistent : Consistent source.other (s.property source.other) above
  equal : s.value source = s.value source.other

/-- The binding has set the source back, whose listeners are being called. -/
structure Restores (listeners : Side → Listeners) (source : Side) (oldValue : V) (s : Bound V)
    (above below : List (Call V)) : Prop where
  updating : s.updating = true
  calls : s.calls = above ++ .restoring source oldValue :: below
  shape : above = [] ∨ ∃ c, above = [c] ∧ Fires source c
  fires : ∀ c ∈ below, Fires source c
  consistent : Consistent source (s.property source) above
  settled : Settled (s.property source.other)
  restored : s.value source = oldValue
  debt : Debt listeners oldValue (s.value source.other) below

def Inv (listeners : Side → Listeners) (s : Bound V) : Prop :=
  s.bound = true → ∃ source, Normal listeners source s ∨ (∃ above below, Updates source s above below) ∨
    ∃ oldValue above below, Restores listeners source oldValue s above below

section Idle
variable {listeners : Side → Listeners} {source : Side} {s : Bound V}

theorem Normal.source_settled (h : Normal listeners source s) (hcalls : ∀ i rest, s.calls ≠ .invalidation source i :: rest) :
    Settled (s.property source) := by
  rcases h.consistent with hs | ⟨i, rest, hs⟩
  · exact hs
  · exact absurd hs (hcalls i rest)

theorem Normal.equal (h : Normal listeners source s) (hcalls : s.calls = []) (side : Side) :
    s.value side = s.value source ∧ Settled (s.property side) := by
  have hsource := h.source_settled (by simp [hcalls])
  have hequal : (s.property source).currentValue = s.value source.other := by
    rcases h.debt with heq | ⟨c, hc, -⟩
    · exact heq
    · rw [hcalls] at hc
      cases hc
  rcases Side.eq_or_eq_other side source with rfl | rfl
  · exact ⟨rfl, hsource⟩
  · exact ⟨hequal.symm.trans hsource.1.symm, h.settled⟩

theorem Normal.swap (h : Normal listeners source s) (hcalls : s.calls = []) (side : Side) :
    Normal listeners side s := by
  have hthis := h.equal hcalls side
  have hother := h.equal hcalls side.other
  refine ⟨h.updating, by simp [hcalls], Or.inl hthis.2, hother.2, Or.inl ?_⟩
  rw [← hthis.2.1, hother.1]
  exact hthis.1

end Idle

theorem Debt.mono {listeners : Side → Listeners} {x q : V} {calls calls' : List (Call V)} (h : Debt listeners x q calls)
    (hcalls : ∀ c ∈ calls, Owed listeners q c → c ∈ calls') : Debt listeners x q calls' := by
  rcases h with h | ⟨c, hc, howed⟩
  · exact Or.inl h
  · exact Or.inr ⟨c, hcalls c hc howed, howed⟩

section Steps
variable {listeners : Side → Listeners} {source : Side} {s : Bound V}

/-! ### Reading -/

theorem get_property (side side' : Side) (s : Bound V) :
    ((get side s).property side').value = (s.property side').value ∧
      ((get side s).property side').currentValue = (s.property side').currentValue ∧
      ((s.property side').valid = true → ((get side s).property side').valid = true) := by
  obtain ⟨hstores, -⟩ := get_stores side s
  rcases Side.eq_or_eq_other side' side with rfl | rfl
  · rw [hstores.this]
    exact ⟨rfl, rfl, fun _ => rfl⟩
  · rw [hstores.other]
    exact ⟨rfl, rfl, id⟩

theorem get_settled {side side' : Side} (h : Settled (s.property side')) : Settled ((get side s).property side') := by
  obtain ⟨h1, h2, h3⟩ := get_property side side' s
  exact ⟨by rw [h1, h2, h.1], h3 h.2⟩

theorem get_inv (side : Side) (h : Inv listeners s) : Inv listeners (get side s) := by
  obtain ⟨hstores, hcalls⟩ := get_stores side s
  have hvalue : ∀ side', (get side s).value side' = s.value side' := fun side' => (get_property side side' s).1
  intro hbound
  obtain ⟨source, hn | ⟨above, below, hu⟩ | ⟨oldValue, above, below, hr⟩⟩ := h (hstores.bound.symm.trans hbound)
  · refine ⟨source, Or.inl ⟨hstores.updating.trans hn.updating, ?_, ?_, get_settled hn.settled, ?_⟩⟩
    · rw [hcalls]
      exact hn.fires
    · rw [hcalls]
      exact hn.consistent.imp_left get_settled
    · rw [hcalls, hvalue, (get_property side source s).2.1]
      exact hn.debt
  · refine ⟨source, Or.inr (Or.inl ⟨above, below, hstores.updating.trans hu.updating, hcalls.trans hu.calls, hu.shape,
      hu.fires, get_settled hu.settled, hu.consistent.imp_left get_settled, ?_⟩)⟩
    rw [hvalue, hvalue]
    exact hu.equal
  · refine ⟨source, Or.inr (Or.inr ⟨oldValue, above, below, hstores.updating.trans hr.updating,
      hcalls.trans hr.calls, hr.shape, hr.fires, hr.consistent.imp_left get_settled, get_settled hr.settled, ?_, ?_⟩)⟩
    · rw [hvalue]
      exact hr.restored
    · rw [hvalue]
      exact hr.debt

/-! ### Setting -/

theorem set_normal [DecidableEq V] (v : V) (h : Normal listeners source s) : Normal listeners source (set source v s) := by
  rcases set_cases source v s with ⟨-, heq⟩ | ⟨-, -, hstores, hcalls⟩ | ⟨-, hinvalid, hstores, hcalls⟩
  · rw [heq]
    exact h
  · refine ⟨hstores.updating.trans h.updating, ?_, Or.inr ⟨0, s.calls, hcalls⟩, ?_, ?_⟩
    · rw [hcalls]
      intro c hc
      rcases List.mem_cons.mp hc with rfl | hc
      · rfl
      · exact h.fires c hc
    · rw [hstores.other]
      exact h.settled
    · rw [hcalls, hstores.this, value, hstores.other]
      exact h.debt.mono (fun c hc _ => List.mem_cons_of_mem _ hc)
  · -- the value is replaced before it has been read
    refine ⟨hstores.updating.trans h.updating, ?_, ?_, ?_, ?_⟩
    · rw [hcalls]
      exact h.fires
    · rw [hcalls]
      rcases h.consistent with hs | hs
      · rw [hs.2] at hinvalid
        cases hinvalid
      · exact Or.inr hs
    · rw [hstores.other]
      exact h.settled
    · rw [hcalls, hstores.this, value, hstores.other]
      exact h.debt

theorem set_inv [DecidableEq V] {side : Side} {v : V} (h : Inv listeners s)
    (hside : s.calls = [] ∨ s.notifying = some side) (hvalue : s.value side ≠ v → s.updating = false) :
    Inv listeners (set side v s) := by
  rcases set_cases side v s with ⟨-, heq⟩ | hset
  · rw [heq]
    exact h
  · have hne : s.value side ≠ v := by
      rcases hset with hset | hset
      · exact hset.1
      · exact hset.1
    have hbound : (set side v s).bound = s.bound := set_bound side v s
    have hfalse := hvalue hne
    intro hb
    obtain ⟨source, hn | ⟨above, below, hu⟩ | ⟨oldValue, above, below, hr⟩⟩ := h (hbound.symm.trans hb)
    · have hthis : Normal listeners side s := by
        rcases hside with hnil | hnotifying
        · exact hn.swap hnil side
        · have hsame : source = side := by
            rw [notifying] at hnotifying
            split at hnotifying
            · rename_i side' i rest hcalls
              have hfires := hn.fires _ (by rw [hcalls]; exact List.mem_cons_self)
              exact hfires.symm.trans (Option.some.inj hnotifying)
            · rename_i side' i oldValue rest hcalls
              have hfires := hn.fires _ (by rw [hcalls]; exact List.mem_cons_self)
              exact hfires.symm.trans (Option.some.inj hnotifying)
            · cases hnotifying
          rw [← hsame]
          exact hn
      exact ⟨side, Or.inl (set_normal v hthis)⟩
    · rw [hu.updating] at hfalse
      cases hfalse
    · rw [hr.updating] at hfalse
      cases hfalse

/-! ### Calls that return -/

theorem property_calls (side : Side) (s : Bound V) (updating : Bool) (calls : List (Call V)) :
    ({ s with updating := updating, calls := calls } : Bound V).property side = s.property side := by
  cases side with
  | first => rfl
  | second => rfl

theorem changed_accepted [DecidableEq V] {i : Nat} {oldValue : V} {rest : List (Call V)}
    (h : Normal listeners source s) (hcalls : s.calls = .change source i oldValue :: rest) :
    ∃ above, Updates source (set source.other (s.property source).currentValue
      { s with updating := true, calls := .updating source :: .change source (i + 1) oldValue :: rest })
      above (.change source (i + 1) oldValue :: rest) := by
  have hsource := h.source_settled (by simp [hcalls])
  have hprop := fun side => property_calls side s true (.updating source :: .change source (i + 1) oldValue :: rest)
  have hbelow : ∀ c ∈ .change source (i + 1) oldValue :: rest, Fires source c := by
    intro c hc
    rcases List.mem_cons.mp hc with rfl | hc
    · rfl
    · apply h.fires
      rw [hcalls]
      exact List.mem_cons_of_mem _ hc
  generalize hs : ({ s with updating := true, calls := .updating source :: .change source (i + 1) oldValue :: rest } :
    Bound V) = s' at hprop
  have hcalls' : s'.calls = .updating source :: .change source (i + 1) oldValue :: rest := by rw [← hs]
  have hupdating : s'.updating = true := by rw [← hs]
  rcases set_cases source.other (s.property source).currentValue s' with
    ⟨hsame, heq⟩ | ⟨-, -, hstores, hset⟩ | ⟨-, hinvalid, -, -⟩
  · refine ⟨[], ?_⟩
    rw [heq]
    refine ⟨hupdating, hcalls', Or.inl rfl, hbelow, ?_, Or.inl ?_, ?_⟩
    · rw [hprop]
      exact hsource
    · rw [hprop]
      exact h.settled
    · rw [hsame, value, hprop]
      exact hsource.1
  · have hother := hstores.other
    rw [Side.other_other, hprop] at hother
    refine ⟨[.invalidation source.other 0], hstores.updating.trans hupdating, ?_, Or.inr ⟨_, rfl, rfl⟩, hbelow, ?_,
      Or.inr ⟨0, [], rfl⟩, ?_⟩
    · rw [hset, hcalls']
      rfl
    · rw [hother]
      exact hsource
    · rw [value, value, hother, hstores.this]
      exact hsource.1
  · rw [hprop, h.settled.2] at hinvalid
    cases hinvalid

theorem changed_rejected [DecidableEq V] {i : Nat} {oldValue : V} {rest : List (Call V)}
    (h : Normal listeners source s) (hcalls : s.calls = .change source i oldValue :: rest)
    (hne : s.value source.other ≠ (s.property source).currentValue) :
    ∃ above, Restores listeners source oldValue (set source oldValue
      { s with updating := true, calls := .restoring source oldValue :: .change source (i + 1) oldValue :: rest })
      above (.change source (i + 1) oldValue :: rest) := by
  have hsource := h.source_settled (by simp [hcalls])
  have hprop := fun side => property_calls side s true
    (.restoring source oldValue :: .change source (i + 1) oldValue :: rest)
  have hbelow : ∀ c ∈ .change source (i + 1) oldValue :: rest, Fires source c := by
    intro c hc
    rcases List.mem_cons.mp hc with rfl | hc
    · rfl
    · apply h.fires
      rw [hcalls]
      exact List.mem_cons_of_mem _ hc
  -- the other side still has an old value: this one, or that of an outer loop
  have hdebt : Debt listeners oldValue (s.value source.other) (.change source (i + 1) oldValue :: rest) := by
    rcases h.debt with heq | ⟨c, hc, howed⟩
    · exact absurd heq.symm hne
    · rw [hcalls] at hc
      rcases List.mem_cons.mp hc with rfl | hc
      · exact Or.inl howed.2
      · exact Or.inr ⟨c, List.mem_cons_of_mem _ hc, howed⟩
  generalize hs : ({ s with
    updating := true
    calls := .restoring source oldValue :: .change source (i + 1) oldValue :: rest } : Bound V) = s' at hprop
  have hcalls' : s'.calls = .restoring source oldValue :: .change source (i + 1) oldValue :: rest := by rw [← hs]
  have hupdating : s'.updating = true := by rw [← hs]
  rcases set_cases source oldValue s' with ⟨hsame, heq⟩ | ⟨-, -, hstores, hset⟩ | ⟨-, hinvalid, -, -⟩
  · refine ⟨[], ?_⟩
    rw [heq]
    refine ⟨hupdating, hcalls', Or.inl rfl, hbelow, Or.inl ?_, ?_, hsame, ?_⟩
    · rw [hprop]
      exact hsource
    · rw [hprop]
      exact h.settled
    · rw [value, hprop]
      exact hdebt
  · refine ⟨[.invalidation source 0], hstores.updating.trans hupdating, ?_, Or.inr ⟨_, rfl, rfl⟩, hbelow,
      Or.inr ⟨0, [], rfl⟩, ?_, ?_, ?_⟩
    · rw [hset, hcalls']
      rfl
    · rw [hstores.other, hprop]
      exact h.settled
    · rw [value, hstores.this]
    · rw [value, hstores.other, hprop]
      exact hdebt
  · rw [hprop, hsource.2] at hinvalid
    cases hinvalid

theorem Normal.fires_cons {c d : Call V} {rest : List (Call V)} (h : Normal listeners source s)
    (hcalls : s.calls = c :: rest) (hd : Fires source d) : ∀ e ∈ d :: rest, Fires source e := by
  intro e he
  rcases List.mem_cons.mp he with rfl | he
  · exact hd
  · apply h.fires
    rw [hcalls]
    exact List.mem_cons_of_mem _ he

/-- The listeners go on, and whoever owed a call of the binding still does. -/
theorem Normal.relist {calls : List (Call V)} (h : Normal listeners source s) (hfires : ∀ c ∈ calls, Fires source c)
    (hconsistent : Consistent source (s.property source) calls)
    (howed : ∀ q, ∀ c ∈ s.calls, Owed listeners q c → ∃ d ∈ calls, Owed listeners q d) :
    Normal listeners source { s with calls := calls } := by
  have hprop := fun side => property_calls side s s.updating calls
  refine ⟨h.updating, hfires, ?_, ?_, ?_⟩
  · rw [hprop]
    exact hconsistent
  · rw [hprop]
    exact h.settled
  · rw [value, hprop, hprop]
    rcases h.debt with hd | ⟨c, hc, hd⟩
    · exact Or.inl hd
    · exact Or.inr (howed _ c hc hd)

theorem enterChanges_normal [DecidableEq V] {i : Nat} {rest : List (Call V)} (h : Normal listeners source s)
    (hcalls : s.calls = .invalidation source i :: rest) : Normal listeners source (enterChanges source rest s) := by
  have hrest : ∀ c ∈ rest, Fires source c := fun c hc =>
    h.fires_cons hcalls (d := .invalidation source i) rfl c (List.mem_cons_of_mem _ hc)
  have howed : ∀ q, ∀ c ∈ s.calls, Owed listeners q c → c ∈ rest := by
    intro q c hc howed
    rw [hcalls] at hc
    rcases List.mem_cons.mp hc with rfl | hc
    · exact absurd howed id
    · exact hc
  obtain ⟨hstores, hnext⟩ := enterChanges_stores source rest s
  have hsettled : Settled ((enterChanges source rest s).property source) := by
    rw [hstores.this]
    exact ⟨rfl, rfl⟩
  have hother : Settled ((enterChanges source rest s).property source.other) := by
    rw [hstores.other]
    exact h.settled
  rcases hnext with ⟨hne, hnext⟩ | ⟨heq, hnext⟩
  · refine ⟨hstores.updating.trans h.updating, ?_, Or.inl hsettled, hother, ?_⟩
    · rw [hnext]
      exact h.fires_cons hcalls rfl
    · -- the binding will be called, with the value the other side may still have as the old one
      rw [hnext, value, hstores.other]
      rcases h.debt with hd | ⟨c, hc, hd⟩
      · exact Or.inr ⟨_, List.mem_cons_self, Nat.zero_le _, hd⟩
      · exact Or.inr ⟨c, List.mem_cons_of_mem _ (howed _ c hc hd), hd⟩
  · refine ⟨hstores.updating.trans h.updating, ?_, Or.inl hsettled, hother, ?_⟩
    · rw [hnext]
      exact hrest
    · rw [hnext, value, hstores.other, hstores.this, heq]
      exact h.debt.mono (fun c hc ho => howed _ c hc ho)

theorem changed_inv [DecidableEq V] {attempt : Attempt} {oldValue : V} {rest : List (Call V)}
    (h : Normal listeners source s) (hcalls : s.calls = .change source (listeners source).before oldValue :: rest)
    (hguard : attempt ≠ .stored ∧ attempt ≠ .lost ∧ (attempt = .rejected → s.repeats listeners = false)) :
    Inv listeners (changed attempt source oldValue (s.property source).currentValue
      { s with calls := .change source ((listeners source).before + 1) oldValue :: rest }) := by
  unfold changed
  rw [if_neg (by
    rw [h.updating]
    decide)]
  intro _
  cases attempt with
  | accepted =>
    obtain ⟨above, hu⟩ := changed_accepted h hcalls
    exact ⟨source, Or.inr (Or.inl ⟨above, _, hu⟩)⟩
  | rejected =>
    have hne : s.value source.other ≠ (s.property source).currentValue := by
      intro heq
      have hrepeats := hguard.2.2 rfl
      rw [repeats, hcalls] at hrepeats
      simp [h.updating, heq] at hrepeats
    obtain ⟨above, hr⟩ := changed_rejected h hcalls hne
    exact ⟨source, Or.inr (Or.inr ⟨oldValue, above, _, hr⟩)⟩
  | stored => exact absurd rfl hguard.1
  | lost => exact absurd rfl hguard.2.1

theorem next_normal [DecidableEq V] {attempt : Attempt} (h : Normal listeners source s)
    (hguard : attempt ≠ .stored ∧ attempt ≠ .lost ∧ (attempt = .rejected → s.repeats listeners = false)) :
    Inv listeners (next listeners attempt s) := by
  unfold next
  split
  · intro _
    exact ⟨source, Or.inl h⟩
  · rename_i side rest hcalls
    exact absurd (h.fires _ (by rw [hcalls]; exact List.mem_cons_self)) id
  · rename_i side oldValue rest hcalls
    exact absurd (h.fires _ (by rw [hcalls]; exact List.mem_cons_self)) id
  · rename_i side i rest hcalls
    have hside : side = source := h.fires (.invalidation side i) (by rw [hcalls]; exact List.mem_cons_self)
    subst hside
    split
    · intro _
      refine ⟨side, Or.inl (h.relist (h.fires_cons hcalls rfl) (Or.inr ⟨i + 1, rest, rfl⟩) ?_)⟩
      intro q c hc howed
      rw [hcalls] at hc
      rcases List.mem_cons.mp hc with rfl | hc
      · exact absurd howed id
      · exact ⟨c, List.mem_cons_of_mem _ hc, howed⟩
    · intro _
      exact ⟨side, Or.inl (enterChanges_normal h hcalls)⟩
  · rename_i side i oldValue rest hcalls
    have hside : side = source := h.fires (.change side i oldValue) (by rw [hcalls]; exact List.mem_cons_self)
    subst hside
    have hsource := h.source_settled (by simp [hcalls])
    split
    · dsimp only
      split
      · rename_i hi
        rw [property_calls side s s.updating]
        subst hi
        exact changed_inv h hcalls hguard
      · rename_i hi
        intro _
        refine ⟨side, Or.inl (h.relist (h.fires_cons hcalls rfl) (Or.inl hsource) ?_)⟩
        intro q c hc howed
        rw [hcalls] at hc
        rcases List.mem_cons.mp hc with rfl | hc
        · exact ⟨_, List.mem_cons_self, by have := howed.1; omega, howed.2⟩
        · exact ⟨c, List.mem_cons_of_mem _ hc, howed⟩
    · intro _
      refine ⟨side, Or.inl (h.relist (fun c hc => h.fires_cons hcalls (d := .change side i oldValue) rfl c
        (List.mem_cons_of_mem _ hc)) (Or.inl hsource) ?_)⟩
      intro q c hc howed
      rw [hcalls] at hc
      rcases List.mem_cons.mp hc with rfl | hc
      · have := howed.1
        omega
      · exact ⟨c, hc, howed⟩

theorem next_loop [DecidableEq V] {attempt : Attempt} {side : Side} {c : Call V} {rest : List (Call V)}
    (hupdating : s.updating = true) (hcalls : s.calls = c :: rest) (hfires : Fires side c)
    (hconsistent : Consistent side (s.property side) [c]) :
    (next listeners attempt s).updating = true ∧ (next listeners attempt s).bound = s.bound ∧
      (next listeners attempt s).property side.other = s.property side.other ∧
      (next listeners attempt s).value side = s.value side ∧
      ∃ above, (next listeners attempt s).calls = above ++ rest ∧
        (above = [] ∨ ∃ c, above = [c] ∧ Fires side c) ∧
        Consistent side ((next listeners attempt s).property side) above := by
  cases c with
  | updating source => exact absurd hfires id
  | restoring source oldValue => exact absurd hfires id
  | invalidation side' i =>
    have hside : side' = side := hfires
    subst hside
    unfold next
    rw [hcalls]
    dsimp only
    split
    · have hprop := fun side => property_calls side s s.updating (.invalidation side' (i + 1) :: rest)
      refine ⟨hupdating, rfl, hprop _, congrArg Property.value (hprop side'), [.invalidation side' (i + 1)], rfl,
        Or.inr ⟨_, rfl, rfl⟩, Or.inr ⟨i + 1, [], rfl⟩⟩
    · obtain ⟨hstores, hnext⟩ := enterChanges_stores side' rest s
      have hsettled : Settled ((enterChanges side' rest s).property side') := by
        rw [hstores.this]
        exact ⟨rfl, rfl⟩
      refine ⟨hstores.updating.trans hupdating, hstores.bound, hstores.other, by rw [value, hstores.this], ?_⟩
      rcases hnext with ⟨-, hnext⟩ | ⟨-, hnext⟩
      · exact ⟨[_], hnext, Or.inr ⟨_, rfl, rfl⟩, Or.inl hsettled⟩
      · exact ⟨[], hnext, Or.inl rfl, Or.inl hsettled⟩
  | change side' i oldValue =>
    have hside : side' = side := hfires
    subst hside
    have hsettled : Settled (s.property side') := by
      rcases hconsistent with hs | ⟨j, rest', hs⟩
      · exact hs
      · cases hs
    have hprop := fun side calls => property_calls side s s.updating calls
    -- the same whether the listener is the binding or another one
    have hadvanced : ∀ t, t = ({ s with calls := .change side' (i + 1) oldValue :: rest } : Bound V) →
        t.updating = true ∧ t.bound = s.bound ∧ t.property side'.other = s.property side'.other ∧
        t.value side' = s.value side' ∧ ∃ above, t.calls = above ++ rest ∧
          (above = [] ∨ ∃ c, above = [c] ∧ Fires side' c) ∧ Consistent side' (t.property side') above := by
      rintro t rfl
      refine ⟨hupdating, rfl, hprop _ _, congrArg Property.value (hprop side' _),
        [.change side' (i + 1) oldValue], rfl, Or.inr ⟨_, rfl, rfl⟩, Or.inl ?_⟩
      rw [hprop]
      exact hsettled
    unfold next
    rw [hcalls]
    dsimp only
    split
    · split
      · apply hadvanced
        unfold changed
        rw [if_pos hupdating]
      · exact hadvanced _ rfl
    · refine ⟨hupdating, rfl, hprop _ _, congrArg Property.value (hprop side' _), [], rfl, Or.inl rfl, Or.inl ?_⟩
      rw [hprop]
      exact hsettled

theorem next_updates [DecidableEq V] {attempt : Attempt} {above below : List (Call V)}
    (h : Updates source s above below) : Inv listeners (next listeners attempt s) := by
  intro _
  rcases h.shape with rfl | ⟨c, rfl, hfires⟩
  · have hcalls := h.calls
    rw [List.nil_append] at hcalls
    have hother : Settled (s.property source.other) := by
      rcases h.consistent with hs | ⟨i, rest, hs⟩
      · exact hs
      · cases hs
    have hprop := fun side => property_calls side s false below
    unfold next
    rw [hcalls]
    refine ⟨source, Or.inl ⟨rfl, h.fires, Or.inl ?_, ?_, Or.inl ?_⟩⟩
    · rw [hprop]
      exact h.settled
    · rw [hprop]
      exact hother
    · rw [value, hprop, hprop, ← h.settled.1]
      exact h.equal
  · have hcalls := h.calls
    rw [List.singleton_append] at hcalls
    obtain ⟨hupdating, -, hsource, hvalue, above', hcalls', hshape, hconsistent⟩ :=
      @next_loop V listeners s _ attempt source.other c _ h.updating hcalls hfires h.consistent
    rw [Side.other_other] at hsource
    refine ⟨source, Or.inr (Or.inl ⟨above', below, hupdating, hcalls', hshape, h.fires, ?_, hconsistent, ?_⟩)⟩
    · rw [hsource]
      exact h.settled
    · rw [hvalue, value, hsource]
      exact h.equal

theorem next_restores [DecidableEq V] {attempt : Attempt} {oldValue : V} {above below : List (Call V)}
    (h : Restores listeners source oldValue s above below) : Inv listeners (next listeners attempt s) := by
  intro _
  rcases h.shape with rfl | ⟨c, rfl, hfires⟩
  · have hcalls := h.calls
    rw [List.nil_append] at hcalls
    have hsource : Settled (s.property source) := by
      rcases h.consistent with hs | ⟨i, rest, hs⟩
      · exact hs
      · cases hs
    have hprop := fun side => property_calls side s false below
    unfold next
    rw [hcalls]
    refine ⟨source, Or.inl ⟨rfl, h.fires, Or.inl ?_, ?_, ?_⟩⟩
    · rw [hprop]
      exact hsource
    · rw [hprop]
      exact h.settled
    · have hvalue : (s.property source).currentValue = oldValue := hsource.1.symm.trans h.restored
      rw [value, hprop, hprop, hvalue]
      exact h.debt
  · have hcalls := h.calls
    rw [List.singleton_append] at hcalls
    obtain ⟨hupdating, -, hother, hvalue, above', hcalls', hshape, hconsistent⟩ :=
      @next_loop V listeners s _ attempt source c _ h.updating hcalls hfires h.consistent
    refine ⟨source, Or.inr (Or.inr ⟨oldValue, above', below, hupdating, hcalls', hshape, h.fires, hconsistent, ?_, ?_, ?_⟩)⟩
    · rw [hother]
      exact h.settled
    · rw [hvalue]
      exact h.restored
    · rw [value, hother]
      exact h.debt

theorem step_inv [DecidableEq V] (a : Step V) (h : Inv listeners s) (hguard : Undisturbed listeners a s) :
    Inv listeners (step listeners a s) := by
  unfold step
  split
  · rename_i hbound
    cases a with
    | set side v => exact set_inv h hguard.1 hguard.2
    | get side => exact get_inv side h
    | next attempt =>
      obtain ⟨source, hn | ⟨above, below, hu⟩ | ⟨oldValue, above, below, hr⟩⟩ := h hbound
      · exact next_normal hn hguard
      · exact next_updates hu
      · exact next_restores hr
  · exact h

end Steps

end Bound
end OpenJfx.Binding
