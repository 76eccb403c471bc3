import OpenJfx.Lib.EditScript
import OpenJfx.Lib.IndexPermutation

/-! # List changes (`ListChangeListener.Change`)

A `Change` is iterated with `next()`; it is modelled by the list of its
sub-changes.  The accessors follow the default methods of the abstract class. -/
set_option autoImplicit false
namespace OpenJfx.Collections
open OpenJfx.Lib

/-- `ListChangeBuilder.SubChange`; `removed = none` is the null reference. -/
structure SubChange (E : Type) where
  fromIdx : Int
  toIdx : Int
  removed : Option (List E)
  perm : List Int
  updated : Bool
deriving DecidableEq, Repr

abbrev Change (E : Type) := List (SubChange E)

namespace SubChange
variable {E : Type}

/-- `getRemoved()` of a finalized sub-change: null is replaced by the empty list. -/
def getRemoved (c : SubChange E) : List E := c.removed.getD []

def getRemovedSize (c : SubChange E) : Nat := c.getRemoved.length

def wasPermutated (c : SubChange E) : Bool := c.perm.length != 0

def wasUpdated (c : SubChange E) : Bool := c.updated

def wasAdded (c : SubChange E) : Bool := !c.wasPermutated && !c.wasUpdated && c.fromIdx < c.toIdx

def wasRemoved (c : SubChange E) : Bool := !c.getRemoved.isEmpty

def getAddedSize (c : SubChange E) : Int := if c.wasAdded then c.toIdx - c.fromIdx else 0

/-- `getPermutation(i)`, the new index of the element at the old index `i`. -/
def getPermutation (c : SubChange E) (i : Int) : Except Exn Int :=
  if c.wasPermutated then readAt c.perm (i - c.fromIdx) else .error .illegalState

def shift (d : Int) (c : SubChange E) : SubChange E :=
  { c with fromIdx := c.fromIdx + d, toIdx := c.toIdx + d }

def edit (c : SubChange E) : Edit E := ⟨c.fromIdx, c.toIdx, c.getRemoved⟩

/-- An add/remove sub-change: neither a permutation nor an update. -/
def Plain (c : SubChange E) : Prop := c.perm = [] ∧ c.updated = false

instance (c : SubChange E) : Decidable c.Plain := inferInstanceAs (Decidable (_ ∧ _))

@[simp] theorem edit_lo (c : SubChange E) : c.edit.lo = c.fromIdx := rfl
@[simp] theorem edit_hi (c : SubChange E) : c.edit.hi = c.toIdx := rfl
@[simp] theorem edit_old (c : SubChange E) : c.edit.old = c.getRemoved := rfl

@[simp] theorem shift_edit (d : Int) (c : SubChange E) : (c.shift d).edit = c.edit.shift d := rfl

/-- A permutation of `[from, to)` inside a list of length `n`. -/
def ValidPermutation (n : Nat) (c : SubChange E) : Prop :=
  0 ≤ c.fromIdx ∧ c.toIdx ≤ n ∧ c.toIdx = c.fromIdx + c.perm.length ∧ IsRangePerm c.fromIdx c.perm

instance (n : Nat) (c : SubChange E) : Decidable (c.ValidPermutation n) :=
  inferInstanceAs (Decidable (_ ∧ _ ∧ _ ∧ _))

end SubChange

section Replay
variable {E : Type} [DecidableEq E]

/-- Replaying one sub-change on a copy `cur` of the list, with `final` the list
the change was fired for: a permutation moves the elements of its range, an
update changes nothing, an add/remove sub-change deletes exactly `getRemoved()`
at `from` and inserts what `final` holds at `[from, to)`. -/
def SubChange.replay (final : List E) (c : SubChange E) (cur : List E) : Option (List E) :=
  if c.wasPermutated then
    if c.ValidPermutation cur.length then some (permuteRange c.fromIdx c.perm cur) else none
  else if c.wasUpdated then some cur
  else c.edit.apply final cur

def Change.replay (final : List E) : Change E → List E → Option (List E)
  | [], cur => some cur
  | c :: cs, cur => (c.replay final cur).bind (Change.replay final cs)

theorem Change.replay_plain (final : List E) {cs : Change E} (plain : ∀ c ∈ cs, c.Plain)
    (cur : List E) : Change.replay final cs cur = OpenJfx.Lib.replay final (cs.map SubChange.edit) cur := by
  induction cs generalizing cur with
  | nil => rfl
  | cons c cs ih =>
    obtain ⟨hperm, hupd⟩ := plain c (List.mem_cons_self ..)
    have hc : c.replay final cur = c.edit.apply final cur := by
      simp [SubChange.replay, SubChange.wasPermutated, SubChange.wasUpdated, hperm, hupd]
    simp only [Change.replay, List.map_cons, OpenJfx.Lib.replay, hc]
    cases c.edit.apply final cur with
    | none => rfl
    | some next => exact ih (fun d hd => plain d (List.mem_cons_of_mem _ hd)) next

end Replay

end OpenJfx.Collections
