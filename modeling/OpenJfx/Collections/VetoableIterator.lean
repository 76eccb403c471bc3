import Mathlib.Data.List.Basic
import Mathlib.Tactic.Linarith

/-! # The list iterators of a `VetoableListDecorator`

The decorated list has an iterator of its own, `ListItr` of `AbstractList`.  The
decorator calls it, and follows it with a cursor and a last returned position
that count from the start index.  `Faithful` is the contract: the decorator
accepts what the list's own iterator accepts, and proposes what it then changes. -/
set_option autoImplicit false
namespace OpenJfx.Collections

inductive ListFault where
  | noSuchElement
  | illegalState
  | indexOutOfBounds
  | concurrentModification
  /-- thrown by `onProposedChange` -/
  | vetoed
deriving DecidableEq, Repr

/-! ## The list's own iterator -/

inductive IteratorCall (E : Type) where
  | next
  | previous
  | add (e : E)
  | set (e : E)
  | remove
deriving DecidableEq, Repr

/-- `AbstractList.ListItr` with the list it works on; `lastRet` is -1 for `none`. -/
structure ListItr (E : Type) where
  elements : List E
  cursor : Nat
  lastRet : Option Nat
deriving DecidableEq, Repr

namespace ListItr
variable {E : Type}

/-- What a call returns, and the iterator and its list afterwards. -/
def call (c : IteratorCall E) (it : ListItr E) : Except ListFault (Option E) × ListItr E :=
  match c with
  | .next =>
      match it.elements[it.cursor]? with
      | some e => (.ok (some e), { it with cursor := it.cursor + 1, lastRet := some it.cursor })
      | none => (.error .noSuchElement, it)
  | .previous =>
      if it.cursor = 0 then (.error .noSuchElement, it)
      else
        let i := it.cursor - 1
        (.ok it.elements[i]?, { it with cursor := i, lastRet := some i })
  | .add e =>
      (.ok none, ⟨it.elements.insertIdx it.cursor e, it.cursor + 1, none⟩)
  | .set e =>
      match it.lastRet with
      | none => (.error .illegalState, it)
      | some p => (.ok none, { it with elements := it.elements.set p e })
  | .remove =>
      match it.lastRet with
      | none => (.error .illegalState, it)
      | some p =>
          (.ok none, ⟨it.elements.eraseIdx p, if p < it.cursor then it.cursor - 1 else it.cursor, none⟩)

end ListItr

/-! ## The decorator -/

/-- The arguments of `onProposedChange`. -/
structure Proposal (E : Type) where
  toBeAdded : List E
  start : Int
  stop : Int
deriving DecidableEq, Repr

/-- The `modCount` fields of the decorator and of the nested subLists an
iterator was made from. -/
structure ModCountAccessor where
  list : Int
  subLists : List Int
deriving DecidableEq, Repr

namespace ModCountAccessor

def get (a : ModCountAccessor) : Int := a.subLists.getLastD a.list

/-- `incrementAndGet` and `decrementAndGet`: every level takes the new value. -/
def addAndGet (delta : Int) (a : ModCountAccessor) : ModCountAccessor :=
  ⟨a.list + delta, a.subLists.map (fun _ => a.list + delta)⟩

end ModCountAccessor

/-- The decorator, or a subList of it: the elements that it shows, those of the
list on both sides of it, and the offset that it adds to its indices. -/
structure VetoableList (E : Type) where
  before : List E
  elements : List E
  after : List E
  offset : Nat
  modCountAccessor : ModCountAccessor
  offset_eq : offset = before.length

structure VetoableListIterator (E : Type) where
  it : ListItr E
  modCountAccessor : ModCountAccessor
  modCount : Int
  offset : Int
  cursor : Int
  lastReturned : Int
deriving DecidableEq, Repr

namespace VetoableList
variable {E : Type}

def decorate (list : List E) : VetoableList E := ⟨[], list, [], 0, ⟨0, []⟩, rfl⟩

def subList (fromIndex toIndex : Nat) (l : VetoableList E) : Except ListFault (VetoableList E) :=
  if h : fromIndex ≤ toIndex ∧ toIndex ≤ l.elements.length then
    .ok {
      before := l.before ++ l.elements.take fromIndex
      elements := (l.elements.take toIndex).drop fromIndex
      after := l.elements.drop toIndex ++ l.after
      offset := l.offset + fromIndex
      modCountAccessor :=
        { l.modCountAccessor with subLists := l.modCountAccessor.subLists ++ [l.modCountAccessor.get] }
      offset_eq := by rw [l.offset_eq, List.length_append, List.length_take]; omega }
  else .error .indexOutOfBounds

def subLists : List (Nat × Nat) → VetoableList E → Except ListFault (VetoableList E)
  | [], l => .ok l
  | (fromIndex, toIndex) :: rest, l => (l.subList fromIndex toIndex).bind (subLists rest)

def listIterator (index : Nat) (l : VetoableList E) : Except ListFault (VetoableListIterator E) :=
  if index ≤ l.elements.length then
    .ok ⟨⟨l.elements, index, none⟩, l.modCountAccessor, l.modCountAccessor.get, l.offset + index, 0, 0⟩
  else .error .indexOutOfBounds

end VetoableList

/-- What a call returns or throws, the calls of `onProposedChange` it made, and
the iterator afterwards. -/
structure Reply (E : Type) where
  result : Except ListFault (Option E)
  proposed : List (Proposal E)
  state : VetoableListIterator E

/-- What a caller sees of it: the result, the proposals, and what became of the
decorated list and its iterator. -/
def Reply.seen {E : Type} (r : Reply E) : Except ListFault (Option E) × List (Proposal E) × ListItr E :=
  (r.result, r.proposed, r.state.it)

namespace VetoableListIterator
variable {E : Type}

/-- The call of `it` between `incrementModCount` and, when it throws,
`decrementModCount`; `moved` is what follows when it returns. -/
def modify (c : IteratorCall E) (proposal : Proposal E)
    (moved : VetoableListIterator E → VetoableListIterator E) (s : VetoableListIterator E) : Reply E :=
  let accessor := s.modCountAccessor.addAndGet 1
  match s.it.call c with
  | (.ok e, it) =>
      ⟨.ok e, [proposal], moved { s with it := it, modCountAccessor := accessor, modCount := accessor.list }⟩
  | (.error x, it) =>
      let accessor := accessor.addAndGet (-1)
      ⟨.error x, [proposal], { s with it := it, modCountAccessor := accessor, modCount := accessor.list }⟩

def call (veto : Proposal E → Bool) (c : IteratorCall E) (s : VetoableListIterator E) : Reply E :=
  if s.modCount ≠ s.modCountAccessor.get then ⟨.error .concurrentModification, [], s⟩
  else match c with
    | .next =>
        match s.it.call .next with
        | (.ok e, it) => ⟨.ok e, [], { s with it := it, lastReturned := s.cursor, cursor := s.cursor + 1 }⟩
        | (.error x, it) => ⟨.error x, [], { s with it := it }⟩
    | .previous =>
        match s.it.call .previous with
        | (.ok e, it) => ⟨.ok e, [], { s with it := it, lastReturned := s.cursor - 1, cursor := s.cursor - 1 }⟩
        | (.error x, it) => ⟨.error x, [], { s with it := it }⟩
    | .add e =>
        let proposal : Proposal E := ⟨[e], s.offset + s.cursor, s.offset + s.cursor⟩
        if veto proposal then ⟨.error .vetoed, [proposal], s⟩
        else s.modify (.add e) proposal (fun s => { s with cursor := s.cursor + 1 })
    | .set e =>
        if s.lastReturned = -1 then ⟨.error .illegalState, [], s⟩
        else
          let proposal : Proposal E := ⟨[e], s.offset + s.lastReturned, s.offset + s.lastReturned + 1⟩
          if veto proposal then ⟨.error .vetoed, [proposal], s⟩
          else
            let (result, it) := s.it.call (.set e)
            ⟨result, [proposal], { s with it := it }⟩
    | .remove =>
        if s.lastReturned = -1 then ⟨.error .illegalState, [], s⟩
        else
          let proposal : Proposal E := ⟨[], s.offset + s.lastReturned, s.offset + s.lastReturned + 1⟩
          if veto proposal then ⟨.error .vetoed, [proposal], s⟩
          else s.modify .remove proposal (fun s => { s with lastReturned := -1, cursor := s.cursor - 1 })

end VetoableListIterator

/-! ## The contract -/

section Contract
variable {E : Type}

/-- What must be proposed in front of a call: the change that the list's own
iterator then makes, at its place in the whole list.  `offset` is the number of
elements in front of the list that is iterated over. -/
def ListItr.change (offset : Nat) (c : IteratorCall E) (it : ListItr E) : Option (Proposal E) :=
  match c with
  | .next | .previous => none
  | .add e => some ⟨[e], offset + it.cursor, offset + it.cursor⟩
  | .set e => it.lastRet.map (fun p : Nat => ⟨[e], (offset : Int) + p, (offset : Int) + p + 1⟩)
  | .remove => it.lastRet.map (fun p : Nat => ⟨[], (offset : Int) + p, (offset : Int) + p + 1⟩)

/-- What a caller sees of a decorator that keeps to the contract. -/
def ListItr.expected (veto : Proposal E → Bool) (offset : Nat) (c : IteratorCall E) (it : ListItr E) :
    Except ListFault (Option E) × List (Proposal E) × ListItr E :=
  match it.change offset c with
  | none => ((it.call c).1, [], (it.call c).2)
  | some p => if veto p then (.error .vetoed, [p], it) else ((it.call c).1, [p], (it.call c).2)

/-- Every call of the sequence keeps to the contract. -/
def VetoableListIterator.Faithful (veto : Proposal E → Bool) (offset : Nat) :
    List (IteratorCall E) → VetoableListIterator E → Prop
  | [], _ => True
  | c :: rest, s =>
      (s.call veto c).seen = s.it.expected veto offset c ∧ Faithful veto offset rest (s.call veto c).state

instance decidableFaithful [DecidableEq E] (veto : Proposal E → Bool) (offset : Nat) :
    ∀ (calls : List (IteratorCall E)) (s : VetoableListIterator E), Decidable (s.Faithful veto offset calls)
  | [], _ => isTrue trivial
  | c :: rest, s =>
      have := decidableFaithful veto offset rest (s.call veto c).state
      inferInstanceAs (Decidable ((s.call veto c).seen = s.it.expected veto offset c ∧
        (s.call veto c).state.Faithful veto offset rest))

end Contract

/-! ## When the decorator keeps to the contract -/

/-- The element that the decorator takes as returned last: none so far, the one
at a position of the list, or none any more because it was removed.  An `add`
does not count. -/
inductive Returned where
  | nothing
  | element (p : Nat)
  | removed
deriving DecidableEq, Repr

/-- What matters of the calls so far; `shift` counts the removals of elements
that `previous` had returned. -/
structure History where
  last : Returned
  shift : Nat
deriving DecidableEq, Repr

section History
variable {E : Type} (start : Nat)

/-- The calls that the decorator gets right.  A `set` or `remove` with no element to work
on is recognised only when it follows a removal; or when the element returned last was the
one in front of the start index, which the decorator takes for none.  For that
reason this element cannot be set or removed.  Once an element returned by
`previous` was removed, every further change is proposed for a wrong index. -/
def History.Careful (c : IteratorCall E) (it : ListItr E) (h : History) : Prop :=
  match c with
  | .next | .previous => True
  | .add _ => h.shift = 0
  | .set _ | .remove =>
      match it.lastRet with
      | some p => h.shift = 0 ∧ p + 1 ≠ start
      | none =>
          match h.last with
          | .nothing => False
          | .element p => p + 1 = start + h.shift
          | .removed => True

instance decidableCareful (c : IteratorCall E) (it : ListItr E) (h : History) : Decidable (h.Careful start c it) :=
  match c with
  | .next | .previous => isTrue trivial
  | .add _ => inferInstanceAs (Decidable (h.shift = 0))
  | .set _ | .remove =>
      match hit : it.lastRet, hlast : h.last with
      | some p, _ => decidable_of_iff (h.shift = 0 ∧ p + 1 ≠ start) (by simp [History.Careful, hit])
      | none, .nothing => isFalse (by simp [History.Careful, hit, hlast])
      | none, .element p => decidable_of_iff (p + 1 = start + h.shift) (by simp [History.Careful, hit, hlast])
      | none, .removed => isTrue (by simp [History.Careful, hit, hlast])

def History.after (c : IteratorCall E) (it : ListItr E) (h : History) : History :=
  match c with
  | .next => if it.cursor < it.elements.length then { h with last := .element it.cursor } else h
  | .previous => if it.cursor = 0 then h else { h with last := .element (it.cursor - 1) }
  | .add _ | .set _ => h
  | .remove =>
      match it.lastRet with
      | none => h
      | some p => ⟨.removed, if p < it.cursor then h.shift else h.shift + 1⟩

def ListItr.isVetoed (veto : Proposal E → Bool) (offset : Nat) (c : IteratorCall E) (it : ListItr E) : Bool :=
  (it.change offset c).any veto

/-- Every call of the sequence is one the decorator gets right. -/
def CarefulCalls (veto : Proposal E → Bool) (offset : Nat) : List (IteratorCall E) → ListItr E → History → Prop
  | [], _, _ => True
  | c :: rest, it, h =>
      h.Careful start c it ∧
        if it.isVetoed veto offset c then CarefulCalls veto offset rest it h
        else CarefulCalls veto offset rest (it.call c).2 (h.after c it)

instance decidableCarefulCalls (veto : Proposal E → Bool) (offset : Nat) :
    ∀ (calls : List (IteratorCall E)) (it : ListItr E) (h : History),
      Decidable (CarefulCalls start veto offset calls it h)
  | [], _, _ => isTrue trivial
  | c :: rest, it, h =>
      have := decidableCarefulCalls veto offset rest it h
      have := decidableCarefulCalls veto offset rest (it.call c).2 (h.after c it)
      inferInstanceAs (Decidable (h.Careful start c it ∧
        if it.isVetoed veto offset c then CarefulCalls start veto offset rest it h
        else CarefulCalls start veto offset rest (it.call c).2 (h.after c it)))

end History

/-! ## The decorator follows the list's own iterator -/

def ModCountAccessor.Level (modCount : Int) (a : ModCountAccessor) : Prop :=
  a.list = modCount ∧ ∀ x ∈ a.subLists, x = modCount

theorem ModCountAccessor.Level.get {modCount : Int} {a : ModCountAccessor} (h : a.Level modCount) :
    a.get = modCount := by
  unfold ModCountAccessor.get
  cases hlast : a.subLists.getLast? with
  | none => rw [List.getLastD_eq_getLast?, hlast]; exact h.1
  | some x =>
    rw [List.getLastD_eq_getLast?, hlast]
    exact h.2 x (List.mem_of_getLast? hlast)

theorem ModCountAccessor.level_addAndGet (delta : Int) (a : ModCountAccessor) :
    (a.addAndGet delta).Level (a.addAndGet delta).list := by
  refine ⟨rfl, ?_⟩
  intro x hx
  obtain ⟨y, -, rfl⟩ := List.mem_map.mp hx
  rfl

section Sync
variable {E : Type}

/-- The decorator's fields, from the list's own iterator and the history. -/
structure Sync (start offset : Nat) (s : VetoableListIterator E) (h : History) : Prop where
  level : s.modCountAccessor.Level s.modCount
  offset_eq : s.offset = offset + start
  cursor : s.cursor = s.it.cursor - start - h.shift
  bound : s.it.cursor ≤ s.it.elements.length
  lastReturned : s.lastReturned = match h.last with
    | .nothing => 0
    | .element p => p - start - h.shift
    | .removed => -1
  lastRet : ∀ p, s.it.lastRet = some p → h.last = .element p ∧ p < s.it.elements.length ∧
    (p = s.it.cursor ∨ p + 1 = s.it.cursor)

variable {start offset : Nat} {s : VetoableListIterator E} {h : History} {veto : Proposal E → Bool}

theorem Sync.unmodified (hs : Sync start offset s h) : ¬s.modCount ≠ s.modCountAccessor.get := by
  rw [hs.level.get]
  exact fun hne => hne rfl

theorem call_next (hs : Sync start offset s h) :
    (s.call veto .next).seen = s.it.expected veto offset .next ∧
      Sync start offset (s.call veto .next).state (h.after .next s.it) := by
  have hcheck := hs.unmodified
  by_cases hlt : s.it.cursor < s.it.elements.length
  · have hit : s.it.call .next =
        (.ok (some s.it.elements[s.it.cursor]), { s.it with cursor := s.it.cursor + 1, lastRet := some s.it.cursor }) := by
      simp [ListItr.call, List.getElem?_eq_getElem hlt]
    have hcall : s.call veto .next = ⟨.ok (some s.it.elements[s.it.cursor]), [],
        { s with
          it := { s.it with cursor := s.it.cursor + 1, lastRet := some s.it.cursor }
          lastReturned := s.cursor
          cursor := s.cursor + 1 }⟩ := by
      simp only [VetoableListIterator.call, if_neg hcheck, hit]
    rw [hcall]
    refine ⟨?_, ?_⟩
    · simp [Reply.seen, ListItr.expected, ListItr.change, hit]
    · have hafter : h.after .next s.it = { h with last := .element s.it.cursor } := by
        simp [History.after, hlt]
      rw [hafter]
      refine ⟨hs.level, hs.offset_eq, ?_, hlt, hs.cursor, ?_⟩
      · have := hs.cursor
        push_cast
        omega
      · intro p hp
        cases hp
        exact ⟨rfl, hlt, Or.inr rfl⟩
  · have hit : s.it.call .next = (.error .noSuchElement, s.it) := by
      simp [ListItr.call, List.getElem?_eq_none (Nat.le_of_not_lt hlt)]
    have hcall : s.call veto .next = ⟨.error .noSuchElement, [], s⟩ := by
      simp only [VetoableListIterator.call, if_neg hcheck, hit]
    rw [hcall]
    refine ⟨?_, ?_⟩
    · simp [Reply.seen, ListItr.expected, ListItr.change, hit]
    · have hafter : h.after (.next : IteratorCall E) s.it = h := by simp [History.after, hlt]
      rw [hafter]
      exact hs

theorem call_previous (hs : Sync start offset s h) :
    (s.call veto .previous).seen = s.it.expected veto offset .previous ∧
      Sync start offset (s.call veto .previous).state (h.after .previous s.it) := by
  have hcheck := hs.unmodified
  by_cases hzero : s.it.cursor = 0
  · have hit : s.it.call .previous = (.error .noSuchElement, s.it) := by simp [ListItr.call, hzero]
    have hcall : s.call veto .previous = ⟨.error .noSuchElement, [], s⟩ := by
      simp only [VetoableListIterator.call, if_neg hcheck, hit]
    rw [hcall]
    refine ⟨?_, ?_⟩
    · simp [Reply.seen, ListItr.expected, ListItr.change, hit]
    · have hafter : h.after (.previous : IteratorCall E) s.it = h := by simp [History.after, hzero]
      rw [hafter]
      exact hs
  · have hit : s.it.call .previous = (.ok s.it.elements[s.it.cursor - 1]?,
        { s.it with cursor := s.it.cursor - 1, lastRet := some (s.it.cursor - 1) }) := by
      simp [ListItr.call, hzero]
    have hcall : s.call veto .previous = ⟨.ok s.it.elements[s.it.cursor - 1]?, [],
        { s with it := { s.it with cursor := s.it.cursor - 1, lastRet := some (s.it.cursor - 1) },
                 lastReturned := s.cursor - 1, cursor := s.cursor - 1 }⟩ := by
      simp only [VetoableListIterator.call, if_neg hcheck, hit]
    rw [hcall]
    refine ⟨?_, ?_⟩
    · simp [Reply.seen, ListItr.expected, ListItr.change, hit]
    · have hafter : h.after (.previous : IteratorCall E) s.it = { h with last := .element (s.it.cursor - 1) } := by
        simp [History.after, hzero]
      have hcursor := hs.cursor
      have hbound := hs.bound
      rw [hafter]
      refine ⟨hs.level, hs.offset_eq, ?_, ?_, ?_, ?_⟩
      · change s.cursor - 1 = ((s.it.cursor - 1 : Nat) : Int) - start - h.shift
        omega
      · change s.it.cursor - 1 ≤ s.it.elements.length
        omega
      · change s.cursor - 1 = ((s.it.cursor - 1 : Nat) : Int) - start - h.shift
        omega
      · intro p hp
        cases hp
        refine ⟨rfl, ?_, Or.inl rfl⟩
        change s.it.cursor - 1 < s.it.elements.length
        omega

theorem call_add (hs : Sync start offset s h) (e : E) :
    ((s.call veto (.add e)).seen = s.it.expected veto offset (.add e) ↔ h.shift = 0) ∧
      (h.shift = 0 → s.it.isVetoed veto offset (.add e) = false →
        Sync start offset (s.call veto (.add e)).state (h.after (.add e) s.it)) := by
  have hcheck := hs.unmodified
  have hcursor := hs.cursor
  have hoffset := hs.offset_eq
  have hproposal : (⟨[e], s.offset + s.cursor, s.offset + s.cursor⟩ : Proposal E) =
      ⟨[e], (offset : Int) + s.it.cursor, (offset : Int) + s.it.cursor⟩ ↔ h.shift = 0 := by
    simp only [Proposal.mk.injEq, true_and]
    omega
  refine ⟨?_, ?_⟩
  · rw [← hproposal]
    simp only [VetoableListIterator.call, if_neg hcheck, ListItr.expected, ListItr.change]
    constructor
    · intro hseen
      have hproposed := congrArg (fun seen => seen.2.1) hseen
      revert hproposed
      simp only [VetoableListIterator.modify, ListItr.call, Reply.seen]
      split <;> split <;> simp
    · intro heq
      rw [heq]
      split
      · rfl
      · rfl
  · intro hshift hveto
    have heq := hproposal.mpr hshift
    have haccept : veto ⟨[e], s.offset + s.cursor, s.offset + s.cursor⟩ = false := by
      rw [heq]
      simpa [ListItr.isVetoed, ListItr.change] using hveto
    have hcall : (s.call veto (.add e)).state =
        { s with it := ⟨s.it.elements.insertIdx s.it.cursor e, s.it.cursor + 1, none⟩,
                 modCountAccessor := s.modCountAccessor.addAndGet 1,
                 modCount := (s.modCountAccessor.addAndGet 1).list, cursor := s.cursor + 1 } := by
      simp only [VetoableListIterator.call, if_neg hcheck, haccept]
      rfl
    rw [hcall]
    refine ⟨ModCountAccessor.level_addAndGet 1 _, hoffset, ?_, ?_, hs.lastReturned, ?_⟩
    · change s.cursor + 1 = ((s.it.cursor + 1 : Nat) : Int) - start - h.shift
      omega
    · change s.it.cursor + 1 ≤ (s.it.elements.insertIdx s.it.cursor e).length
      rw [List.length_insertIdx_of_le_length hs.bound]
      exact Nat.succ_le_succ hs.bound
    · intro p hp
      cases hp

theorem Sync.sentinel (hs : Sync start offset s h) : s.lastReturned = -1 ↔ match h.last with
    | .nothing => False
    | .element p => p + 1 = start + h.shift
    | .removed => True := by
  have hlast := hs.lastReturned
  cases hreturned : h.last with
  | nothing =>
    rw [hreturned] at hlast
    simp [hlast]
  | element p =>
    rw [hreturned] at hlast
    simp only at hlast ⊢
    omega
  | removed =>
    rw [hreturned] at hlast
    simp [hlast]

theorem Sync.sentinel_element (hs : Sync start offset s h) {p : Nat} (hp : s.it.lastRet = some p) :
    s.lastReturned = -1 ↔ p + 1 = start + h.shift := by
  rw [hs.sentinel, (hs.lastRet p hp).1]

theorem Sync.proposal (hs : Sync start offset s h) {p : Nat} (hp : s.it.lastRet = some p) (added : List E) :
    (⟨added, s.offset + s.lastReturned, s.offset + s.lastReturned + 1⟩ : Proposal E) =
      ⟨added, (offset : Int) + p, (offset : Int) + p + 1⟩ ↔ h.shift = 0 := by
  have hlast := hs.lastReturned
  rw [(hs.lastRet p hp).1] at hlast
  have hoffset := hs.offset_eq
  simp only [Proposal.mk.injEq, true_and]
  simp only at hlast
  omega

/-- A call of `set` or `remove`, which works on the element returned last. -/
def IteratorCall.onReturned : IteratorCall E → Option (List E)
  | .set e => some [e]
  | .remove => some []
  | _ => none

/-- The proposal of `set` or `remove`. -/
def VetoableListIterator.proposal (added : List E) (s : VetoableListIterator E) : Proposal E :=
  ⟨added, s.offset + s.lastReturned, s.offset + s.lastReturned + 1⟩

section OnReturned
variable {c : IteratorCall E} {added : List E}

theorem call_rejected (hs : Sync start offset s h) (hc : c.onReturned = some added) (hlast : s.lastReturned = -1) :
    s.call veto c = ⟨.error .illegalState, [], s⟩ := by
  have hcheck := hs.unmodified
  cases c with
  | set e => simp only [VetoableListIterator.call, if_neg hcheck, hlast, if_true]
  | remove => simp only [VetoableListIterator.call, if_neg hcheck, hlast, if_true]
  | next => cases hc
  | previous => cases hc
  | add e => cases hc

theorem call_proposed (hs : Sync start offset s h) (hc : c.onReturned = some added) (hlast : s.lastReturned ≠ -1) :
    (s.call veto c).proposed = [s.proposal added] := by
  have hcheck := hs.unmodified
  cases c with
  | set e =>
    cases hc
    simp only [VetoableListIterator.call, if_neg hcheck, hlast, if_false]
    split
    · rfl
    · rfl
  | remove =>
    cases hc
    simp only [VetoableListIterator.call, if_neg hcheck, hlast, if_false, VetoableListIterator.modify]
    split
    · rfl
    · split
      · rfl
      · rfl
  | next => cases hc
  | previous => cases hc
  | add e => cases hc

theorem call_vetoed (hs : Sync start offset s h) (hc : c.onReturned = some added) (hlast : s.lastReturned ≠ -1)
    (hveto : veto (s.proposal added) = true) : s.call veto c = ⟨.error .vetoed, [s.proposal added], s⟩ := by
  have hcheck := hs.unmodified
  cases c with
  | set e =>
    cases hc
    simp only [VetoableListIterator.call, if_neg hcheck, hlast, if_false]
    exact if_pos hveto
  | remove =>
    cases hc
    simp only [VetoableListIterator.call, if_neg hcheck, hlast, if_false]
    exact if_pos hveto
  | next => cases hc
  | previous => cases hc
  | add e => cases hc

theorem call_performed (hs : Sync start offset s h) (hc : c.onReturned = some added) (hlast : s.lastReturned ≠ -1)
    (hveto : veto (s.proposal added) = false) {p : Nat} (hp : s.it.lastRet = some p) :
    (s.call veto c).result = (s.it.call c).1 ∧ (s.call veto c).state.it = (s.it.call c).2 := by
  have hcheck := hs.unmodified
  cases c with
  | set e =>
    cases hc
    simp only [VetoableListIterator.call, if_neg hcheck, hlast, if_false]
    rw [if_neg (by rw [VetoableListIterator.proposal] at hveto; rw [hveto]; exact Bool.false_ne_true)]
    exact ⟨rfl, rfl⟩
  | remove =>
    cases hc
    simp only [VetoableListIterator.call, if_neg hcheck, hlast, if_false]
    rw [if_neg (by rw [VetoableListIterator.proposal] at hveto; rw [hveto]; exact Bool.false_ne_true)]
    simp only [VetoableListIterator.modify, ListItr.call, hp, and_self]
  | next => cases hc
  | previous => cases hc
  | add e => cases hc

theorem change_onReturned (hc : c.onReturned = some added) (it : ListItr E) :
    it.change offset c = it.lastRet.map (fun p : Nat => ⟨added, (offset : Int) + p, (offset : Int) + p + 1⟩) := by
  cases c with
  | set e =>
    cases hc
    simp only [ListItr.change]
  | remove =>
    cases hc
    simp only [ListItr.change]
  | next => cases hc
  | previous => cases hc
  | add e => cases hc

theorem careful_onReturned (hc : c.onReturned = some added) (it : ListItr E) (h : History) :
    h.Careful start c it ↔ match it.lastRet with
      | some p => h.shift = 0 ∧ p + 1 ≠ start
      | none => match h.last with
          | .nothing => False
          | .element p => p + 1 = start + h.shift
          | .removed => True := by
  cases c with
  | set e => rfl
  | remove => rfl
  | next => cases hc
  | previous => cases hc
  | add e => cases hc

theorem Sync.proposal_onReturned (hs : Sync start offset s h) (hc : c.onReturned = some added)
    (hcareful : h.Careful start c s.it) {p : Nat} (hp : s.it.lastRet = some p) :
    s.lastReturned ≠ -1 ∧ s.proposal added = ⟨added, (offset : Int) + p, (offset : Int) + p + 1⟩ := by
  rw [careful_onReturned hc, hp] at hcareful
  obtain ⟨hshift, hne⟩ := hcareful
  refine ⟨?_, (hs.proposal hp added).mpr hshift⟩
  rw [ne_eq, hs.sentinel_element hp, hshift]
  exact hne

theorem Sync.vetoed_onReturned (hs : Sync start offset s h) (hc : c.onReturned = some added)
    (hcareful : h.Careful start c s.it) (hveto : s.it.isVetoed veto offset c = true) :
    s.lastReturned ≠ -1 ∧ veto (s.proposal added) = true := by
  rw [ListItr.isVetoed, change_onReturned hc] at hveto
  cases hp : s.it.lastRet with
  | none =>
    rw [hp] at hveto
    cases hveto
  | some p =>
    rw [hp] at hveto
    obtain ⟨hlast, heq⟩ := hs.proposal_onReturned hc hcareful hp
    refine ⟨hlast, ?_⟩
    rw [heq]
    exact hveto

theorem call_onReturned (hs : Sync start offset s h) (hc : c.onReturned = some added) :
    (s.call veto c).seen = s.it.expected veto offset c ↔ h.Careful start c s.it := by
  rw [careful_onReturned hc, ListItr.expected, change_onReturned hc]
  cases hp : s.it.lastRet with
  | none =>
    have hillegal : s.it.call c = (.error .illegalState, s.it) := by
      cases c with
      | set e => simp [ListItr.call, hp]
      | remove => simp [ListItr.call, hp]
      | next => cases hc
      | previous => cases hc
      | add e => cases hc
    simp only [Option.map_none, hillegal]
    rw [← hs.sentinel]
    constructor
    · intro hseen
      by_contra hlast
      have hproposed : (s.call veto c).proposed = [] := congrArg (fun seen => seen.2.1) hseen
      rw [call_proposed hs hc hlast] at hproposed
      cases hproposed
    · intro hlast
      rw [call_rejected hs hc hlast]
      rfl
  | some p =>
    simp only [Option.map_some]
    constructor
    · intro hseen
      have hproposed : (s.call veto c).proposed = [⟨added, (offset : Int) + p, (offset : Int) + p + 1⟩] := by
        have := congrArg (fun seen => seen.2.1) hseen
        simp only [Reply.seen] at this
        rw [this]
        split
        · rfl
        · rfl
      have hlast : s.lastReturned ≠ -1 := by
        intro hlast
        rw [call_rejected hs hc hlast] at hproposed
        cases hproposed
      rw [call_proposed hs hc hlast] at hproposed
      have hshift := (hs.proposal hp added).mp (List.singleton_inj.mp hproposed)
      rw [ne_eq, hs.sentinel_element hp, hshift] at hlast
      exact ⟨hshift, hlast⟩
    · intro hcareful
      obtain ⟨hlast, heq⟩ := hs.proposal_onReturned hc ((careful_onReturned hc _ _).mpr (hp ▸ hcareful)) hp
      cases hveto : veto (s.proposal added) with
      | true =>
        rw [call_vetoed hs hc hlast hveto, ← heq, if_pos hveto]
        rfl
      | false =>
        obtain ⟨hresult, hit⟩ := call_performed hs hc hlast hveto hp
        rw [← heq, hveto, Reply.seen, hresult, hit, call_proposed hs hc hlast]
        rfl

theorem sync_set (hs : Sync start offset s h) (e : E) : Sync start offset (s.call veto (.set e)).state h := by
  have hcheck := hs.unmodified
  cases hp : s.it.lastRet with
  | none =>
    have hstate : (s.call veto (.set e)).state = s := by
      simp only [VetoableListIterator.call, if_neg hcheck, ListItr.call, hp]
      split
      · rfl
      · split
        · rfl
        · rfl
    rw [hstate]
    exact hs
  | some p =>
    have hstate : (s.call veto (.set e)).state = s ∨
        (s.call veto (.set e)).state = { s with it := { s.it with elements := s.it.elements.set p e } } := by
      simp only [VetoableListIterator.call, if_neg hcheck, ListItr.call, hp]
      split
      · exact Or.inl rfl
      · split
        · exact Or.inl rfl
        · exact Or.inr rfl
    rcases hstate with hstate | hstate
    · rw [hstate]
      exact hs
    · rw [hstate]
      refine ⟨hs.level, hs.offset_eq, hs.cursor, ?_, hs.lastReturned, ?_⟩
      · change s.it.cursor ≤ (s.it.elements.set p e).length
        rw [List.length_set]
        exact hs.bound
      · intro q hq
        obtain ⟨hlast, hlt, hcursor⟩ := hs.lastRet q hq
        refine ⟨hlast, ?_, hcursor⟩
        change q < (s.it.elements.set p e).length
        rw [List.length_set]
        exact hlt

theorem sync_remove (hs : Sync start offset s h) {p : Nat} (hp : s.it.lastRet = some p) (hlast : s.lastReturned ≠ -1)
    (hveto : veto (s.proposal []) = false) :
    Sync start offset (s.call veto .remove).state (h.after .remove s.it) := by
  have hcheck := hs.unmodified
  have hcursor := hs.cursor
  have hbound := hs.bound
  obtain ⟨-, hlt, hnear⟩ := hs.lastRet p hp
  have hstate : (s.call veto .remove).state =
      { s with it := ⟨s.it.elements.eraseIdx p, if p < s.it.cursor then s.it.cursor - 1 else s.it.cursor, none⟩,
               modCountAccessor := s.modCountAccessor.addAndGet 1,
               modCount := (s.modCountAccessor.addAndGet 1).list, lastReturned := -1, cursor := s.cursor - 1 } := by
    simp only [VetoableListIterator.call, if_neg hcheck, hlast, if_false]
    rw [if_neg (by rw [VetoableListIterator.proposal] at hveto; rw [hveto]; exact Bool.false_ne_true)]
    simp only [VetoableListIterator.modify, ListItr.call, hp]
  have hafter : h.after .remove s.it = ⟨.removed, if p < s.it.cursor then h.shift else h.shift + 1⟩ := by
    simp only [History.after, hp]
  rw [hstate, hafter]
  refine ⟨ModCountAccessor.level_addAndGet 1 _, hs.offset_eq, ?_, ?_, rfl, ?_⟩
  · simp only
    split
    · omega
    · omega
  · simp only [List.length_eraseIdx, hlt, if_true]
    split
    · omega
    · omega
  · intro q hq
    cases hq

end OnReturned

/-- One call: the decorator keeps to the contract exactly when the call is one it
gets right, and then follows the list's own iterator. -/
theorem call_faithful_iff (hs : Sync start offset s h) (c : IteratorCall E) :
    (s.call veto c).seen = s.it.expected veto offset c ↔ h.Careful start c s.it := by
  cases c with
  | next => exact iff_of_true (call_next hs).1 trivial
  | previous => exact iff_of_true (call_previous hs).1 trivial
  | add e => exact (call_add hs e).1
  | set e => exact call_onReturned hs rfl
  | remove => exact call_onReturned hs rfl

theorem call_sync_vetoed (hs : Sync start offset s h) {c : IteratorCall E} (hc : h.Careful start c s.it)
    (hveto : s.it.isVetoed veto offset c = true) : (s.call veto c).state = s := by
  have hcheck := hs.unmodified
  cases c with
  | next => cases hveto
  | previous => cases hveto
  | add e =>
    have heq : (⟨[e], s.offset + s.cursor, s.offset + s.cursor⟩ : Proposal E) =
        ⟨[e], (offset : Int) + s.it.cursor, (offset : Int) + s.it.cursor⟩ := by
      have hcursor := hs.cursor
      have hoffset := hs.offset_eq
      have hshift : h.shift = 0 := hc
      simp only [Proposal.mk.injEq, true_and]
      omega
    have hrefused : veto ⟨[e], s.offset + s.cursor, s.offset + s.cursor⟩ = true := by
      rw [heq]
      simpa [ListItr.isVetoed, ListItr.change] using hveto
    simp only [VetoableListIterator.call, if_neg hcheck, hrefused, if_true]
  | set e =>
    obtain ⟨hlast, hrefused⟩ := hs.vetoed_onReturned rfl hc hveto
    rw [call_vetoed hs rfl hlast hrefused]
  | remove =>
    obtain ⟨hlast, hrefused⟩ := hs.vetoed_onReturned rfl hc hveto
    rw [call_vetoed hs rfl hlast hrefused]

theorem call_sync_performed (hs : Sync start offset s h) {c : IteratorCall E} (hc : h.Careful start c s.it)
    (hveto : s.it.isVetoed veto offset c = false) : Sync start offset (s.call veto c).state (h.after c s.it) := by
  cases c with
  | next => exact (call_next hs).2
  | previous => exact (call_previous hs).2
  | add e => exact (call_add hs e).2 hc hveto
  | set e => exact sync_set hs e
  | remove =>
    cases hp : s.it.lastRet with
    | none =>
      have hlast : s.lastReturned = -1 := by
        rw [careful_onReturned rfl, hp] at hc
        exact hs.sentinel.mpr hc
      have hafter : h.after .remove s.it = h := by simp only [History.after, hp]
      rw [call_rejected hs rfl hlast, hafter]
      exact hs
    | some p =>
      obtain ⟨hlast, heq⟩ := hs.proposal_onReturned rfl hc hp
      apply sync_remove hs hp hlast
      rw [heq]
      simpa [ListItr.isVetoed, ListItr.change, hp] using hveto

theorem faithful_iff_careful (hs : Sync start offset s h) (calls : List (IteratorCall E)) :
    s.Faithful veto offset calls ↔ CarefulCalls start veto offset calls s.it h := by
  induction calls generalizing s h with
  | nil => exact Iff.rfl
  | cons c rest ih =>
    unfold VetoableListIterator.Faithful CarefulCalls
    rw [call_faithful_iff hs c]
    apply and_congr_right
    intro hc
    have hseen : (s.call veto c).seen = s.it.expected veto offset c := (call_faithful_iff hs c).mpr hc
    cases hveto : s.it.isVetoed veto offset c with
    | true =>
      rw [call_sync_vetoed hs hc hveto]
      exact ih hs
    | false =>
      have hit : (s.call veto c).state.it = (s.it.call c).2 := by
        have hthird := congrArg (fun seen => seen.2.2) hseen
        simp only [Reply.seen, ListItr.expected] at hthird
        rw [hthird]
        cases hchange : s.it.change offset c with
        | none => rfl
        | some p =>
          have hp : veto p = false := by simpa [ListItr.isVetoed, hchange] using hveto
          simp [hp]
      simp only [Bool.false_eq_true, if_false]
      rw [← hit]
      exact ih (call_sync_performed hs hc hveto)

end Sync

/-! ## Every iterator of every nested subList -/

section Iterators
variable {E : Type}

theorem subList_level {l l' : VetoableList E} {fromIndex toIndex : Nat} (h : l.subList fromIndex toIndex = .ok l')
    (hl : l.modCountAccessor.Level l.modCountAccessor.get) :
    l'.modCountAccessor.Level l'.modCountAccessor.get := by
  unfold VetoableList.subList at h
  split at h
  · cases h
    refine ⟨?_, ?_⟩
    · simpa [ModCountAccessor.get, List.getLastD_concat] using hl.1
    · intro x hx
      rcases List.mem_append.mp hx with hold | hnew
      · simpa [ModCountAccessor.get, List.getLastD_concat] using hl.2 x hold
      · simpa [ModCountAccessor.get, List.getLastD_concat] using hnew
  · cases h

theorem subLists_level {ranges : List (Nat × Nat)} {l l' : VetoableList E} (h : l.subLists ranges = .ok l')
    (hl : l.modCountAccessor.Level l.modCountAccessor.get) :
    l'.modCountAccessor.Level l'.modCountAccessor.get := by
  induction ranges generalizing l with
  | nil =>
    cases h
    exact hl
  | cons range rest ih =>
    rw [VetoableList.subLists] at h
    cases hsub : l.subList range.1 range.2 with
    | error x =>
      rw [hsub] at h
      cases h
    | ok m =>
      rw [hsub] at h
      exact ih h (subList_level hsub hl)

/-- For an iterator of the list or of a nested subList: the decorator keeps to the
contract along a sequence of calls exactly when it gets every one of them right. -/
theorem iterator_faithful_iff (veto : Proposal E → Bool) (list : List E) (ranges : List (Nat × Nat)) (index : Nat)
    (calls : List (IteratorCall E)) {l : VetoableList E} {s : VetoableListIterator E}
    (hl : (VetoableList.decorate list).subLists ranges = .ok l) (hs : l.listIterator index = .ok s) :
    s.Faithful veto l.before.length calls ↔
      CarefulCalls index veto l.before.length calls ⟨l.elements, index, none⟩ ⟨.nothing, 0⟩ := by
  have hlevel := subLists_level hl ⟨rfl, by simp [VetoableList.decorate]⟩
  unfold VetoableList.listIterator at hs
  split at hs
  · rename_i hindex
    cases hs
    have hsync : Sync index l.before.length (⟨⟨l.elements, index, none⟩, l.modCountAccessor, l.modCountAccessor.get,
        l.offset + index, 0, 0⟩ : VetoableListIterator E) ⟨.nothing, 0⟩ := by
      refine ⟨hlevel, ?_, ?_, hindex, rfl, ?_⟩
      · rw [l.offset_eq]
      · simp
      · intro p hp
        cases hp
    exact faithful_iff_careful hsync calls
  · cases hs

end Iterators

/-- Elements must not be removed, but may be set and added. -/
def vetoRemoval (p : Proposal Nat) : Bool := p.toBeAdded.isEmpty

theorem iterator_faithful_iff_nested : ∃ l s,
    (VetoableList.decorate [10, 11, 12, 13, 14, 15]).subLists [(1, 6), (1, 4)] = .ok l ∧
    l.listIterator 1 = .ok s ∧
    s.Faithful vetoRemoval l.before.length [.next, .set 23, .next, .remove, .previous, .previous, .add 24] :=
  ⟨_, _, rfl, rfl, (iterator_faithful_iff vetoRemoval [10, 11, 12, 13, 14, 15] [(1, 6), (1, 4)] 1
    [.next, .set 23, .next, .remove, .previous, .previous, .add 24] rfl rfl).mpr (by decide)⟩

/-- A `set` without an element, the element in front of the start index, and an
`add` after the removal of an element returned by `previous`. -/
theorem iterator_contract_broken :
    ∃ s : VetoableListIterator Nat, (VetoableList.decorate [10, 11, 12]).listIterator 1 = .ok s ∧
      ¬s.Faithful (fun _ => false) 0 [.set 5] ∧
      ¬s.Faithful (fun _ => false) 0 [.previous, .set 5] ∧
      ¬s.Faithful (fun _ => false) 0 [.next, .previous, .remove, .add 5] :=
  ⟨_, rfl, by decide, by decide, by decide⟩

end OpenJfx.Collections
