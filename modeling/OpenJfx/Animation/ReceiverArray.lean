import OpenJfx.Lib.Arrays

/-! # The receiver arrays of `AbstractMasterTimer`

`receivers` and `animationTimers` are arrays with a fill length and a lock.  A
pulse reads a snapshot of the reference while the lock is set; the first change
made under the lock goes to a copy.  Arrays are kept in the order in which they
were allocated, a reference is a position in that list. -/
set_option autoImplicit false
namespace OpenJfx.Animation

open OpenJfx.Lib

structure ReceiverArray (α : Type) where
  arrays : List (List (Option α))
  current : Nat
  length : Nat
  locked : Bool
deriving DecidableEq, Repr

namespace ReceiverArray
variable {α : Type} [DecidableEq α]

def empty : ReceiverArray α := ⟨[[none, none]], 0, 0, false⟩

def array (s : ReceiverArray α) (ref : Nat) : List (Option α) := s.arrays[ref]?.getD []

def copyOf (a : List (Option α)) (newLength : Nat) : List (Option α) :=
  a.take newLength ++ List.replicate (newLength - a.length) none

/-- The field is set to a new array, which is not locked. -/
def allocate (s : ReceiverArray α) (a : List (Option α)) : ReceiverArray α :=
  { s with arrays := s.arrays ++ [a], current := s.arrays.length, locked := false }

def store (s : ReceiverArray α) (a : List (Option α)) : ReceiverArray α :=
  { s with arrays := s.arrays.set s.current a }

/-- The first statement of `add`. -/
def makeRoom (s : ReceiverArray α) : ReceiverArray α :=
  let receivers := s.array s.current
  let needMoreSize := decide (s.length = receivers.length)
  if s.locked || needMoreSize then
    s.allocate (copyOf receivers
      (if needMoreSize then receivers.length * 3 / 2 + 1 else receivers.length))
  else s

def add (target : α) (s : ReceiverArray α) : Except Exn (ReceiverArray α) :=
  let s := s.makeRoom
  match writeAt (s.array s.current) s.length (some target) with
  | .error x => .error x
  | .ok a => .ok { s.store a with length := s.length + 1 }

/-- The loop over the receivers, up to the first one that is the target. -/
def search (target : α) (a : List (Option α)) : Nat → Nat → Except Exn (Option Nat)
  | 0, _ => .ok none
  | rest + 1, i =>
      match readAt a i with
      | .error x => .error x
      | .ok slot => if slot = some target then .ok (some i) else search target a rest (i + 1)

/-- The slots behind the target move down by one, the last one becomes `null`. -/
def removeAt (a : List (Option α)) (length i : Nat) : Except Exn (List (Option α)) :=
  if i + 1 = length then writeAt a i none
  else
    match arraycopy a (i + 1) a i ((length : Int) - i - 1) with
    | .error x => .error x
    | .ok a => writeAt a ((length : Int) - 1) none

/-- The first statement of `remove`. -/
def unshare (s : ReceiverArray α) : ReceiverArray α :=
  if s.locked then s.allocate (s.array s.current) else s

def remove (target : α) (s : ReceiverArray α) : Except Exn (ReceiverArray α) :=
  let s := s.unshare
  match search target (s.array s.current) s.length 0 with
  | .error x => .error x
  | .ok none => .ok s
  | .ok (some i) =>
      match removeAt (s.array s.current) s.length i with
      | .error x => .error x
      | .ok a => .ok { s.store a with length := s.length - 1 }

/-! ## The registrations an array holds -/

section Contents
omit [DecidableEq α]

/-- The array at `ref` starts with the receivers `rs`. -/
def Starts (s : ReceiverArray α) (ref : Nat) (rs : List α) : Prop :=
  ∃ rest, s.arrays[ref]? = some (rs.map some ++ rest)

structure Holds (s : ReceiverArray α) (rs : List α) : Prop where
  starts : s.Starts s.current rs
  length : s.length = rs.length

/-- A snapshot that no change of the receivers reaches. -/
structure Frozen (s : ReceiverArray α) (ref : Nat) (rs : List α) : Prop where
  starts : s.Starts ref rs
  apart : s.locked = true ∨ s.current ≠ ref

theorem Starts.array {s : ReceiverArray α} {ref : Nat} {rs : List α} (h : s.Starts ref rs) :
    ∃ rest, s.array ref = rs.map some ++ rest := by
  obtain ⟨rest, h⟩ := h
  exact ⟨rest, by rw [ReceiverArray.array, h, Option.getD_some]⟩

theorem holds_empty : (empty : ReceiverArray α).Holds [] := ⟨⟨_, rfl⟩, rfl⟩

@[simp] theorem array_allocate (s : ReceiverArray α) (a : List (Option α)) :
    (s.allocate a).array (s.allocate a).current = a := by
  simp [ReceiverArray.array, allocate]

theorem Frozen.allocate {s : ReceiverArray α} {ref : Nat} {rs : List α} (h : s.Frozen ref rs)
    (a : List (Option α)) : (s.allocate a).Frozen ref rs := by
  obtain ⟨rest, hrest⟩ := h.starts
  have inside : ref < s.arrays.length := (List.getElem?_eq_some_iff.mp hrest).1
  constructor
  case starts => exact ⟨rest, by rw [← hrest]; exact List.getElem?_append_left inside⟩
  case apart =>
    right
    show s.arrays.length ≠ ref
    omega

theorem Frozen.store {s : ReceiverArray α} {ref : Nat} {rs : List α} (h : s.Frozen ref rs)
    (unlocked : s.locked = false) (a : List (Option α)) (n : Nat) :
    ({ s.store a with length := n } : ReceiverArray α).Frozen ref rs := by
  have apart : s.current ≠ ref := by
    rcases h.apart with locked | apart
    · rw [unlocked] at locked
      cases locked
    · exact apart
  obtain ⟨rest, hrest⟩ := h.starts
  constructor
  case starts => exact ⟨rest, by rw [← hrest]; exact List.getElem?_set_ne apart⟩
  case apart => exact Or.inr apart

theorem holds_store {s : ReceiverArray α} {rs : List α} {rest : List (Option α)} {n : Nat}
    (inside : s.current < s.arrays.length) (length : n = rs.length) :
    ({ s.store (rs.map some ++ rest) with length := n } : ReceiverArray α).Holds rs := by
  constructor
  case starts => exact ⟨rest, List.getElem?_set_self inside⟩
  case length => exact length

theorem Holds.inside {s : ReceiverArray α} {rs : List α} (h : s.Holds rs) :
    s.current < s.arrays.length := by
  obtain ⟨rest, hrest⟩ := h.starts
  exact (List.getElem?_eq_some_iff.mp hrest).1

theorem copyOf_starts (rs : List α) (rest : List (Option α)) {n : Nat}
    (long : (rs.map some ++ rest).length ≤ n) :
    ∃ rest', copyOf (rs.map some ++ rest) n = rs.map some ++ rest' ∧ n = rs.length + rest'.length := by
  refine ⟨rest ++ List.replicate (n - (rs.map some ++ rest).length) none, ?_, ?_⟩
  · rw [copyOf, List.take_of_length_le long, List.append_assoc]
  · simp only [List.length_append, List.length_map, List.length_replicate] at long ⊢
    omega

theorem holds_allocate {s : ReceiverArray α} {rs : List α} (length : s.length = rs.length)
    (rest : List (Option α)) : (s.allocate (rs.map some ++ rest)).Holds rs := by
  constructor
  case starts => exact ⟨rest, by simp [allocate]⟩
  case length => exact length

theorem makeRoom_spec {s : ReceiverArray α} {rs : List α} (h : s.Holds rs) :
    s.makeRoom.Holds rs ∧ s.makeRoom.locked = false ∧
      (∃ x rest, s.makeRoom.array s.makeRoom.current = rs.map some ++ x :: rest) ∧
      ∀ ref snapshot, s.Frozen ref snapshot → s.makeRoom.Frozen ref snapshot := by
  obtain ⟨rest, hrest⟩ := h.starts.array
  have hlen := h.length
  unfold makeRoom
  dsimp only
  rw [hrest]
  by_cases copy : (s.locked || decide (s.length = (rs.map some ++ rest).length)) = true
  · rw [if_pos copy]
    obtain ⟨rest', hcopy, hn⟩ := copyOf_starts rs rest (n := if decide (s.length = (rs.map some ++ rest).length) = true
      then (rs.map some ++ rest).length * 3 / 2 + 1 else (rs.map some ++ rest).length) (by split <;> omega)
    rw [hcopy]
    refine ⟨holds_allocate hlen rest', rfl, ?_, fun ref snapshot frozen => frozen.allocate _⟩
    rw [array_allocate]
    cases rest' with
    | nil =>
      simp only [decide_eq_true_iff, List.length_append, List.length_map, List.length_nil] at hn
      split at hn <;> omega
    | cons x rest' => exact ⟨x, rest', rfl⟩
  · rw [if_neg copy]
    have unlocked : s.locked = false := by
      cases locked : s.locked with
      | true => rw [locked] at copy; simp at copy
      | false => rfl
    refine ⟨h, unlocked, ?_, fun ref snapshot frozen => frozen⟩
    rw [hrest]
    cases rest with
    | nil => simp [hlen] at copy
    | cons x rest => exact ⟨x, rest, rfl⟩

theorem unshare_spec {s : ReceiverArray α} {rs : List α} (h : s.Holds rs) :
    s.unshare.Holds rs ∧ s.unshare.locked = false ∧
      ∀ ref snapshot, s.Frozen ref snapshot → s.unshare.Frozen ref snapshot := by
  obtain ⟨rest, hrest⟩ := h.starts.array
  unfold unshare
  cases locked : s.locked with
  | true =>
    rw [if_pos rfl, hrest]
    exact ⟨holds_allocate h.length rest, rfl, fun ref snapshot frozen => frozen.allocate _⟩
  | false =>
    rw [if_neg (by decide)]
    exact ⟨h, locked, fun ref snapshot frozen => frozen⟩

theorem add_spec {s : ReceiverArray α} {rs : List α} (h : s.Holds rs) (target : α) :
    ∃ s' : ReceiverArray α, s.add target = .ok s' ∧ s'.Holds (rs ++ [target]) ∧
      ∀ ref snapshot, s.Frozen ref snapshot → s'.Frozen ref snapshot := by
  obtain ⟨held, unlocked, ⟨x, rest, harray⟩, frozen⟩ := makeRoom_spec h
  have hwrite : writeAt (s.makeRoom.array s.makeRoom.current) s.makeRoom.length (some target)
      = .ok (rs.map some ++ some target :: rest) := by
    rw [harray]
    exact writeAt_split (by simp [held.length])
  refine ⟨{ s.makeRoom.store (rs.map some ++ some target :: rest) with length := s.makeRoom.length + 1 },
    by simp only [add, hwrite], ?_, fun ref snapshot h => (frozen ref snapshot h).store unlocked _ _⟩
  have hsplit : rs.map some ++ some target :: rest = (rs ++ [target]).map some ++ rest := by simp
  rw [hsplit]
  exact holds_store held.inside (by simp [held.length])

end Contents

theorem search_spec (target : α) {front rs : List α} {rest : List (Option α)} (i : Nat)
    (hi : i = front.length) :
    search target (front.map some ++ (rs.map some ++ rest)) rs.length i
      = .ok (if target ∈ rs then some (i + rs.idxOf target) else none) := by
  induction rs generalizing front i with
  | nil => rfl
  | cons r rs ih =>
    have hread : readAt (front.map some ++ (some r :: (rs.map some ++ rest))) i = .ok (some r) :=
      readAt_split (by simp [hi])
    simp only [List.map_cons, List.cons_append, List.length_cons, search, hread, Option.some.injEq]
    by_cases found : r = target
    · simp [found]
    · have hsplit : front.map some ++ some r :: (rs.map some ++ rest)
          = (front ++ [r]).map some ++ (rs.map some ++ rest) := by simp
      rw [if_neg found, hsplit, ih (i + 1) (by simp [hi])]
      have hmem : target ∈ r :: rs ↔ target ∈ rs := by simp [Ne.symm found]
      simp only [hmem]
      split
      · rw [List.idxOf_cons_ne _ (by simpa using found)]
        simp only [Except.ok.injEq, Option.some.injEq]
        omega
      · rfl

omit [DecidableEq α] in
theorem removeAt_spec {front back : List α} {target : α} {rest : List (Option α)} {n i : Nat}
    (hn : n = (front ++ target :: back).length) (hi : i = front.length) :
    removeAt ((front ++ target :: back).map some ++ rest) n i
      = .ok ((front ++ back).map some ++ none :: rest) := by
  simp only [List.length_append, List.length_cons] at hn
  unfold removeAt
  by_cases last : i + 1 = n
  · have hback : back = [] := List.eq_nil_of_length_eq_zero (by omega)
    subst hback
    rw [if_pos last]
    simp only [List.map_append, List.map_cons, List.map_nil, List.append_nil, List.append_assoc,
      List.singleton_append]
    exact writeAt_split (by simp [hi])
  · rw [if_neg last]
    -- the last registration, which the copy leaves in place
    obtain ⟨moved, x, hmoved⟩ : ∃ moved x, target :: back = moved ++ [x] :=
      ⟨_, _, (List.dropLast_append_getLast (List.cons_ne_nil target back)).symm⟩
    have hlen : moved.length = back.length := by
      have := congrArg List.length hmoved
      simp at this
      omega
    have hsrc : (front ++ target :: back).map some ++ rest
        = (front ++ [target]).map some ++ (back.map some ++ rest) := by simp
    have hdest : (front ++ target :: back).map some ++ rest
        = front.map some ++ (moved.map some ++ some x :: rest) := by rw [hmoved]; simp
    have hcopy : arraycopy ((front ++ target :: back).map some ++ rest) (i + 1)
        ((front ++ target :: back).map some ++ rest) i ((n : Int) - i - 1)
        = .ok (front.map some ++ (back.map some ++ some x :: rest)) := by
      have hsplit := @arraycopy_split _ ((front ++ [target]).map some) (back.map some) rest
        (front.map some) (moved.map some) (some x :: rest) (i + 1) i ((n : Int) - i - 1)
        (by simp [hi]) (by simp [hi]) (by simp; omega) (by simp [hlen]; omega)
      rwa [← hsrc, ← hdest] at hsplit
    rw [hcopy]
    have hsplit : front.map some ++ (back.map some ++ some x :: rest)
        = (front ++ back).map some ++ some x :: rest := by simp
    rw [hsplit]
    exact writeAt_split (by simp; omega)

theorem remove_spec {s : ReceiverArray α} {rs : List α} (h : s.Holds rs) (target : α) :
    ∃ s' : ReceiverArray α, s.remove target = .ok s' ∧ s'.Holds (rs.erase target) ∧
      ∀ ref snapshot, s.Frozen ref snapshot → s'.Frozen ref snapshot := by
  obtain ⟨held, unlocked, frozen⟩ := unshare_spec h
  obtain ⟨rest, harray⟩ := held.starts.array
  have hsearch := @search_spec _ _ target [] rs rest 0 rfl
  simp only [List.map_nil, List.nil_append, Nat.zero_add, ← harray, ← held.length] at hsearch
  by_cases found : target ∈ rs
  · rw [if_pos found] at hsearch
    obtain ⟨front, back, hnot, hrs, herase⟩ := List.exists_erase_eq found
    have hindex : rs.idxOf target = front.length := by
      rw [hrs, List.idxOf_append_of_notMem hnot]
      simp
    have hremove : removeAt (s.unshare.array s.unshare.current) s.unshare.length (rs.idxOf target)
        = .ok ((front ++ back).map some ++ none :: rest) := by
      rw [harray, held.length]
      conv_lhs => rw [hrs]
      exact removeAt_spec rfl (by rw [← hrs]; exact hindex)
    refine ⟨{ s.unshare.store ((front ++ back).map some ++ none :: rest) with
      length := s.unshare.length - 1 }, by simp only [remove, hsearch, hremove], ?_,
      fun ref snapshot h => (frozen ref snapshot h).store unlocked _ _⟩
    rw [herase]
    exact holds_store held.inside (by rw [held.length, hrs]; simp)
  · rw [if_neg found] at hsearch
    refine ⟨s.unshare, by simp only [remove, hsearch], ?_, frozen⟩
    rw [List.erase_of_not_mem found]
    exact held

end ReceiverArray
end OpenJfx.Animation
