import Mathlib.Data.List.Perm.Basic
import Mathlib.Logic.Function.Basic

/-! # The backing hash map

A `java.util.HashMap` as its users see it.  A node is an object: entries handed
out by an iterator hold on to it after it was unlinked, so every node ever
created keeps its key and its value, and `table` lists the linked ones in
iteration order.  That order is the map's own business; a new node comes with the
order the map wants to have from then on.  Null is `none`. -/
set_option autoImplicit false
namespace OpenJfx.Collections

structure HashMap (K V : Type) where
  key : Nat → Option K
  value : Nat → Option V
  allocated : Nat
  table : List Nat
  modCount : Nat
  table_lt : ∀ r ∈ table, r < allocated
  table_nodup : table.Nodup
  key_inj : ∀ r ∈ table, ∀ s ∈ table, key r = key s → r = s

namespace HashMap
variable {K V : Type}

/-- `new HashMap<>()`. -/
def empty : HashMap K V := ⟨fun _ => none, fun _ => none, 0, [], 0, by simp, by simp, by simp⟩

/-- The order wanted for the linked nodes, if it is one. -/
def arrange (wanted actual : List Nat) : List Nat := if wanted.Perm actual then wanted else actual

theorem arrange_perm (wanted actual : List Nat) : (arrange wanted actual).Perm actual := by
  unfold arrange
  split
  · assumption
  · exact List.Perm.refl _

section Operations
variable [DecidableEq K]

def getNode (k : Option K) (m : HashMap K V) : Option Nat := m.table.find? (fun r => m.key r == k)

/-- What the map holds for a key; `none` when it has no such key. -/
def lookup (m : HashMap K V) (k : Option K) : Option (Option V) := (m.getNode k).map m.value

def containsKey (k : Option K) (m : HashMap K V) : Bool := (m.getNode k).isSome

/-- `setValue` of a node, whether it is linked or not. -/
def setValue (r : Nat) (v : Option V) (m : HashMap K V) : HashMap K V :=
  { m with value := Function.update m.value r v }

def link (wanted : List Nat) (k : Option K) (v : Option V) (m : HashMap K V) (absent : m.getNode k = none) :
    HashMap K V where
  key := Function.update m.key m.allocated k
  value := Function.update m.value m.allocated v
  allocated := m.allocated + 1
  table := arrange wanted (m.allocated :: m.table)
  modCount := m.modCount + 1
  table_lt := by
    intro r hr
    rcases List.mem_cons.mp ((arrange_perm _ _).mem_iff.mp hr) with rfl | hr
    · exact Nat.lt_succ_self _
    · exact Nat.lt_succ_of_lt (m.table_lt r hr)
  table_nodup := by
    refine (arrange_perm _ _).nodup_iff.mpr (List.nodup_cons.mpr ⟨?_, m.table_nodup⟩)
    intro h
    exact Nat.lt_irrefl _ (m.table_lt _ h)
  key_inj := by
    have fresh : ∀ r ∈ m.table, r ≠ m.allocated := fun r hr => Nat.ne_of_lt (m.table_lt r hr)
    have other : ∀ r ∈ m.table, m.key r ≠ k := by
      intro r hr
      have := List.find?_eq_none.mp absent r hr
      simpa using this
    intro r hr s hs hkey
    rcases List.mem_cons.mp ((arrange_perm _ _).mem_iff.mp hr) with rfl | hr
    · rcases List.mem_cons.mp ((arrange_perm _ _).mem_iff.mp hs) with rfl | hs
      · rfl
      · rw [Function.update_self, Function.update_of_ne (fresh s hs)] at hkey
        exact absurd hkey.symm (other s hs)
    · rcases List.mem_cons.mp ((arrange_perm _ _).mem_iff.mp hs) with rfl | hs
      · rw [Function.update_self, Function.update_of_ne (fresh r hr)] at hkey
        exact absurd hkey (other r hr)
      · rw [Function.update_of_ne (fresh r hr), Function.update_of_ne (fresh s hs)] at hkey
        exact m.key_inj r hr s hs hkey

/-- `putVal`: the value replaced, null for a new key, and the map. -/
def putVal (wanted : List Nat) (k : Option K) (v : Option V) (m : HashMap K V) : Option V × HashMap K V :=
  match h : m.getNode k with
  | some r => (m.value r, m.setValue r v)
  | none => (none, m.link wanted k v h)

def unlink (r : Nat) (m : HashMap K V) : HashMap K V where
  key := m.key
  value := m.value
  allocated := m.allocated
  table := m.table.erase r
  modCount := m.modCount + 1
  table_lt := fun s hs => m.table_lt s (List.mem_of_mem_erase hs)
  table_nodup := m.table_nodup.erase r
  key_inj := fun s hs t ht => m.key_inj s (List.mem_of_mem_erase hs) t (List.mem_of_mem_erase ht)

/-- `remove(key)`: the value that was removed, and the map. -/
def remove (k : Option K) (m : HashMap K V) : Option V × HashMap K V :=
  match m.getNode k with
  | some r => (m.value r, m.unlink r)
  | none => (none, m)

/-- `entrySet().remove(o)` for an object that is an entry with this key and value:
`removeNode` with `matchValue`. -/
def removeEntry [BEq V] (k : Option K) (v : Option V) (m : HashMap K V) : Bool × HashMap K V :=
  match m.getNode k with
  | some r => if m.value r == v then (true, m.unlink r) else (false, m)
  | none => (false, m)

end Operations

/-! ## Contents -/

section Contents
variable [DecidableEq K] {m : HashMap K V} {k : Option K} {r : Nat}

theorem getNode_some (h : m.getNode k = some r) : r ∈ m.table ∧ m.key r = k := by
  refine ⟨List.mem_of_find?_eq_some h, ?_⟩
  have := List.find?_some h
  simpa using this

theorem getNode_none (h : m.getNode k = none) (hr : r ∈ m.table) : m.key r ≠ k := by
  have := List.find?_eq_none.mp h r hr
  simpa using this

theorem getNode_eq (hr : r ∈ m.table) (hk : m.key r = k) : m.getNode k = some r := by
  cases h : m.getNode k with
  | none => exact absurd hk (getNode_none h hr)
  | some s =>
    obtain ⟨hs, hks⟩ := getNode_some h
    rw [m.key_inj s hs r hr (hks.trans hk.symm)]

theorem getNode_eq_none (h : ∀ r ∈ m.table, m.key r ≠ k) : m.getNode k = none := by
  cases hn : m.getNode k with
  | none => rfl
  | some s => exact absurd (getNode_some hn).2 (h s (getNode_some hn).1)

theorem putVal_some (h : m.getNode k = some r) (wanted : List Nat) (v : Option V) :
    m.putVal wanted k v = (m.value r, m.setValue r v) := by
  unfold putVal
  split
  · rename_i s hs
    rw [Option.some.inj (hs.symm.trans h)]
  · rename_i hs
    cases hs.symm.trans h

theorem putVal_none (h : m.getNode k = none) (wanted : List Nat) (v : Option V) :
    m.putVal wanted k v = (none, m.link wanted k v h) := by
  unfold putVal
  split
  · rename_i s hs
    cases hs.symm.trans h
  · rfl

theorem lookup_eq (hr : r ∈ m.table) (hk : m.key r = k) : m.lookup k = some (m.value r) := by
  rw [lookup, getNode_eq hr hk, Option.map_some]

theorem lookup_eq_none (h : ∀ r ∈ m.table, m.key r ≠ k) : m.lookup k = none := by
  rw [lookup, getNode_eq_none h, Option.map_none]

theorem lookup_congr {n : HashMap K V} (htable : ∀ r, m.key r = k → (r ∈ n.table ↔ r ∈ m.table))
    (hkey : ∀ r ∈ n.table, n.key r = k ↔ m.key r = k)
    (hvalue : ∀ r ∈ n.table, m.key r = k → n.value r = m.value r) : n.lookup k = m.lookup k := by
  cases h : m.getNode k with
  | some r =>
    obtain ⟨hr, hk⟩ := getNode_some h
    have hn : r ∈ n.table := (htable r hk).mpr hr
    rw [lookup_eq hr hk, lookup_eq hn ((hkey r hn).mpr hk), hvalue r hn hk]
  | none =>
    have hnone : m.lookup k = none := by rw [lookup, h, Option.map_none]
    rw [hnone]
    apply lookup_eq_none
    intro r hr hk
    have hmk := (hkey r hr).mp hk
    exact getNode_none h ((htable r hmk).mp hr) hmk

theorem lookup_setValue (hr : r ∈ m.table) (v : Option V) (k : Option K) :
    (m.setValue r v).lookup k = if k = m.key r then some v else m.lookup k := by
  split
  · rename_i hk
    have := @lookup_eq K V _ (m.setValue r v) k r hr hk.symm
    rw [this]
    simp [setValue]
  · rename_i hk
    apply lookup_congr
    · exact fun _ _ => Iff.rfl
    · exact fun _ _ => Iff.rfl
    · intro s _ hs
      have hne : s ≠ r := fun heq => hk (heq ▸ hs.symm)
      simp [setValue, hne]

theorem lookup_link (wanted : List Nat) (v : Option V) (absent : m.getNode k = none) (k' : Option K) :
    (m.link wanted k v absent).lookup k' = if k' = k then some v else m.lookup k' := by
  have hmem : ∀ r, r ∈ (m.link wanted k v absent).table ↔ r ∈ m.allocated :: m.table :=
    fun r => (arrange_perm _ _).mem_iff
  split
  · rename_i hk
    have hself : m.allocated ∈ (m.link wanted k v absent).table := (hmem _).mpr List.mem_cons_self
    rw [lookup_eq hself (by simp [link, hk])]
    simp [link]
  · rename_i hk
    have hne : ∀ s, s ∈ m.table → s ≠ m.allocated := fun s hs => Nat.ne_of_lt (m.table_lt s hs)
    have hold : ∀ s, s ∈ (m.link wanted k v absent).table → s ≠ m.allocated → s ∈ m.table := by
      intro s hs hne
      exact (List.mem_cons.mp ((hmem s).mp hs)).resolve_left hne
    cases hn : m.getNode k' with
    | some s =>
      obtain ⟨hs, hks⟩ := getNode_some hn
      have hs' : s ∈ (m.link wanted k v absent).table := (hmem s).mpr (List.mem_cons_of_mem _ hs)
      have hkey : (m.link wanted k v absent).key s = k' := by simp [link, hne s hs, hks]
      rw [lookup_eq hs' hkey, lookup_eq hs hks]
      simp [link, hne s hs]
    | none =>
      have hnone : m.lookup k' = none := by rw [lookup, hn, Option.map_none]
      rw [hnone]
      apply lookup_eq_none
      intro s hs hks
      by_cases heq : s = m.allocated
      · subst heq
        apply hk
        simpa [link] using hks.symm
      · have hmk : m.key s = k' := by simpa [link, heq] using hks
        exact getNode_none hn (hold s hs heq) hmk

theorem lookup_unlink (hr : r ∈ m.table) (k : Option K) :
    (m.unlink r).lookup k = if k = m.key r then none else m.lookup k := by
  have hmem : ∀ s, s ∈ (m.unlink r).table ↔ s ≠ r ∧ s ∈ m.table := fun s => m.table_nodup.mem_erase_iff
  split
  · rename_i hk
    apply lookup_eq_none
    intro s hs hks
    obtain ⟨hne, hs⟩ := (hmem s).mp hs
    exact hne (m.key_inj s hs r hr (hks.trans hk))
  · rename_i hk
    apply lookup_congr
    · intro s hs
      rw [hmem]
      exact ⟨fun h => h.2, fun h => ⟨fun heq => hk (heq ▸ hs.symm), h⟩⟩
    · exact fun _ _ => Iff.rfl
    · exact fun _ _ _ => rfl

end Contents
end HashMap

/-! ## Fail-fast iterators -/

inductive Fault where
  | concurrentModification
  | noSuchElement
  | illegalState
  | nullPointer
  | unsupportedOperation
  /-- thrown by code of the caller, such as `contains` of an argument -/
  | foreign
deriving DecidableEq, Repr

structure HashIterator where
  remaining : List Nat
  current : Option Nat
  expectedModCount : Nat
deriving DecidableEq, Repr

namespace HashIterator
variable {K V : Type}

def create (m : HashMap K V) : HashIterator := ⟨m.table, none, m.modCount⟩

def nextNode (m : HashMap K V) (it : HashIterator) : Except Fault (Nat × HashIterator) :=
  if m.modCount ≠ it.expectedModCount then .error .concurrentModification
  else match it.remaining with
    | [] => .error .noSuchElement
    | r :: rest => .ok (r, { it with remaining := rest, current := some r })

def remove [DecidableEq K] (m : HashMap K V) (it : HashIterator) : Except Fault (HashMap K V × HashIterator) :=
  match it.current with
  | none => .error .illegalState
  | some r =>
      if m.modCount ≠ it.expectedModCount then .error .concurrentModification
      else
        let m := (m.remove (m.key r)).2
        .ok (m, { it with current := none, expectedModCount := m.modCount })

/-- As long as the map was not changed behind the iterator's back, its nodes are
linked. -/
def Valid (m : HashMap K V) (it : HashIterator) : Prop :=
  it.expectedModCount ≤ m.modCount ∧
    (it.expectedModCount = m.modCount →
      (it.current.toList ++ it.remaining).Nodup ∧ ∀ r ∈ it.current.toList ++ it.remaining, r ∈ m.table)

section Valid
variable {m n : HashMap K V} {it it' : HashIterator} {r : Nat}

theorem valid_create : (create m).Valid m :=
  ⟨Nat.le_refl _, fun _ => ⟨m.table_nodup, fun _ h => h⟩⟩

theorem Valid.of_lt (h : it.Valid m) (hlt : m.modCount < n.modCount) : it.Valid n := by
  refine ⟨Nat.le_trans h.1 (Nat.le_of_lt hlt), ?_⟩
  intro heq
  have := h.1
  omega

theorem Valid.of_same (h : it.Valid m) (hcount : n.modCount = m.modCount) (htable : n.table = m.table) :
    it.Valid n := by
  unfold Valid
  rw [hcount, htable]
  exact h

theorem Valid.nextNode (h : it.Valid m) (hnext : it.nextNode m = .ok (r, it')) :
    r ∈ m.table ∧ it'.current = some r ∧ it'.Valid m := by
  unfold HashIterator.nextNode at hnext
  split at hnext
  · cases hnext
  · rename_i hcount
    have hcount := (not_not.mp hcount).symm
    obtain ⟨hnodup, hmem⟩ := h.2 hcount
    split at hnext
    · cases hnext
    · rename_i s rest hrest
      cases hnext
      rw [hrest] at hnodup hmem
      refine ⟨hmem r (by simp), rfl, h.1, ?_⟩
      intro _
      refine ⟨(List.nodup_append.mp hnodup).2.1, ?_⟩
      intro s hs
      exact hmem s (List.mem_append_right _ hs)

theorem Valid.remove [DecidableEq K] (h : it.Valid m) (hremove : it.remove m = .ok (n, it')) :
    ∃ r ∈ m.table, it.current = some r ∧ it.expectedModCount = m.modCount ∧ n = m.unlink r ∧
      it'.current = none ∧ it'.Valid n := by
  unfold HashIterator.remove at hremove
  split at hremove
  · cases hremove
  · rename_i r hr
    split at hremove
    · cases hremove
    · rename_i hcount
      have hcount := (not_not.mp hcount).symm
      obtain ⟨hnodup, hmem⟩ := h.2 hcount
      rw [hr] at hnodup hmem
      have hlinked : r ∈ m.table := hmem r (by simp)
      have hmap : (m.remove (m.key r)).2 = m.unlink r := by
        rw [HashMap.remove, HashMap.getNode_eq hlinked rfl]
      rw [hmap] at hremove
      cases hremove
      refine ⟨r, hlinked, hr, hcount, rfl, rfl, Nat.le_refl _, ?_⟩
      intro _
      obtain ⟨hnot, hrest⟩ := List.nodup_cons.mp hnodup
      refine ⟨hrest, ?_⟩
      intro s hs
      refine m.table_nodup.mem_erase_iff.mpr ⟨?_, hmem s (List.mem_cons_of_mem _ hs)⟩
      intro heq
      exact hnot (heq ▸ hs)

end Valid
end HashIterator
end OpenJfx.Collections
