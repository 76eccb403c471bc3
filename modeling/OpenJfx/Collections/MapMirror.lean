import OpenJfx.Collections.ObservableMapWrapper
import OpenJfx.Lib.Run

/-! # A mirror of an observable map

A mirror is a map that a listener keeps up to date from the changes it is told.
Values are compared by `equals`, which may identify different objects. -/
set_option autoImplicit false
namespace OpenJfx.Collections

open Lib

section Equals
variable {V : Type} [BEq V] [EquivBEq V]

/-- `Objects.equals`: null equals null only. -/
instance equivBEqOption : EquivBEq (Option V) where
  rfl := by
    intro a
    cases a with
    | none => rfl
    | some v => exact BEq.refl v
  symm := by
    intro a b h
    cases a with
    | none =>
        cases b with
        | none => rfl
        | some w => cases h
    | some v =>
        cases b with
        | none => cases h
        | some w => exact BEq.symm (α := V) h
  trans := by
    intro a b c hab hbc
    cases a with
    | none =>
        cases b with
        | none => exact hbc
        | some w => cases hab
    | some v =>
        cases b with
        | none => cases hab
        | some w =>
            cases c with
            | none => cases hbc
            | some x => exact BEq.trans (α := V) hab hbc

end Equals

/-! ## Mirrors -/

abbrev Mirror (K V : Type) := Option K → Option (Option V)

namespace MapChange
variable {K V : Type} [DecidableEq K]

/-- The mirror after a change: the key is removed if `wasRemoved`, then put if
`wasAdded`. -/
def apply (c : MapChange K V) (mirror : Mirror K V) : Mirror K V :=
  let removed := if c.wasRemoved then Function.update mirror c.key none else mirror
  if c.wasAdded then Function.update removed c.key (some c.added) else removed

def applyAll (changes : List (MapChange K V)) (mirror : Mirror K V) : Mirror K V :=
  changes.foldl (fun mirror c => c.apply mirror) mirror

/-- A value reported as removed is the one the mirror holds for the key. -/
def Reported [BEq V] (c : MapChange K V) (mirror : Mirror K V) : Prop :=
  c.wasRemoved = true → ∃ v, mirror c.key = some v ∧ c.old == v

/-- Every change reports what the mirror holds just before it. -/
def AllReported [BEq V] : List (MapChange K V) → Mirror K V → Prop
  | [], _ => True
  | c :: rest, mirror => c.Reported mirror ∧ AllReported rest (c.apply mirror)

theorem applyAll_append (changes : List (MapChange K V)) (c : MapChange K V) (mirror : Mirror K V) :
    applyAll (changes ++ [c]) mirror = c.apply (applyAll changes mirror) := by
  simp [applyAll]

theorem allReported_append [BEq V] (changes : List (MapChange K V)) (c : MapChange K V) (mirror : Mirror K V) :
    AllReported (changes ++ [c]) mirror ↔ AllReported changes mirror ∧ c.Reported (applyAll changes mirror) := by
  induction changes generalizing mirror with
  | nil => simp [AllReported, applyAll]
  | cons d rest ih =>
    rw [List.cons_append, AllReported, AllReported, ih, and_assoc]
    rfl

theorem apply_beq [BEq V] [EquivBEq V] (c : MapChange K V) {mirror mirror' : Mirror K V}
    (h : ∀ k, (mirror k == mirror' k) = true) (k : Option K) : (c.apply mirror k == c.apply mirror' k) = true := by
  unfold apply
  by_cases hk : k = c.key
  · subst hk
    cases c.wasAdded <;> cases c.wasRemoved <;> simp [h]
  · cases c.wasAdded <;> cases c.wasRemoved <;> simp [Function.update_of_ne hk, h]

end MapChange

namespace ObservableMapWrapper
variable {K V : Type} [DecidableEq K] [BEq V]

/-- The mirror that started as `initial` equals the map, and every value that was
reported as removed was the mirror's. -/
structure Mirrored (initial : Mirror K V) (m : ObservableMapWrapper K V) : Prop where
  equal : ∀ k, (MapChange.applyAll m.fired initial k == m.backingMap.lookup k) = true
  reported : MapChange.AllReported m.fired initial

/-- The iterators that can still be used stand on linked nodes, and have cached
the keys of these. -/
def IteratorsValid (m : ObservableMapWrapper K V) : Prop :=
  ∀ it ∈ m.iterators, it.entryIt.Valid m.backingMap ∧
    ∀ r, it.entryIt.current = some r → it.lastKey = m.backingMap.key r ∧ r < m.backingMap.allocated

structure Inv (initial : Mirror K V) (m : ObservableMapWrapper K V) : Prop where
  mirrored : Mirrored initial m
  iterators : IteratorsValid m

structure Describes (c : MapChange K V) (old new : HashMap K V) : Prop where
  lookup : ∀ k, (c.apply old.lookup k == new.lookup k) = true
  reported : c.Reported old.lookup

section Mirrored
variable [EquivBEq V] {initial : Mirror K V} {m : ObservableMapWrapper K V} {map : HashMap K V} {c : MapChange K V}

theorem Mirrored.fire (h : Mirrored initial m) (hc : Describes c m.backingMap map)
    (iterators : List (ViewIterator K V)) :
    Mirrored initial (callObservers c ⟨map, iterators, m.fired⟩) := by
  refine ⟨?_, ?_⟩
  · intro k
    change (MapChange.applyAll (m.fired ++ [c]) initial k == map.lookup k) = true
    rw [MapChange.applyAll_append]
    exact BEq.trans (MapChange.apply_beq c h.equal k) (hc.lookup k)
  · refine (MapChange.allReported_append _ _ _).mpr ⟨h.reported, ?_⟩
    intro hremoved
    obtain ⟨v, hv, hold⟩ := hc.reported hremoved
    have hequal := h.equal c.key
    rw [hv] at hequal
    cases hmirror : MapChange.applyAll m.fired initial c.key with
    | none =>
      rw [hmirror] at hequal
      cases hequal
    | some w =>
      rw [hmirror] at hequal
      exact ⟨w, rfl, BEq.trans hold (BEq.symm (α := Option V) hequal)⟩

theorem Mirrored.silent (h : Mirrored initial m) (hmap : ∀ k, (m.backingMap.lookup k == map.lookup k) = true)
    (iterators : List (ViewIterator K V)) : Mirrored initial ⟨map, iterators, m.fired⟩ :=
  ⟨fun k => BEq.trans (h.equal k) (hmap k), h.reported⟩

end Mirrored

section Describes
variable [EquivBEq V] {m : HashMap K V} {r : Nat}

theorem describes_setValue (hr : r ∈ m.table) (v : Option V) :
    Describes ⟨m.key r, m.value r, v, true, true⟩ m (m.setValue r v) := by
  refine ⟨?_, ?_⟩
  · intro k
    rw [HashMap.lookup_setValue hr]
    by_cases hk : k = m.key r
    · simp [MapChange.apply, hk]
    · simp [MapChange.apply, hk]
  · intro _
    exact ⟨m.value r, HashMap.lookup_eq hr rfl, BEq.refl _⟩

theorem describes_link {k : Option K} (wanted : List Nat) (v : Option V) (absent : m.getNode k = none) :
    Describes ⟨k, none, v, true, false⟩ m (m.link wanted k v absent) := by
  refine ⟨?_, ?_⟩
  · intro k'
    rw [HashMap.lookup_link]
    by_cases hk : k' = k
    · simp [MapChange.apply, hk]
    · simp [MapChange.apply, hk]
  · intro h
    cases h

theorem describes_unlink {v : Option V} (hr : r ∈ m.table) (hv : (v == m.value r) = true) :
    Describes (removal (m.key r) v) m (m.unlink r) := by
  refine ⟨?_, ?_⟩
  · intro k
    rw [HashMap.lookup_unlink hr]
    by_cases hk : k = m.key r
    · simp [MapChange.apply, removal, hk]
    · simp [MapChange.apply, removal, hk]
  · intro _
    exact ⟨m.value r, HashMap.lookup_eq hr rfl, hv⟩

end Describes

/-! ## Steps -/

section Steps
variable [EquivBEq V] {initial : Mirror K V} {m : ObservableMapWrapper K V}

omit [DecidableEq K] [BEq V] [EquivBEq V] in
theorem IteratorsValid.unlink {fired : List (MapChange K V)} (h : IteratorsValid m) (r : Nat) :
    IteratorsValid ⟨m.backingMap.unlink r, m.iterators, fired⟩ := by
  intro it hit
  exact ⟨(h it hit).1.of_lt (Nat.lt_succ_self _), (h it hit).2⟩

omit [DecidableEq K] [BEq V] [EquivBEq V] in
theorem IteratorsValid.setValue {fired : List (MapChange K V)} (h : IteratorsValid m) (r : Nat) (v : Option V) :
    IteratorsValid ⟨m.backingMap.setValue r v, m.iterators, fired⟩ := by
  intro it hit
  exact ⟨(h it hit).1.of_same rfl rfl, (h it hit).2⟩

omit [BEq V] [EquivBEq V] in
theorem IteratorsValid.link {fired : List (MapChange K V)} {k : Option K} (h : IteratorsValid m) (wanted : List Nat)
    (v : Option V) (absent : m.backingMap.getNode k = none) :
    IteratorsValid ⟨m.backingMap.link wanted k v absent, m.iterators, fired⟩ := by
  intro it hit
  refine ⟨(h it hit).1.of_lt (Nat.lt_succ_self _), ?_⟩
  intro r hr
  obtain ⟨hkey, hlt⟩ := (h it hit).2 r hr
  refine ⟨?_, Nat.lt_succ_of_lt hlt⟩
  change it.lastKey = Function.update m.backingMap.key m.backingMap.allocated k r
  rw [Function.update_of_ne (Nat.ne_of_lt hlt)]
  exact hkey

omit [DecidableEq K] [EquivBEq V] in
theorem unchanged_beq {old new : Option V}
    (h : ¬(old.isNone && new.isSome || old.isSome && !(old == new)) = true) : (old == new) = true := by
  cases old with
  | none =>
    cases new with
    | none => rfl
    | some w => simp at h
  | some v => simpa using h

theorem put_inv (h : Inv initial m) (wanted : List Nat) (key : Option K) (value : Option V) :
    Inv initial (m.put wanted key value).2 := by
  unfold put HashMap.containsKey
  cases hnode : m.backingMap.getNode key with
  | some r =>
    obtain ⟨hr, hkey⟩ := HashMap.getNode_some hnode
    simp only [Option.isSome_some, if_true, HashMap.putVal_some hnode]
    split
    · rw [← hkey]
      exact ⟨h.mirrored.fire (describes_setValue hr value) m.iterators, h.iterators.setValue r value⟩
    · rename_i hsame
      refine ⟨h.mirrored.silent ?_ m.iterators, h.iterators.setValue r value⟩
      intro k
      rw [HashMap.lookup_setValue hr]
      split
      · rename_i hk
        rw [HashMap.lookup_eq hr hk.symm]
        change (m.backingMap.value r == value) = true
        exact unchanged_beq hsame
      · exact BEq.refl _
  | none =>
    simp only [Option.isSome_none, HashMap.putVal_none hnode]
    exact ⟨h.mirrored.fire (describes_link wanted value hnode) m.iterators, h.iterators.link wanted value hnode⟩

theorem remove_inv (h : Inv initial m) (key : Option K) : Inv initial (m.remove key).2 := by
  unfold remove HashMap.containsKey HashMap.remove
  cases hnode : m.backingMap.getNode key with
  | some r =>
    obtain ⟨hr, hkey⟩ := HashMap.getNode_some hnode
    rw [← hkey]
    exact ⟨h.mirrored.fire (describes_unlink hr (BEq.refl _)) m.iterators, h.iterators.unlink r⟩
  | none => exact h

theorem putAll_inv (entries : List (List Nat × Option K × Option V)) (h : Inv initial m) :
    Inv initial (m.putAll entries) := by
  induction entries generalizing m with
  | nil => exact h
  | cons entry rest ih => exact ih (put_inv h entry.1 entry.2.1 entry.2.2)

theorem removeNode_inv (h : Inv initial m) {r : Nat} (hr : r ∈ m.backingMap.table) :
    Inv initial (m.removeNode r) :=
  ⟨h.mirrored.fire (describes_unlink hr (BEq.refl _)) m.iterators, h.iterators.unlink r⟩

omit [DecidableEq K] [BEq V] [EquivBEq V] in
theorem remaining_linked {r : Nat} {rest : List Nat} (hnodup : (r :: rest).Nodup)
    (hlinked : ∀ s ∈ r :: rest, s ∈ m.backingMap.table) : ∀ s ∈ rest, s ∈ (m.removeNode r).backingMap.table := by
  intro s hs
  refine m.backingMap.table_nodup.mem_erase_iff.mpr ⟨?_, hlinked s (List.mem_cons_of_mem _ hs)⟩
  intro heq
  exact (List.nodup_cons.mp hnodup).1 (heq ▸ hs)

theorem clearFrom_inv {nodes : List Nat} (h : Inv initial m) (hnodup : nodes.Nodup)
    (hlinked : ∀ s ∈ nodes, s ∈ m.backingMap.table) : Inv initial (m.clearFrom nodes) := by
  induction nodes generalizing m with
  | nil => exact h
  | cons r rest ih =>
    exact ih (removeNode_inv h (hlinked r List.mem_cons_self)) (List.nodup_cons.mp hnodup).2
      (remaining_linked hnodup hlinked)

theorem removeRetainFrom_inv {α : Type} (item : HashMap K V → Nat → α) (c : Contains K V α) (remove removed : Bool)
    {nodes : List Nat} (h : Inv initial m) (hnodup : nodes.Nodup) (hlinked : ∀ s ∈ nodes, s ∈ m.backingMap.table) :
    Inv initial (removeRetainFrom item c remove nodes removed m).2 := by
  induction nodes generalizing m removed with
  | nil => exact h
  | cons r rest ih =>
    have hrest := (List.nodup_cons.mp hnodup).2
    unfold removeRetainFrom
    split
    · exact h
    · split
      · exact ih true (removeNode_inv h (hlinked r List.mem_cons_self)) hrest (remaining_linked hnodup hlinked)
      · exact ih removed h hrest (fun s hs => hlinked s (List.mem_cons_of_mem _ hs))

theorem removeRetain_inv {α : Type} (item : HashMap K V → Nat → α) (c : Contains K V α) (remove : Bool)
    (h : Inv initial m) : Inv initial (removeRetain item c remove m).2 :=
  removeRetainFrom_inv item c remove false h m.backingMap.table_nodup (fun _ hs => hs)

theorem valuesRemoveFrom_inv (o : Option V) {nodes : List Nat} (h : Inv initial m)
    (hlinked : ∀ s ∈ nodes, s ∈ m.backingMap.table) : Inv initial (valuesRemoveFrom o nodes m).2 := by
  induction nodes with
  | nil => exact h
  | cons r rest ih =>
    unfold valuesRemoveFrom
    split
    · exact h
    · split
      · exact removeNode_inv h (hlinked r List.mem_cons_self)
      · exact ih (fun s hs => hlinked s (List.mem_cons_of_mem _ hs))

theorem entrySetRemove_inv (h : Inv initial m) (key : Option K) (value : Option V) :
    Inv initial (m.entrySetRemove key value).2 := by
  unfold entrySetRemove HashMap.removeEntry
  cases hnode : m.backingMap.getNode key with
  | some r =>
    obtain ⟨hr, hkey⟩ := HashMap.getNode_some hnode
    by_cases hvalue : (m.backingMap.value r == value) = true
    · simp only [hvalue, if_true]
      rw [← hkey]
      exact ⟨h.mirrored.fire (describes_unlink hr (BEq.symm hvalue)) m.iterators, h.iterators.unlink r⟩
    · simp only [hvalue]
      exact h
  | none => exact h

theorem setValue_inv (h : Inv initial m) {r : Nat} (hr : r ∈ m.backingMap.table) (value : Option V) :
    Inv initial (m.setValue r value).2 :=
  ⟨h.mirrored.fire (describes_setValue hr value) m.iterators, h.iterators.setValue r value⟩

omit [DecidableEq K] [BEq V] [EquivBEq V] in
theorem iterator_valid (h : IteratorsValid m) : IteratorsValid m.iterator := by
  intro it hit
  rcases List.mem_append.mp hit with hold | hnew
  · exact h it hold
  · rw [List.mem_singleton.mp hnew]
    refine ⟨HashIterator.valid_create, ?_⟩
    intro r hr
    cases hr

omit [EquivBEq V] in
theorem iteratorNext_inv (h : Inv initial m) {i : Nat} {it : ViewIterator K V} (hit : it ∈ m.iterators) :
    Inv initial (m.iteratorNext i it).2 := by
  unfold iteratorNext
  cases hnext : it.entryIt.nextNode m.backingMap with
  | error e => exact h
  | ok result =>
    obtain ⟨r, entryIt⟩ := result
    obtain ⟨hr, hcurrent, hvalid⟩ := (h.iterators it hit).1.nextNode hnext
    refine ⟨⟨h.mirrored.equal, h.mirrored.reported⟩, ?_⟩
    intro other hother
    rcases List.mem_or_eq_of_mem_set hother with hold | rfl
    · exact h.iterators other hold
    · refine ⟨hvalid, ?_⟩
      intro s hs
      cases hcurrent.symm.trans hs
      exact ⟨rfl, m.backingMap.table_lt r hr⟩

/-- The value that a view's iterator has cached is still the value of the entry. -/
def CacheCurrent (it : ViewIterator K V) (m : HashMap K V) : Prop :=
  ∀ r ∈ it.entryIt.current, it.entryIt.expectedModCount = m.modCount → (it.lastValue == m.value r) = true

theorem iteratorRemove_inv (h : Inv initial m) {i : Nat} {it : ViewIterator K V} (hit : it ∈ m.iterators)
    (hcache : CacheCurrent it m.backingMap) : Inv initial (m.iteratorRemove i it).2 := by
  unfold iteratorRemove
  cases hremove : it.entryIt.remove m.backingMap with
  | error e => exact h
  | ok result =>
    obtain ⟨map, entryIt⟩ := result
    obtain ⟨r, hr, hcurrent, hcount, rfl, hnone, hvalid⟩ := (h.iterators it hit).1.remove hremove
    have hkey := ((h.iterators it hit).2 r hcurrent).1
    refine ⟨?_, ?_⟩
    · simp only
      rw [hkey]
      exact h.mirrored.fire (describes_unlink hr (hcache r hcurrent hcount)) _
    · intro other hother
      rcases List.mem_or_eq_of_mem_set hother with hold | rfl
      · exact @IteratorsValid.unlink K V m m.fired h.iterators r other hold
      · refine ⟨hvalid, ?_⟩
        intro s hs
        cases hnone.symm.trans hs

/-- The call neither removes an entry whose value was changed since the iterator
returned it, nor sets the value of an entry that was removed. -/
def UpToDate (call : Call K V) (m : ObservableMapWrapper K V) : Prop :=
  match call with
  | .iteratorRemove i => ∀ it ∈ m.iterators[i]?, CacheCurrent it m.backingMap
  | .setValue r _ => r < m.backingMap.allocated → r ∈ m.backingMap.table
  | _ => True

instance decidableUpToDate (call : Call K V) (m : ObservableMapWrapper K V) : Decidable (UpToDate call m) :=
  match call with
  | .iteratorRemove i => inferInstanceAs (Decidable (∀ it ∈ m.iterators[i]?,
      ∀ r ∈ it.entryIt.current, it.entryIt.expectedModCount = m.backingMap.modCount →
        (it.lastValue == m.backingMap.value r) = true))
  | .setValue r _ => inferInstanceAs (Decidable (r < m.backingMap.allocated → r ∈ m.backingMap.table))
  | .put _ _ _ | .remove _ | .putAll _ | .clear | .keySetRemove _ | .keySetRemoveRetain _ _ | .valuesRemove _
  | .valuesRemoveRetain _ _ | .entrySetRemove _ _ | .entrySetRemoveRetain _ _ | .add | .iterator | .next _ =>
      isTrue trivial

theorem step_inv (call : Call K V) (h : Inv initial m) (hcall : UpToDate call m) : Inv initial (step call m) := by
  cases call with
  | put wanted key value => exact put_inv h wanted key value
  | remove key => exact remove_inv h key
  | putAll entries => exact putAll_inv entries h
  | clear => exact clearFrom_inv h m.backingMap.table_nodup (fun _ hs => hs)
  | keySetRemove key => exact remove_inv h key
  | keySetRemoveRetain c remove => exact removeRetain_inv _ c remove h
  | valuesRemove o => exact valuesRemoveFrom_inv o h (fun _ hs => hs)
  | valuesRemoveRetain c remove => exact removeRetain_inv _ c remove h
  | entrySetRemove key value => exact entrySetRemove_inv h key value
  | entrySetRemoveRetain c remove => exact removeRetain_inv _ c remove h
  | add => exact h
  | iterator => exact ⟨⟨h.mirrored.equal, h.mirrored.reported⟩, iterator_valid h.iterators⟩
  | next i =>
    cases hit : m.iterators[i]? with
    | none =>
      simp only [step, hit]
      exact h
    | some it =>
      simp only [step, hit]
      exact iteratorNext_inv h (List.mem_of_getElem? hit)
  | iteratorRemove i =>
    cases hit : m.iterators[i]? with
    | none =>
      simp only [step, hit]
      exact h
    | some it =>
      simp only [step, hit]
      exact iteratorRemove_inv h (List.mem_of_getElem? hit) (hcall it hit)
  | setValue r value =>
    simp only [step]
    split
    · rename_i hlt
      exact setValue_inv h (hcall hlt) value
    · exact h

/-- After every call of such a run the mirror equals the map, and every value it
was told to be removed was its own. -/
theorem mirror_follows_map {map : HashMap K V} {calls : List (Call K V)}
    (hcalls : Guarded UpToDate step calls (wrap map)) : Mirrored map.lookup (exec step calls (wrap map)) := by
  have hstart : Inv map.lookup (wrap map) :=
    ⟨⟨fun _ => BEq.refl _, trivial⟩, fun it hit => by cases hit⟩
  exact (exec_invariant (fun call _ h hcall => step_inv call h hcall) hstart hcalls).mirrored

end Steps

/-- An iterator skips the first entry, whose value is then set, and removes the
second one; the loop of `retainAll` removes what is left. -/
def skipsAndRemoves : List (Call Nat Nat) :=
  [.putAll [([], some 1, some 10), ([1, 0], some 2, some 20), ([], none, some 30)], .iterator, .next 0,
    .setValue 2 (some 31), .next 0, .iteratorRemove 0, .put [] (some 1) (some 11),
    .valuesRemoveRetain (fun _ v => some (v == some 11)) false]

theorem mirror_follows_map_skipping :
    Guarded UpToDate step skipsAndRemoves (wrap .empty) ∧
    (exec step skipsAndRemoves (wrap .empty)).fired =
      [⟨some 1, none, some 10, true, false⟩, ⟨some 2, none, some 20, true, false⟩,
        ⟨none, none, some 30, true, false⟩, ⟨none, some 30, some 31, true, true⟩,
        ⟨some 2, some 20, none, false, true⟩, ⟨some 1, some 10, some 11, true, true⟩,
        ⟨none, some 31, none, false, true⟩] ∧
    Mirrored HashMap.empty.lookup (exec step skipsAndRemoves (wrap .empty)) := by
  have hcalls : Guarded UpToDate step skipsAndRemoves (wrap .empty) := by decide
  exact ⟨hcalls, by decide, mirror_follows_map hcalls⟩

/-- The value of the entry is replaced after the iterator has cached it. -/
def replacesBeforeRemove : List (Call Nat Nat) :=
  [.put [] (some 1) (some 10), .iterator, .next 0, .put [] (some 1) (some 11), .iteratorRemove 0]

/-- The value of an entry is set after the entry was removed. -/
def setsRemovedEntry : List (Call Nat Nat) := [.put [] (some 1) (some 10), .remove (some 1), .setValue 0 (some 12)]

/-- The removal reports 10 where the mirror holds 11; and the mirror is told of a
key that the map does not have. -/
theorem stale_entry_misreported :
    ¬Mirrored HashMap.empty.lookup (exec step replacesBeforeRemove (wrap .empty)) ∧
    ¬Mirrored HashMap.empty.lookup (exec step setsRemovedEntry (wrap .empty)) := by
  refine ⟨?_, ?_⟩
  · intro h
    have hfired : (exec step replacesBeforeRemove (wrap .empty)).fired =
        [⟨some 1, none, some 10, true, false⟩, ⟨some 1, some 10, some 11, true, true⟩,
          ⟨some 1, some 10, none, false, true⟩] := by decide
    have hreported := h.reported
    rw [hfired] at hreported
    obtain ⟨v, hv, hold⟩ := hreported.2.2.1 rfl
    have hmirror : v = some 11 := by simpa [MapChange.apply] using hv.symm
    rw [hmirror] at hold
    cases hold
  · intro h
    exact absurd (h.equal (some 1)) (by decide)

end ObservableMapWrapper
end OpenJfx.Collections
