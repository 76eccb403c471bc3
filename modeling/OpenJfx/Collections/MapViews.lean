import OpenJfx.Collections.ObservableMapWrapper

/-! # The views of `ObservableMapWrapper` as collections

What `Set` and `Collection` ask of `remove` and `toArray`, for maps in which a key may have
the value null. -/
set_option autoImplicit false
namespace OpenJfx.Collections
namespace ObservableMapWrapper
variable {K V : Type}

/-! ## `entrySet().toArray(a)` -/

/-- What a slot of an array of entries refers to: nothing, a node of the backing map, an
`ObservableEntry` with its backing entry, another entry, or an object that is no entry. -/
inductive Reference where
  | null
  | node (r : Nat)
  | observableEntry (backingEntry : Reference)
  | entry (id : Nat)
  | object (id : Nat)
deriving DecidableEq, Repr

/-- `toArray(a)` of the entry set of the backing map: a longer array gets a null behind the
entries and keeps the rest. -/
def backingToArray (map : HashMap K V) (a : List Reference) : List Reference :=
  if a.length ≤ map.table.length then map.table.map Reference.node
  else map.table.map Reference.node ++ Reference.null :: a.drop (map.table.length + 1)

/-- `new ObservableEntry((Entry<K, V>) o)`; `none` when the cast throws. -/
def wrapEntry : Reference → Option Reference
  | .object _ => none
  | backingEntry => some (.observableEntry backingEntry)

/-- `entrySet().toArray(a)`; `none` when the cast of an element throws. -/
def entrySetToArray (a : List Reference) (m : ObservableMapWrapper K V) : Option (List Reference) :=
  (backingToArray m.backingMap a).mapM wrapEntry

/-- One live entry for each mapping, and behind them, when there is a slot, a null. -/
def EntriesStored (a : List Reference) (m : ObservableMapWrapper K V) (out : Option (List Reference)) : Prop :=
  ∃ array : List Reference, out = some array ∧ array.length = max a.length m.backingMap.table.length ∧
    (∀ (i r : Nat), m.backingMap.table[i]? = some r → array[i]? = some (.observableEntry (.node r))) ∧
    (m.backingMap.table.length < a.length → array[m.backingMap.table.length]? = some .null)

theorem mapM_wrapEntry_nodes (nodes : List Nat) (rest : List Reference) :
    ((nodes.map Reference.node) ++ rest).mapM wrapEntry
      = (rest.mapM wrapEntry).map fun array => nodes.map (fun r => .observableEntry (.node r)) ++ array := by
  induction nodes with
  | nil => cases hrest : rest.mapM wrapEntry <;> simp [hrest]
  | cons r nodes ih =>
    rw [List.map_cons, List.cons_append, List.mapM_cons, ih]
    cases rest.mapM wrapEntry with
    | none => rfl
    | some array => rfl

theorem entrySetToArray_stores_iff (a : List Reference) (m : ObservableMapWrapper K V) :
    EntriesStored a m (m.entrySetToArray a) ↔ a.length ≤ m.backingMap.table.length := by
  constructor
  · intro hstored
    by_contra hlong
    obtain ⟨array, harray, -, -, hnull⟩ := hstored
    rw [entrySetToArray, backingToArray, if_neg hlong, mapM_wrapEntry_nodes, List.mapM_cons] at harray
    cases hrest : (a.drop (m.backingMap.table.length + 1)).mapM wrapEntry with
    | none =>
      rw [hrest] at harray
      cases harray
    | some rest =>
      rw [hrest] at harray
      cases harray
      have hslot := hnull (Nat.lt_of_not_le hlong)
      dsimp only at hslot
      rw [List.getElem?_append_right (Nat.le_of_eq (List.length_map _)), List.length_map, Nat.sub_self] at hslot
      cases hslot
  · intro hfits
    have harray := mapM_wrapEntry_nodes m.backingMap.table []
    rw [List.append_nil] at harray
    refine ⟨m.backingMap.table.map fun r => .observableEntry (.node r), ?_, ?_, ?_, ?_⟩
    · rw [entrySetToArray, backingToArray, if_pos hfits, harray, List.mapM_nil]
      simp
    · rw [List.length_map, Nat.max_eq_right hfits]
    · intro i r hr
      rw [List.getElem?_map, hr, Option.map_some]
    · intro hlong
      exact absurd hfits (Nat.not_le.mpr hlong)

/-! ## `remove` of the key set -/

section Remove
variable [DecidableEq K]

theorem keySetRemove_returns_iff [BEq V] (k : Option K) (m : ObservableMapWrapper K V) :
    (m.keySetRemove k).1 = m.backingMap.containsKey k ↔ m.backingMap.lookup k ≠ some none := by
  rw [keySetRemove, remove, HashMap.containsKey, HashMap.lookup, HashMap.remove]
  cases m.backingMap.getNode k with
  | none => simp
  | some r =>
    cases hr : m.backingMap.value r with
    | none => simp [hr]
    | some v => simp [hr]

/-! ## `remove` of the values -/

variable [BEq V]

/-- `remove(o)` removes the entry of one of the nodes whose value equals `o`, and returns
whether there was one. -/
def ValueRemoved (o : Option V) (nodes : List Nat) (m : ObservableMapWrapper K V)
    (out : Except Fault Bool × ObservableMapWrapper K V) : Prop :=
  (∃ r ∈ nodes, (m.backingMap.value r == o) = true ∧ out = (.ok true, m.removeNode r)) ∨
    ((∀ r ∈ nodes, (m.backingMap.value r == o) = false) ∧ out = (.ok false, m))

/-- In front of every node with the value null there is one with a value that is not null and
equals `o`. -/
def MatchesBeforeNull (o : Option V) (nodes : List Nat) (m : ObservableMapWrapper K V) : Prop :=
  ∀ (front back : List Nat) (r : Nat), nodes = front ++ r :: back → m.backingMap.value r = none →
    ∃ s ∈ front, ∃ v : V, m.backingMap.value s = some v ∧ (some v == o) = true

omit [DecidableEq K] in
theorem valuesRemoveFrom_iff (o : Option V) (nodes : List Nat) (m : ObservableMapWrapper K V) :
    ValueRemoved o nodes m (valuesRemoveFrom o nodes m) ↔ MatchesBeforeNull o nodes m := by
  induction nodes with
  | nil =>
    refine ⟨fun _ front back r hnodes => ?_, fun _ => Or.inr ⟨fun r hr => absurd hr List.not_mem_nil, rfl⟩⟩
    cases front with
    | nil => cases hnodes
    | cons _ _ => cases hnodes
  | cons r rest ih =>
    rw [valuesRemoveFrom]
    cases hvalue : m.backingMap.value r with
    | none =>
      -- the value is asked whether it equals `o`
      constructor
      · rintro (⟨s, -, -, hout⟩ | ⟨-, hout⟩)
        · cases hout
        · cases hout
      · intro hmatches
        obtain ⟨s, hs, -⟩ := hmatches [] rest r rfl hvalue
        exact absurd hs List.not_mem_nil
    | some v =>
      by_cases hequal : (some v == o) = true
      · dsimp only
        rw [if_pos hequal]
        refine ⟨fun _ front back s hnodes hs => ?_, fun _ => Or.inl ⟨r, List.mem_cons_self, by rw [hvalue, hequal], rfl⟩⟩
        cases front with
        | nil =>
          obtain ⟨rfl, -⟩ := List.cons.inj hnodes
          rw [hvalue] at hs
          cases hs
        | cons t front =>
          obtain ⟨rfl, -⟩ := List.cons.inj hnodes
          exact ⟨r, List.mem_cons_self, v, hvalue, hequal⟩
      · dsimp only
        rw [if_neg hequal]
        have hno : (m.backingMap.value r == o) = false := by
          rw [hvalue]
          exact (Bool.not_eq_true _).mp hequal
        have hremoved : ∀ out, ValueRemoved o (r :: rest) m out ↔ ValueRemoved o rest m out := by
          intro out
          constructor
          · rintro (⟨s, hs, hsequal, hout⟩ | ⟨hnone, hout⟩)
            · rcases List.mem_cons.mp hs with rfl | hs
              · rw [hno] at hsequal
                cases hsequal
              · exact Or.inl ⟨s, hs, hsequal, hout⟩
            · exact Or.inr ⟨fun s hs => hnone s (List.mem_cons_of_mem _ hs), hout⟩
          · rintro (⟨s, hs, hsequal, hout⟩ | ⟨hnone, hout⟩)
            · exact Or.inl ⟨s, List.mem_cons_of_mem _ hs, hsequal, hout⟩
            · exact Or.inr ⟨List.forall_mem_cons.mpr ⟨hno, hnone⟩, hout⟩
        rw [hremoved, ih]
        constructor
        · intro hmatches front back s hnodes hs
          cases front with
          | nil =>
            obtain ⟨rfl, -⟩ := List.cons.inj hnodes
            rw [hvalue] at hs
            cases hs
          | cons t front =>
            obtain ⟨t', ht', hrest⟩ := hmatches front back s (List.cons.inj hnodes).2 hs
            exact ⟨t', List.mem_cons_of_mem _ ht', hrest⟩
        · intro hmatches front back s hnodes hs
          obtain ⟨t, ht, w, hw, hwequal⟩ := hmatches (r :: front) back s (by rw [hnodes, List.cons_append]) hs
          rcases List.mem_cons.mp ht with rfl | ht
          · rw [hvalue] at hw
            cases hw
            exact absurd hwequal hequal
          · exact ⟨t, ht, w, hw, hwequal⟩

/-! ## The three views -/

/-- Each view keeps its contract exactly when the null in question does not come up. -/
theorem views_contracts_iff (k : Option K) (o : Option V) (a : List Reference) (m : ObservableMapWrapper K V) :
    ((m.keySetRemove k).1 = m.backingMap.containsKey k ↔ m.backingMap.lookup k ≠ some none) ∧
      (ValueRemoved o m.backingMap.table m (m.valuesRemove o) ↔ MatchesBeforeNull o m.backingMap.table m) ∧
      (EntriesStored a m (m.entrySetToArray a) ↔ a.length ≤ m.backingMap.table.length) :=
  ⟨keySetRemove_returns_iff k m, valuesRemoveFrom_iff o m.backingMap.table m, entrySetToArray_stores_iff a m⟩

end Remove

def nullValued : ObservableMapWrapper Nat Nat := ((wrap HashMap.empty).put [] (some 1) none).2

/-- On it no view keeps its contract. -/
theorem nullValued_contracts_fail :
    (nullValued.keySetRemove (some 1)).1 ≠ nullValued.backingMap.containsKey (some 1) ∧
      ¬ ValueRemoved none nullValued.backingMap.table nullValued (nullValued.valuesRemove none) ∧
      ¬ EntriesStored [.null, .null] nullValued (nullValued.entrySetToArray [.null, .null]) := by
  refine ⟨by decide, ?_, ?_⟩
  · rw [valuesRemove, valuesRemoveFrom_iff]
    intro hmatches
    obtain ⟨s, hs, -⟩ := hmatches [] [] 0 rfl rfl
    exact absurd hs List.not_mem_nil
  · rw [entrySetToArray_stores_iff]
    decide

end ObservableMapWrapper
end OpenJfx.Collections
