import OpenJfx.Css.BitSetAlgebra
import OpenJfx.Lib.Run

/-! # `BitSet`: equality, hashing and containment

`equals`, `hashCode` and `containsAll` compare arrays with their lengths, so they
agree with the members for arrays that have no zero word at the end.  The machine
makes mutations of any number of sets of one class; the guard says which of them
leave such a word. -/
set_option autoImplicit false
namespace OpenJfx.Css
open OpenJfx.Lib OpenJfx.Lib.WordSet

namespace BitSet

theorem containsAll_some (a b : List Long) :
    containsAll (some b) a = true ↔ b.length ≤ a.length ∧ ∀ i, has b i = true → has a i = true := by
  rw [containsAll]
  split
  · rename_i hempty
    refine ⟨fun _ => ⟨by omega, fun i hi => ?_⟩, fun _ => rfl⟩
    have := lt_of_has hi
    omega
  · split
    · rename_i hlt
      exact ⟨fun h => (nomatch h), fun h => absurd h.1 (by omega)⟩
    · rename_i hle
      rw [List.all_eq_true]
      constructor
      · intro hall
        refine ⟨by omega, fun i hi => ?_⟩
        have hword := of_decide_eq_true (hall (i / 64) (List.mem_range.mpr (lt_of_has hi)))
        have hbit := getLsbD_mod hword i
        rw [BitVec.getLsbD_and] at hbit
        change (has a i && has b i) = has b i at hbit
        rw [hi, Bool.and_true] at hbit
        exact hbit
      · rintro ⟨-, hall⟩ n -
        apply decide_eq_true
        apply BitVec.eq_of_getLsbD_eq
        intro k hk
        rw [BitVec.getLsbD_and, ← has_word hk, ← has_word hk]
        cases hb : has b (n * 64 + k) with
        | false => rw [Bool.and_false]
        | true => rw [hall _ hb, Bool.and_true]

theorem equals_self (a : List Long) : equals a a = true := by
  rw [equals, if_neg (fun h => h rfl), List.all_eq_true]
  intro m _
  exact decide_eq_true rfl

theorem equals_iff (a b : List Long) : equals b a = true ↔ a = b := by
  constructor
  · intro h
    rw [equals] at h
    split at h
    · cases h
    · rename_i hlength
      rw [List.all_eq_true] at h
      apply List.ext_getElem (not_not.mp hlength)
      intro m hm hm'
      rw [← word_of_lt hm, ← word_of_lt hm']
      exact of_decide_eq_true (h m (List.mem_range.mpr hm))
  · rintro rfl
    exact equals_self a

/-! ## Which mutations leave a zero word at the end -/

theorem trimmed_emptied {bits : List Long}
    (h : (∀ j, has bits j = false) ∨ ∃ j, has bits j = true ∧ bits.length ≤ j / 64 + 1) :
    Trimmed (if bits.all (· = 0#64) then [] else bits) := by
  split
  · exact trimmed_nil
  · rename_i hsome
    rcases h with hnone | ⟨j, hj, hlast⟩
    · exact absurd (all_zero_iff.mpr hnone) hsome
    · exact trimmed_of_has hj hlast

theorem length_add (r : Registry) (hasListeners : Bool) (t : String) (bits : List Long) :
    (add r hasListeners (some t) bits).bits.length = max bits.length (r.getIndex t / 64 + 1) := by
  change ((grown (r.getIndex t) bits).set _ _).length = _
  rw [List.length_set, grown]
  split
  · rw [List.length_append, List.length_replicate]
    omega
  · omega

theorem trimmed_add (r : Registry) (hasListeners : Bool) (t : String) {bits : List Long} (h : Trimmed bits) :
    Trimmed (add r hasListeners (some t) bits).bits := by
  have hlength := length_add r hasListeners t bits
  by_cases hlong : bits.length ≤ r.getIndex t / 64 + 1
  · have hhas : has (add r hasListeners (some t) bits).bits (r.getIndex t) = true := by
      rw [has_add]
      simp
    exact trimmed_of_has hhas (by omega)
  · obtain ⟨i, hi, hlast⟩ := h.exists_last (by omega)
    have hhas : has (add r hasListeners (some t) bits).bits i = true := by
      rw [has_add, hi, Bool.true_or]
    exact trimmed_of_has hhas (by omega)

theorem longer_eq_max (m n : Nat) : (if m < n then n else m) = max m n := by
  split
  · omega
  · omega

theorem shorter_eq_min (m n : Nat) : (if m < n then m else n) = min m n := by
  split
  · omega
  · omega

theorem length_addAll_le (r : Registry) (hasListeners : Bool) (a b : List Long) :
    (addAll r hasListeners (some b) a).bits.length ≤ max a.length b.length := by
  have hbits : ∃ f, (addAll r hasListeners (some b) a).bits =
      if (addAll r hasListeners (some b) a).modified then
        tabulate (if a.length < b.length then b.length else a.length) f else a := ⟨_, rfl⟩
  obtain ⟨f, hf⟩ := hbits
  rw [hf]
  split
  · exact Nat.le_of_eq (by rw [length_tabulate, longer_eq_max])
  · omega

theorem trimmed_addAll (r : Registry) (hasListeners : Bool) {a b : List Long} (ha : Trimmed a) (hb : Trimmed b) :
    Trimmed (addAll r hasListeners (some b) a).bits := by
  have hlength := length_addAll_le r hasListeners a b
  by_cases hzero : (addAll r hasListeners (some b) a).bits.length = 0
  · exact trimmed_iff.mpr (Or.inl hzero)
  · by_cases hlt : a.length < b.length
    · obtain ⟨i, hi, hlast⟩ := hb.exists_last (by omega)
      have hhas : has (addAll r hasListeners (some b) a).bits i = true := by
        rw [has_addAll, hi, Bool.or_true]
      exact trimmed_of_has hhas (by omega)
    · obtain ⟨i, hi, hlast⟩ := ha.exists_last (by omega)
      have hhas : has (addAll r hasListeners (some b) a).bits i = true := by
        rw [has_addAll, hi, Bool.true_or]
      exact trimmed_of_has hhas (by omega)

/-- Nothing is left, or something in word `top`. -/
def TopKept (left : Nat → Prop) (top : Nat) : Prop := (∀ j, ¬left j) ∨ ∃ j, left j ∧ j / 64 = top

theorem trimmed_emptied_of_topKept {bits : List Long} {left : Nat → Prop} {top : Nat}
    (h : TopKept left top) (hleft : ∀ j, has bits j = true ↔ left j) (hlength : bits.length ≤ top + 1) :
    Trimmed (if bits.all (· = 0#64) then [] else bits) := by
  apply trimmed_emptied
  rcases h with hnone | ⟨j, hj, htop⟩
  · refine Or.inl (fun j => ?_)
    by_contra hhas
    exact hnone j ((hleft j).mp (by simpa using hhas))
  · exact Or.inr ⟨j, (hleft j).mpr hj, by omega⟩

theorem trimmed_remove (r : Registry) (hasListeners : Bool) (t : String) {bits : List Long} (h : Trimmed bits)
    (hkept : has bits (r.getIndex t) = true →
      TopKept (fun j => has bits j = true ∧ j ≠ r.getIndex t) (bits.length - 1)) :
    Trimmed (remove r hasListeners (some t) bits).bits := by
  have hmod := remove_modified r hasListeners t bits
  rw [remove] at hmod ⊢
  dsimp only at hmod ⊢
  split at hmod
  · rw [if_pos (by assumption)]
    exact h
  · rename_i hshort
    rw [if_neg hshort]
    have hlt : r.getIndex t / 64 < bits.length := by omega
    split at hmod
    · rename_i hne
      rw [if_pos hne]
      dsimp only
      apply trimmed_emptied_of_topKept (hkept hmod.symm)
      · intro j
        rw [has_cleared hlt, Bool.and_eq_true, decide_eq_true_eq]
      · rw [List.length_set]
        omega
    · rename_i hsame
      rw [if_neg hsame]
      rw [Ne, not_not] at hsame
      dsimp only
      rw [hsame, word_of_lt hlt, List.set_getElem_self]
      exact h

theorem trimmed_retainAll (r : Registry) (hasListeners : Bool) {a b : List Long} (ha : Trimmed a)
    (hkept : TopKept (fun j => has a j = true ∧ has b j = true) (min a.length b.length - 1)) :
    Trimmed (retainAll r hasListeners (some b) a).bits := by
  have hhas := has_retainAll r hasListeners a b
  have hbits : ∃ f, (retainAll r hasListeners (some b) a).bits =
      if (retainAll r hasListeners (some b) a).modified then
        (if (tabulate (if a.length < b.length then a.length else b.length) f).all (· = 0#64) then []
          else tabulate (if a.length < b.length then a.length else b.length) f) else a := ⟨_, rfl⟩
  obtain ⟨f, hf⟩ := hbits
  rw [shorter_eq_min] at hf
  rw [hf] at hhas ⊢
  by_cases hmod : (retainAll r hasListeners (some b) a).modified = true
  · rw [if_pos hmod] at hhas ⊢
    apply trimmed_emptied_of_topKept hkept
    · intro j
      rw [← has_emptied, hhas, Bool.and_eq_true]
    · rw [length_tabulate]
      omega
  · rw [if_neg hmod]
    exact ha

theorem trimmed_removeAll (r : Registry) (hasListeners : Bool) {a b : List Long} (ha : Trimmed a)
    (hkept : (∃ i, has a i = true ∧ has b i = true) →
      TopKept (fun j => has a j = true ∧ has b j = false ∧ j / 64 < b.length) (min a.length b.length - 1)) :
    Trimmed (removeAll r hasListeners (some b) a).bits := by
  have hhas := has_removeAll r hasListeners a b
  have hbits : ∃ f, (removeAll r hasListeners (some b) a).bits =
      if (removeAll r hasListeners (some b) a).modified then
        (if (tabulate (if a.length < b.length then a.length else b.length) f).all (· = 0#64) then []
          else tabulate (if a.length < b.length then a.length else b.length) f) else a := ⟨_, rfl⟩
  obtain ⟨f, hf⟩ := hbits
  rw [shorter_eq_min] at hf
  rw [hf] at hhas ⊢
  by_cases hmod : (removeAll r hasListeners (some b) a).modified = true
  · have hcommon := (removeAll_modified r hasListeners a b).mp hmod
    rw [if_pos hmod] at hhas ⊢
    apply trimmed_emptied_of_topKept (hkept hcommon)
    · intro j
      rw [← has_emptied, hhas]
      obtain ⟨i, hai, hbi⟩ := hcommon
      constructor
      · rintro ⟨h1, h2, h3⟩
        refine ⟨h1, h2, h3.resolve_left (fun hall => ?_)⟩
        rw [hall i hai] at hbi
        cases hbi
      · rintro ⟨h1, h2, h3⟩
        exact ⟨h1, h2, Or.inr h3⟩
    · rw [length_tabulate]
      omega
  · rw [if_neg hmod]
    exact ha

end BitSet

/-! ## Any number of sets of one class -/

structure BitSets where
  registry : Registry
  sets : List (List Long)

/-- The calls that intern a name, that create a set, and that change set `k`; the collection of a bulk operation is another set, or
null or a collection of another class. -/
inductive SetStep where
  | register (t : String)
  | create
  | add (k : Nat) (t : Option String)
  | remove (k : Nat) (o : Option String)
  | addAll (k : Nat) (c : Option Nat)
  | retainAll (k : Nat) (c : Option Nat)
  | removeAll (k : Nat) (c : Option Nat)
  | clear (k : Nat)
deriving DecidableEq, Repr

namespace BitSets

def start : BitSets := ⟨Registry.empty, []⟩

def asked (s : BitSets) : Option String → Registry
  | some t => s.registry.register t
  | none => s.registry

def collection (s : BitSets) (c : Option Nat) : Option (List Long) := c.bind (fun j => s.sets[j]?)

def mutate (s : BitSets) (k : Nat) (r : Registry) (f : List Long → Mutation) : BitSets :=
  match s.sets[k]? with
  | none => s
  | some bits => ⟨r, s.sets.set k (f bits).bits⟩

def step (a : SetStep) (s : BitSets) : BitSets :=
  match a with
  | .register t => { s with registry := s.registry.register t }
  | .create => { s with sets := s.sets ++ [[]] }
  | .add k t => s.mutate k (s.asked t) (BitSet.add s.registry false t)
  | .remove k o => s.mutate k (s.asked o) (BitSet.remove s.registry false o)
  | .addAll k c => s.mutate k s.registry (BitSet.addAll s.registry false (s.collection c))
  | .retainAll k c => s.mutate k s.registry (BitSet.retainAll s.registry false (s.collection c))
  | .removeAll k c => s.mutate k s.registry (BitSet.removeAll s.registry false (s.collection c))
  | .clear k => s.mutate k s.registry (BitSet.clear s.registry false)

/-- The members that are left, if any, reach into the last word of the array that
is left. -/
def KeepsTop (a : SetStep) (s : BitSets) : Prop :=
  match a with
  | .remove k (some t) => ∀ bits, s.sets[k]? = some bits → has bits (s.registry.getIndex t) = true →
      BitSet.TopKept (fun j => has bits j = true ∧ j ≠ s.registry.getIndex t) (bits.length - 1)
  | .retainAll k c => ∀ a b, s.sets[k]? = some a → s.collection c = some b →
      BitSet.TopKept (fun j => has a j = true ∧ has b j = true) (min a.length b.length - 1)
  | .removeAll k c => ∀ a b, s.sets[k]? = some a → s.collection c = some b →
      (∃ i, has a i = true ∧ has b i = true) →
      BitSet.TopKept (fun j => has a j = true ∧ has b j = false ∧ j / 64 < b.length)
        (min a.length b.length - 1)
  | _ => True

structure Sound (s : BitSets) : Prop where
  registered : ∀ bits ∈ s.sets, Registered s.registry bits
  trimmed : ∀ bits ∈ s.sets, Trimmed bits

theorem mem_of_collection {s : BitSets} {c : Option Nat} {b : List Long} (h : s.collection c = some b) :
    b ∈ s.sets := by
  obtain ⟨j, -, hj⟩ := Option.bind_eq_some_iff.mp h
  exact List.mem_of_getElem? hj

theorem Sound.mutate {s : BitSets} (h : Sound s) {k : Nat} {r : Registry} {f : List Long → Mutation}
    (hlength : s.registry.names.length ≤ r.names.length)
    (hregistered : ∀ bits ∈ s.sets, Registered r (f bits).bits)
    (htrimmed : ∀ bits, s.sets[k]? = some bits → Trimmed (f bits).bits) : Sound (s.mutate k r f) := by
  rw [BitSets.mutate]
  cases hk : s.sets[k]? with
  | none => exact h
  | some bits =>
    have hmem := List.mem_of_getElem? hk
    constructor
    · intro x hx i hi
      rcases List.mem_or_eq_of_mem_set hx with hx | rfl
      · exact Nat.lt_of_lt_of_le (h.registered x hx i hi) hlength
      · exact hregistered bits hmem i hi
    · intro x hx
      rcases List.mem_or_eq_of_mem_set hx with hx | rfl
      · exact h.trimmed x hx
      · exact htrimmed bits hk

theorem Sound.clear {s : BitSets} (h : Sound s) (k : Nat) :
    Sound (s.mutate k s.registry (BitSet.clear s.registry false)) := by
  apply h.mutate (Nat.le_refl _)
  · intro bits _ i hi
    change has [] i = true at hi
    rw [has_nil] at hi
    cases hi
  · exact fun _ _ => trimmed_nil

theorem Sound.step {s : BitSets} (h : Sound s) (a : SetStep) (hkeeps : KeepsTop a s) : Sound (step a s) := by
  cases a with
  | register t =>
    refine ⟨fun bits hbits i hi => ?_, h.trimmed⟩
    exact Nat.lt_of_lt_of_le (h.registered bits hbits i hi) (Registry.length_le_register _ t)
  | create =>
    constructor
    · intro x hx i hi
      rcases List.mem_append.mp hx with hx | hx
      · exact h.registered x hx i hi
      · rw [List.mem_singleton.mp hx, has_nil] at hi
        cases hi
    · intro x hx
      rcases List.mem_append.mp hx with hx | hx
      · exact h.trimmed x hx
      · rw [List.mem_singleton.mp hx]
        exact trimmed_nil
  | add k t =>
    cases t with
    | none => exact h.mutate (Nat.le_refl _) h.registered (fun b hb => h.trimmed b (List.mem_of_getElem? hb))
    | some t =>
      apply h.mutate (Registry.length_le_register _ t)
      · intro bits hbits i hi
        rw [BitSet.has_add, Bool.or_eq_true, decide_eq_true_eq] at hi
        rcases hi with hi | rfl
        · exact Nat.lt_of_lt_of_le (h.registered bits hbits i hi) (Registry.length_le_register _ t)
        · rw [← Registry.getIndex_register t (Or.inr rfl)]
          exact List.idxOf_lt_length_of_mem (Registry.mem_register _ t)
      · intro bits hbits
        exact BitSet.trimmed_add _ _ t (h.trimmed bits (List.mem_of_getElem? hbits))
  | remove k o =>
    cases o with
    | none => exact h.mutate (Nat.le_refl _) h.registered (fun b hb => h.trimmed b (List.mem_of_getElem? hb))
    | some t =>
      apply h.mutate (Registry.length_le_register _ t)
      · intro bits hbits i hi
        rw [BitSet.has_remove, Bool.and_eq_true] at hi
        exact Nat.lt_of_lt_of_le (h.registered bits hbits i hi.1) (Registry.length_le_register _ t)
      · intro bits hbits
        exact BitSet.trimmed_remove _ _ t (h.trimmed bits (List.mem_of_getElem? hbits)) (hkeeps bits hbits)
  | addAll k c =>
    rw [BitSets.step]
    cases hc : s.collection c with
    | none => exact h.mutate (Nat.le_refl _) h.registered (fun b hb => h.trimmed b (List.mem_of_getElem? hb))
    | some b =>
      have hb := mem_of_collection hc
      apply h.mutate (Nat.le_refl _)
      · intro bits hbits i hi
        rw [BitSet.has_addAll, Bool.or_eq_true] at hi
        exact hi.elim (h.registered bits hbits i) (h.registered b hb i)
      · intro bits hbits
        exact BitSet.trimmed_addAll _ _ (h.trimmed bits (List.mem_of_getElem? hbits)) (h.trimmed b hb)
  | retainAll k c =>
    rw [BitSets.step]
    cases hc : s.collection c with
    | none => exact h.clear k
    | some b =>
      apply h.mutate (Nat.le_refl _)
      · intro bits hbits i hi
        rw [BitSet.has_retainAll, Bool.and_eq_true] at hi
        exact h.registered bits hbits i hi.1
      · intro bits hbits
        exact BitSet.trimmed_retainAll _ _ (h.trimmed bits (List.mem_of_getElem? hbits))
          (hkeeps bits b hbits hc)
  | removeAll k c =>
    rw [BitSets.step]
    cases hc : s.collection c with
    | none => exact h.mutate (Nat.le_refl _) h.registered (fun b hb => h.trimmed b (List.mem_of_getElem? hb))
    | some b =>
      apply h.mutate (Nat.le_refl _)
      · intro bits hbits i hi
        rw [BitSet.has_removeAll] at hi
        exact h.registered bits hbits i hi.1
      · intro bits hbits
        exact BitSet.trimmed_removeAll _ _ (h.trimmed bits (List.mem_of_getElem? hbits))
          (hkeeps bits b hbits hc)
  | clear k => exact h.clear k

theorem sound_start : Sound start := ⟨(fun _ h => nomatch h), (fun _ h => nomatch h)⟩

/-- In every run whose mutations leave no zero word at the end of an array, sets
with the same members are equal, have the same hash code and contain each other,
and `containsAll` is inclusion. -/
theorem equality_is_extensional (steps : List SetStep) (keeps : Guarded KeepsTop step steps start) :
    let s := exec step steps start
    ∀ a ∈ s.sets, ∀ b ∈ s.sets,
      ((∀ y, BitSet.contains s.registry (some y) a = BitSet.contains s.registry (some y) b) →
        BitSet.equals b a = true ∧ BitSet.hashCode a = BitSet.hashCode b ∧
          BitSet.containsAll (some b) a = true ∧ BitSet.containsAll (some a) b = true) ∧
      (BitSet.containsAll (some b) a = true ↔
        ∀ y, BitSet.contains s.registry (some y) b = true → BitSet.contains s.registry (some y) a = true) := by
  intro s a ha b hb
  have hsound : Sound s := exec_invariant (fun a s h hk => h.step a hk) sound_start keeps
  have hinclusion : ∀ x ∈ s.sets, ∀ y ∈ s.sets, (∀ i, has y i = true → has x i = true) ↔
      ∀ t, BitSet.contains s.registry (some t) y = true → BitSet.contains s.registry (some t) x = true := by
    intro x _ y hy
    rw [BitSet.forall_has_iff (hsound.registered y hy)]
    simp only [BitSet.contains_some]
  have hcontainsAll : BitSet.containsAll (some b) a = true ↔
      ∀ y, BitSet.contains s.registry (some y) b = true → BitSet.contains s.registry (some y) a = true := by
    rw [BitSet.containsAll_some, ← hinclusion a ha b hb]
    exact ⟨fun h => h.2, fun h => ⟨(hsound.trimmed b hb).length_le h, h⟩⟩
  refine ⟨fun hsame => ?_, hcontainsAll⟩
  have hab := (hinclusion a ha b hb).mpr (fun t ht => by rw [hsame t]; exact ht)
  have hba := (hinclusion b hb a ha).mpr (fun t ht => by rw [← hsame t]; exact ht)
  have heq : a = b := by
    apply (hsound.trimmed a ha).ext (hsound.trimmed b hb)
    intro i
    rw [Bool.eq_iff_iff]
    exact ⟨hba i, hab i⟩
  subst heq
  exact ⟨BitSet.equals_self a, rfl, (BitSet.containsAll_some a a).mpr ⟨Nat.le_refl _, fun _ h => h⟩,
    (BitSet.containsAll_some a a).mpr ⟨Nat.le_refl _, fun _ h => h⟩⟩

theorem equality_is_extensional_after_remove :
    let steps : List SetStep := [.create, .create, .add 0 (some "hover"), .add 0 (some "focused"),
      .remove 0 (some "hover"), .add 1 (some "focused")]
    Guarded KeepsTop step steps start ∧ (exec step steps start).sets = [[2#64], [2#64]] ∧
      BitSet.equals [2#64] [2#64] = true := by
  intro steps
  have hguarded : Guarded KeepsTop step steps start := by
    refine ⟨trivial, trivial, trivial, trivial, ?_, trivial, trivial⟩
    intro bits hbits _
    have hthree : bits = [3#64] := (Option.some.inj hbits).symm
    subst hthree
    exact Or.inr ⟨1, by decide, by decide⟩
  have hsets : (exec step steps start).sets = [[2#64], [2#64]] := by decide
  have hmem : [2#64] ∈ (exec step steps start).sets := by
    rw [hsets]
    exact List.mem_cons_self ..
  exact ⟨hguarded, hsets, ((equality_is_extensional steps hguarded _ hmem _ hmem).1 (fun _ => rfl)).1⟩

/-! ## A set that keeps a zero word -/

theorem exec_register (n : Nat) :
    (exec step ((Registry.numbered n).names.map .register) start).sets = [] ∧
      (exec step ((Registry.numbered n).names.map .register) start).registry.names =
        (Registry.numbered n).names := by
  induction n with
  | zero => exact ⟨rfl, rfl⟩
  | succ n ih =>
    have hnames : (Registry.numbered (n + 1)).names =
        (Registry.numbered n).names ++ [String.ofList (List.replicate n 'a')] := by
      simp [Registry.numbered, List.range_succ]
    have hnodup := (Registry.numbered (n + 1)).nodup
    rw [hnames] at hnodup
    have hnew : String.ofList (List.replicate n 'a') ∉ (Registry.numbered n).names :=
      fun hmem => (List.nodup_append.mp hnodup).2.2 _ hmem _ (List.mem_singleton_self _) rfl
    rw [hnames, List.map_append, exec_append]
    refine ⟨ih.1, ?_⟩
    change (Registry.register _ _).names = _
    rw [Registry.register_names, ih.2, if_neg hnew]

/-- The element 64 is added to a set that has the element 0, and removed again. -/
theorem removed_element_leaves_its_word :
    let first := String.ofList []
    let last := String.ofList (List.replicate 64 'a')
    let s := exec step ((Registry.numbered 65).names.map SetStep.register ++ [SetStep.create, .create, .add 0 (some first),
      .add 0 (some last), .remove 0 (some last), .add 1 (some first)]) start
    ∃ a b, s.sets = [a, b] ∧
      (∀ y, BitSet.contains s.registry (some y) a = BitSet.contains s.registry (some y) b) ∧
      BitSet.equals b a = false ∧ BitSet.hashCode a ≠ BitSet.hashCode b ∧
      BitSet.containsAll (some a) b = false := by
  intro first last s
  obtain ⟨hsets, hnames⟩ := exec_register 65
  generalize hstart : exec step ((Registry.numbered 65).names.map .register) start = s₀ at hsets hnames
  have hget : ∀ k, k < 65 → s₀.registry.getIndex (String.ofList (List.replicate k 'a')) = k := by
    intro k hk
    apply Registry.getIndex_of_getT
    change s₀.registry.names[k]? = _
    rw [hnames]
    change ((List.range 65).map (fun k => String.ofList (List.replicate k 'a')))[k]? = _
    rw [List.getElem?_map, List.getElem?_range hk]
    rfl
  have hregister : ∀ k, k < 65 →
      s₀.registry.register (String.ofList (List.replicate k 'a')) = s₀.registry := by
    intro k hk
    have hmem : String.ofList (List.replicate k 'a') ∈ s₀.registry.names := by
      rw [hnames]
      exact List.mem_map.mpr ⟨k, List.mem_range.mpr hk, rfl⟩
    rw [Registry.register, dif_pos hmem]
  have hfirst : s₀.registry.getIndex first = 0 := hget 0 (by decide)
  have hlast : s₀.registry.getIndex last = 64 := hget 64 (by decide)
  have hregister0 : s₀.registry.register first = s₀.registry := hregister 0 (by decide)
  have hregister64 : s₀.registry.register last = s₀.registry := hregister 64 (by decide)
  refine ⟨[1#64, 0#64], [1#64], ?_, ?_, by decide, by decide, by decide⟩
  · change (exec step (_ ++ _) start).sets = _
    rw [exec_append, hstart]
    obtain ⟨r, sets⟩ := s₀
    dsimp only at hsets hfirst hlast hregister0 hregister64
    subst hsets
    have hadd0 : (BitSet.add r false (some first) []).bits = [1#64] := by
      rw [BitSet.add]
      dsimp only
      rw [hfirst]
      decide
    have hadd64 : (BitSet.add r false (some last) [1#64]).bits = [1#64, 1#64] := by
      rw [BitSet.add]
      dsimp only
      rw [hlast]
      decide
    have hremove64 : (BitSet.remove r false (some last) [1#64, 1#64]).bits = [1#64, 0#64] := by
      rw [BitSet.remove]
      dsimp only
      rw [hlast]
      decide
    simp only [exec, step, mutate, asked, List.nil_append, List.singleton_append, List.getElem?_cons_zero,
      List.getElem?_cons_succ, List.set_cons_zero, List.set_cons_succ, hregister0, hregister64, hadd0, hadd64,
      hremove64]
  · intro y
    rw [BitSet.contains_some, BitSet.contains_some]
    exact has_append_zeros [1#64] 1 _

end BitSets

end OpenJfx.Css
