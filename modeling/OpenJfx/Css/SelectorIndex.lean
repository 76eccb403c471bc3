import OpenJfx.Css.SelectorPartitioning
import Mathlib.Data.List.Pairwise

/-! # The selector index agrees with plain filtering

Putting a selector into the index adds exactly that selector to what a query
collects if its last part matches the node, and nothing otherwise; sorting by
ordinals restores the order in which the selectors were put in. -/
set_option autoImplicit false
namespace OpenJfx.Css
open OpenJfx.Lib OpenJfx.Lib.WordSet

/-- The style classes of the part are among those of the node. -/
def SimpleSelector.classesAmong (simple : SimpleSelector) (classes : Option (List Long)) : Bool :=
  (members simple.styleClassSet).all (fun i => (classes.map (fun bits => has bits i)).getD false)

/-- Plain matching of a last part: its id, its type and its style classes. -/
def SimpleSelector.matchesNode (simple : SimpleSelector) (id : Option String) (type : String)
    (classes : Option (List Long)) : Bool :=
  (simple.id = "" || id = some simple.id) && (simple.name = "*" || simple.name = type) &&
    simple.classesAmong classes

namespace SelectorPartitioning
variable {S : Type}

/-! ## One place of the index -/

theorem classesAmong_iff {simple : SimpleSelector} {classes : Option (List Long)} :
    simple.classesAmong classes = true ↔
      ∀ i, has simple.styleClassSet i = true → ∃ bits, classes = some bits ∧ has bits i = true := by
  rw [SimpleSelector.classesAmong, List.all_eq_true]
  constructor
  · intro h i hi
    have hi := h i ((mem_members (by decide)).mpr hi)
    cases classes with
    | none => cases hi
    | some bits => exact ⟨bits, rfl, hi⟩
  · intro h i hi
    obtain ⟨bits, rfl, hbits⟩ := h i ((mem_members (by decide)).mp hi)
    exact hbits

theorem classesAmong_of_empty {simple : SimpleSelector} (h : ¬BitSet.size simple.styleClassSet > 0)
    (classes : Option (List Long)) : simple.classesAmong classes = true := by
  rw [classesAmong_iff]
  intro i hi
  exact absurd ((BitSet.size_pos_iff _).mpr ⟨i, hi⟩) h

theorem containsAll_styleClassKey {simple : SimpleSelector} (h : BitSet.size simple.styleClassSet > 0)
    (classes : Option (List Long)) :
    ((styleClassKey classes).map (fun bits => BitSet.containsAll (some simple.styleClassSet) bits)).getD false =
      simple.classesAmong classes := by
  rw [Bool.eq_iff_iff, classesAmong_iff]
  obtain ⟨i, hi⟩ := (BitSet.size_pos_iff _).mp h
  cases classes with
  | none =>
    constructor
    · exact fun hf => (nomatch hf)
    · intro hall
      obtain ⟨bits, hbits, -⟩ := hall i hi
      cases hbits
  | some bits =>
    rw [styleClassKey]
    split
    · change BitSet.containsAll (some simple.styleClassSet) bits = true ↔ _
      rw [BitSet.containsAll_some]
      constructor
      · exact fun hall j hj => ⟨bits, rfl, hall.2 j hj⟩
      · intro hall
        have hsubset : ∀ j, has simple.styleClassSet j = true → has bits j = true := by
          intro j hj
          obtain ⟨other, hother, hin⟩ := hall j hj
          cases hother
          exact hin
        exact ⟨simple.styleClassesTrimmed.length_le hsubset, hsubset⟩
    · rename_i hempty
      constructor
      · exact fun hf => (nomatch hf)
      · intro hall
        obtain ⟨other, hother, hin⟩ := hall i hi
        cases hother
        exact absurd ((BitSet.size_pos_iff _).mpr ⟨i, hin⟩) hempty

def added (b : Bool) (s : S) : List S := if b then [s] else []

theorem Slot.key_addSelector (s : S) (slot : Slot S) : (slot.addSelector s).key = slot.key := by
  cases slot
  rfl

theorem Slot.key_partition (id : PartitionKey) (f : Slot S → Slot S) (slot : Slot S) :
    (slot.partition id f).key = slot.key := by
  cases slot
  rfl

theorem classSelectors_addSelector (bits : List Long) (s : S) (classes : List Long) {slot : Slot S}
    (hkey : slot.key = .classes bits) :
    classSelectors classes (slot.addSelector s) =
      classSelectors classes slot ++ added (BitSet.containsAll (some bits) classes) s := by
  obtain ⟨key, selectors, referents⟩ := slot
  cases hkey
  cases hcontains : BitSet.containsAll (some bits) classes with
  | true =>
    cases selectors with
    | nil => simp [classSelectors, Slot.addSelector, Slot.selectors, Slot.key, added, hcontains]
    | cons x rest => simp [classSelectors, Slot.addSelector, Slot.selectors, Slot.key, added, hcontains]
  | false =>
    cases selectors with
    | nil => simp [classSelectors, Slot.addSelector, Slot.selectors, Slot.key, added, hcontains]
    | cons x rest => simp [classSelectors, Slot.addSelector, Slot.selectors, Slot.key, added, hcontains]

theorem matchClasses_update (simple : SimpleSelector) (s : S) (h : BitSet.size simple.styleClassSet > 0)
    (classes : Option (List Long)) (slots : List (Slot S)) :
    (matchClasses (styleClassKey classes) (KeyedList.update Slot.key (.classes simple.styleClassSet)
      (.mk (.classes simple.styleClassSet) [] []) (Slot.addSelector s) slots)).Perm
    (matchClasses (styleClassKey classes) slots ++ added (simple.classesAmong classes) s) := by
  rw [← containsAll_styleClassKey h]
  cases styleClassKey classes with
  | none => exact List.Perm.refl _
  | some bits =>
    apply KeyedList.flatMap_update_perm
    · rw [classSelectors_addSelector simple.styleClassSet s bits rfl]
      exact List.Perm.refl _
    · intro slot hslot
      rw [classSelectors_addSelector simple.styleClassSet s bits (eq_of_beq hslot)]
      exact List.Perm.refl _

theorem matchSlot_addSelector (classes : Option (List Long)) (s : S) (slot : Slot S) :
    (matchSlot classes (slot.addSelector s)).Perm (matchSlot classes slot ++ [s]) := by
  obtain ⟨key, selectors, referents⟩ := slot
  dsimp only [matchSlot, Slot.addSelector, Slot.selectors, Slot.referents]
  rw [List.append_assoc, List.append_assoc]
  exact (List.perm_append_comm).append_left _

theorem matchSlot_partition (simple : SimpleSelector) (s : S) (h : BitSet.size simple.styleClassSet > 0)
    (classes : Option (List Long)) (slot : Slot S) :
    (matchSlot (styleClassKey classes)
      (slot.partition (.classes simple.styleClassSet) (Slot.addSelector s))).Perm
    (matchSlot (styleClassKey classes) slot ++ added (simple.classesAmong classes) s) := by
  obtain ⟨key, selectors, referents⟩ := slot
  dsimp only [matchSlot, Slot.partition, Slot.selectors, Slot.referents]
  rw [List.append_assoc]
  exact (matchClasses_update simple s h classes referents).append_left _

theorem matchClasses_nil (classes : Option (List Long)) : matchClasses classes ([] : List (Slot S)) = [] := by
  cases classes with
  | none => rfl
  | some bits => rfl

/-! ## The maps -/

theorem typeKeys_nodup (type : String) : (typeKeys type).Nodup := by
  rw [typeKeys]
  split
  · exact List.nodup_singleton _
  · rename_i hne
    rw [List.nodup_cons]
    refine ⟨?_, List.nodup_singleton _⟩
    intro hmem
    exact hne (PartitionKey.name.inj (List.mem_singleton.mp hmem))

theorem contains_typeKeys (type name : String) :
    (typeKeys type).contains (.name name) = (decide (name = "*") || decide (name = type)) := by
  rw [Bool.eq_iff_iff, List.contains_iff_mem, Bool.or_eq_true, decide_eq_true_eq, decide_eq_true_eq, typeKeys]
  split
  · rename_i hwild
    rw [hwild, List.mem_singleton, PartitionKey.name.injEq, or_self]
  · rw [List.mem_cons, List.mem_singleton, PartitionKey.name.injEq, PartitionKey.name.injEq]
    exact or_comm

theorem added_and (a b : Bool) (s : S) : (if a then added b s else []) = added (a && b) s := by
  cases a with
  | true => rfl
  | false => rfl

theorem matchId_partition {f : Slot S → Slot S} (hkey : ∀ slot, (f slot).key = slot.key) {b : Bool} {s : S}
    {key : Option (List Long)} (hf : ∀ slot, (matchSlot key (f slot)).Perm (matchSlot key slot ++ added b s))
    (name type : String) (p : Partition S) :
    (matchId type key (p.partition (.name name) f)).Perm
      (matchId type key p ++ added ((decide (name = "*") || decide (name = type)) && b) s) := by
  have hslots := @KeyedList.flatMap_collect_update_perm _ _ _ _ Slot.key _ (matchSlot key) (.name name)
    (.mk (.name name) [] []) f (added b s) hkey rfl (matchClasses_nil key) hf _ (typeKeys_nodup type) p.slots
  rw [contains_typeKeys, added_and] at hslots
  dsimp only [matchId, Partition.partition]
  rw [List.append_assoc]
  exact hslots.append_left _

theorem collect_createPartition (key : Option (List Long)) (id : PartitionKey) (slots : List (Slot S))
    (map : List (Partition S)) (k : PartitionKey) :
    (KeyedList.collect Partition.key (matchType key) k (createPartition id slots map)).Perm
      (KeyedList.collect Partition.key (matchType key) k map) := by
  rw [createPartition]
  split
  · exact List.Perm.refl _
  · have hcollect := @KeyedList.collect_update_perm _ _ _ _ Partition.key _ (matchType key) id ⟨id, [], []⟩
      (fun p => p) [] (fun _ => rfl) rfl (matchClasses_nil key) (fun p => by rw [List.append_nil]) k map
    rw [ite_self, List.append_nil] at hcollect
    exact hcollect

theorem flatMap_createPartition (key : Option (List Long)) (id : PartitionKey) (slots : List (Slot S))
    (map : List (Partition S)) (keys : List PartitionKey) :
    (keys.flatMap (fun k => KeyedList.collect Partition.key (matchType key) k (createPartition id slots map))).Perm
      (keys.flatMap (fun k => KeyedList.collect Partition.key (matchType key) k map)) :=
  List.Perm.flatMap_left keys (fun k _ => collect_createPartition key id slots map k)

theorem collected_idMap (t : SelectorPartitioning S) {simple : SimpleSelector} (hid : simple.id ≠ "")
    {f : Slot S → Slot S} (hkey : ∀ slot, (f slot).key = slot.key) {s : S} {id : Option String} {type : String}
    (htype : type ≠ "") {classes : Option (List Long)}
    (hf : ∀ slot, (matchSlot (styleClassKey classes) (f slot)).Perm
      (matchSlot (styleClassKey classes) slot ++ added (simple.classesAmong classes) s))
    {t' : SelectorPartitioning S}
    (hidMap : t'.idMap = getPartition (.name simple.id) (Partition.partition (.name simple.name) f) t.idMap)
    {slots : List (Slot S)} (htypeMap : t'.typeMap = createPartition (.name simple.name) slots t.typeMap) :
    (t'.collected id type classes).Perm
      (t.collected id type classes ++ added (simple.matchesNode id type classes) s) := by
  have htypes := flatMap_createPartition (styleClassKey classes) (.name simple.name) slots t.typeMap (typeKeys type)
  rw [collected, collected, if_neg htype, if_neg htype, matchTypeMap, matchTypeMap, htypeMap]
  cases id with
  | none =>
    have hno : simple.matchesNode none type classes = false := by simp [SimpleSelector.matchesNode, hid]
    rw [hno, added, if_neg (fun h => nomatch h), List.append_nil]
    exact htypes
  | some id =>
    rw [matchIdMap, matchIdMap, hidMap]
    by_cases hempty : id = ""
    · have hno : simple.matchesNode (some id) type classes = false := by
        simp [SimpleSelector.matchesNode, hid, hempty, Ne.symm hid]
      rw [if_pos hempty, if_pos hempty, hno, added, if_neg (fun h => nomatch h), List.append_nil]
      exact htypes
    · rw [if_neg hempty, if_neg hempty]
      have hids := @KeyedList.collect_update_perm _ _ _ _ Partition.key _ (matchId type (styleClassKey classes))
        (.name simple.id) ⟨.name simple.id, [], []⟩ (Partition.partition (.name simple.name) f) _ (fun _ => rfl) rfl
        (by simp [matchId, KeyedList.collect, KeyedList.get]) (matchId_partition hkey hf simple.name type)
        (.name id) t.idMap
      have hbeq : (PartitionKey.name simple.id == PartitionKey.name id) = decide (some id = some simple.id) := by
        rw [Bool.eq_iff_iff, beq_iff_eq, PartitionKey.name.injEq, decide_eq_true_eq, Option.some.injEq]
        exact eq_comm
      have hmatches : simple.matchesNode (some id) type classes =
          (decide (some id = some simple.id) &&
            ((decide (simple.name = "*") || decide (simple.name = type)) && simple.classesAmong classes)) := by
        rw [SimpleSelector.matchesNode, decide_eq_false hid, Bool.false_or, Bool.and_assoc]
      rw [hbeq, added_and, ← hmatches] at hids
      refine (hids.append htypes).trans ?_
      rw [List.append_assoc, List.append_assoc]
      exact (List.perm_append_comm).append_left _

theorem collected_typeMap (t : SelectorPartitioning S) {simple : SimpleSelector} (hid : simple.id = "")
    {f : Partition S → Partition S} (hkey : ∀ p, (f p).key = p.key) {s : S} {id : Option String} {type : String}
    (htype : type ≠ "") {classes : Option (List Long)}
    (hf : ∀ p, (matchType (styleClassKey classes) (f p)).Perm
      (matchType (styleClassKey classes) p ++ added (simple.classesAmong classes) s))
    {t' : SelectorPartitioning S} (hidMap : t'.idMap = t.idMap)
    (htypeMap : t'.typeMap = getPartition (.name simple.name) f t.typeMap) :
    (t'.collected id type classes).Perm
      (t.collected id type classes ++ added (simple.matchesNode id type classes) s) := by
  have hids : t'.matchIdMap id type classes = t.matchIdMap id type classes := by
    rw [matchIdMap.eq_def, matchIdMap.eq_def, hidMap]
  rw [collected, collected, if_neg htype, if_neg htype, hids, matchTypeMap, matchTypeMap, htypeMap, List.append_assoc]
  have htypes := @KeyedList.flatMap_collect_update_perm _ _ _ _ Partition.key _ (matchType (styleClassKey classes))
    (.name simple.name) ⟨.name simple.name, [], []⟩ f _ hkey rfl (matchClasses_nil _) hf _ (typeKeys_nodup type)
    t.typeMap
  have hmatches : simple.matchesNode id type classes =
      ((decide (simple.name = "*") || decide (simple.name = type)) && simple.classesAmong classes) := by
    rw [SimpleSelector.matchesNode, decide_eq_true hid, Bool.true_or, Bool.true_and]
  rw [contains_typeKeys, added_and, ← hmatches] at htypes
  exact htypes.append_left _

/-! ## One call of `partition` -/

variable [DecidableEq S] {selector : S → Selector}

theorem partition_returns {s : S} {simple : SimpleSelector} (hlast : (selector s).last = some simple)
    (t : SelectorPartitioning S) : ∃ t', partition selector s t = .ok t' := by
  rw [partition, hlast]
  dsimp only
  split
  · exact ⟨_, rfl⟩
  · split
    · split
      · exact ⟨_, rfl⟩
      · exact ⟨_, rfl⟩
    · split
      · exact ⟨_, rfl⟩
      · exact ⟨_, rfl⟩

theorem collected_partition {s : S} {simple : SimpleSelector} (hlast : (selector s).last = some simple)
    (hname : simple.name ≠ "") {t t' : SelectorPartitioning S} (h : partition selector s t = .ok t')
    {id : Option String} {type : String} (htype : type ≠ "") {classes : Option (List Long)} :
    (t'.collected id type classes).Perm
      (t.collected id type classes ++ added (simple.matchesNode id type classes) s) := by
  rw [partition, hlast] at h
  dsimp only at h
  rw [if_neg hname] at h
  by_cases hclass : BitSet.size simple.styleClassSet > 0
  · rw [decide_eq_true hclass] at h
    by_cases hid : simple.id ≠ ""
    · rw [if_pos hid, if_pos rfl] at h
      cases h
      exact collected_idMap t hid (Slot.key_partition _ _) htype (matchSlot_partition simple s hclass classes) rfl rfl
    · rw [if_neg hid, if_pos rfl] at h
      cases h
      refine collected_typeMap t (f := Partition.partition _ _) (not_not.mp hid) (fun _ => rfl) htype ?_ rfl rfl
      intro p
      dsimp only [matchType, Partition.partition]
      rw [List.append_assoc]
      exact (matchClasses_update simple s hclass classes p.slots).append_left _
  · have hall := classesAmong_of_empty hclass classes
    rw [decide_eq_false hclass] at h
    by_cases hid : simple.id ≠ ""
    · rw [if_pos hid, if_neg (fun h => nomatch h)] at h
      cases h
      refine collected_idMap t hid (Slot.key_addSelector s) htype ?_ rfl rfl
      intro slot
      rw [hall]
      exact matchSlot_addSelector _ s slot
    · rw [if_neg hid, if_neg (fun h => nomatch h)] at h
      cases h
      refine collected_typeMap t (f := Partition.addSelector s) (not_not.mp hid) (fun _ => rfl) htype ?_ rfl rfl
      intro p
      rw [hall]
      dsimp only [matchType, Partition.addSelector]
      rw [List.append_assoc, List.append_assoc]
      exact (List.perm_append_comm).append_left _

theorem ordinals_partition {s : S} {t t' : SelectorPartitioning S} (h : partition selector s t = .ok t') :
    t'.ordinal = t.ordinal + 1 ∧ t'.ordinals = fun x => if x = s then (t.ordinal : Int) else t.ordinals x := by
  rw [partition] at h
  cases hlast : (selector s).last with
  | none =>
    rw [hlast] at h
    cases h
  | some simple =>
    rw [hlast] at h
    dsimp only at h
    split at h
    · cases h
      exact ⟨rfl, rfl⟩
    · split at h
      · split at h
        · cases h
          exact ⟨rfl, rfl⟩
        · cases h
          exact ⟨rfl, rfl⟩
      · split at h
        · cases h
          exact ⟨rfl, rfl⟩
        · cases h
          exact ⟨rfl, rfl⟩

/-! ## Sequences of calls -/

def selectorMatches (selector : S → Selector) (id : Option String) (type : String) (classes : Option (List Long))
    (s : S) : Bool :=
  match (selector s).last with
  | some simple => simple.matchesNode id type classes
  | none => false

theorem collected_partitionAll {ss : List S}
    (hss : ∀ s ∈ ss, ∃ simple, (selector s).last = some simple ∧ simple.name ≠ "") (t : SelectorPartitioning S) :
    ∃ t', partitionAll selector ss t = .ok t' ∧ ∀ id type classes, type ≠ "" →
      (t'.collected id type classes).Perm
        (t.collected id type classes ++ ss.filter (selectorMatches selector id type classes)) := by
  induction ss generalizing t with
  | nil => exact ⟨t, rfl, fun id type classes _ => by rw [List.filter_nil, List.append_nil]⟩
  | cons s rest ih =>
    obtain ⟨simple, hlast, hname⟩ := hss s (List.mem_cons_self ..)
    obtain ⟨t₁, ht₁⟩ := partition_returns hlast t
    obtain ⟨t', ht', hperm⟩ := ih (fun x hx => hss x (List.mem_cons_of_mem _ hx)) t₁
    refine ⟨t', by rw [partitionAll, ht₁]; exact ht', fun id type classes htype => ?_⟩
    have hstep : (t₁.collected id type classes).Perm _ := collected_partition hlast hname ht₁ htype
    have hhead : added (simple.matchesNode id type classes) s ++
        rest.filter (selectorMatches selector id type classes) =
        (s :: rest).filter (selectorMatches selector id type classes) := by
      have hmatches : selectorMatches selector id type classes s = simple.matchesNode id type classes := by
        rw [selectorMatches, hlast]
      rw [List.filter_cons, hmatches, added]
      split
      · rfl
      · rfl
    rw [← hhead, ← List.append_assoc]
    exact (hperm id type classes htype).trans (hstep.append_right _)

theorem ordinals_partitionAll {ss : List S} (hnodup : ss.Nodup) {t t' : SelectorPartitioning S}
    (h : partitionAll selector ss t = .ok t') :
    (∀ x, x ∉ ss → t'.ordinals x = t.ordinals x) ∧ (∀ x ∈ ss, (t.ordinal : Int) ≤ t'.ordinals x) ∧
      ss.Pairwise (fun a b => t'.ordinals a < t'.ordinals b) := by
  induction ss generalizing t with
  | nil =>
    cases h
    exact ⟨fun _ _ => rfl, (fun x hx => nomatch hx), List.Pairwise.nil⟩
  | cons s rest ih =>
    obtain ⟨hnotin, hrest⟩ := List.nodup_cons.mp hnodup
    rw [partitionAll] at h
    cases hstep : partition selector s t with
    | error e =>
      rw [hstep] at h
      cases h
    | ok t₁ =>
      rw [hstep] at h
      obtain ⟨hordinal, hordinals⟩ := ordinals_partition hstep
      obtain ⟨hother, hle, hpairwise⟩ := ih hrest h
      have hself : t'.ordinals s = t.ordinal := by
        rw [hother s hnotin, hordinals]
        exact if_pos rfl
      refine ⟨?_, ?_, ?_⟩
      · intro x hx
        rw [List.mem_cons, not_or] at hx
        rw [hother x hx.2, hordinals]
        exact if_neg hx.1
      · intro x hx
        rcases List.mem_cons.mp hx with rfl | hx
        · omega
        · have := hle x hx
          omega
      · refine List.pairwise_cons.mpr ⟨fun x hx => ?_, hpairwise⟩
        have := hle x hx
        omega

/-- For every sequence of selectors and every node, the query returns exactly the
selectors whose last part matches, as often as they were put in and sorted by
their ordinals; for distinct selectors that is the filtered sequence. -/
theorem matching_eq_filter (selector : S → Selector) (ss : List S)
    (hss : ∀ s ∈ ss, ∃ simple, (selector s).last = some simple ∧ simple.name ≠ "")
    (id : Option String) (type : String) (htype : type ≠ "") (classes : Option (List Long)) :
    ∃ t, partitionAll selector ss new = .ok t ∧
      (∀ s, (t.matching id type classes).count s =
        if selectorMatches selector id type classes s then ss.count s else 0) ∧
      (t.matching id type classes).Pairwise (fun a b => t.ordinals a ≤ t.ordinals b) ∧
      (ss.Nodup → t.matching id type classes = ss.filter (selectorMatches selector id type classes)) := by
  obtain ⟨t, ht, hperm⟩ := collected_partitionAll hss (new : SelectorPartitioning S)
  have hcollected := hperm id type classes htype
  have hempty : (new : SelectorPartitioning S).collected id type classes = [] := by
    rw [collected, if_neg htype]
    have hids : (new : SelectorPartitioning S).matchIdMap id type classes = [] := by
      rw [matchIdMap.eq_def]
      split
      · rfl
      · split
        · rfl
        · rfl
    rw [hids, matchTypeMap, List.nil_append, List.flatMap_eq_nil_iff]
    exact fun _ _ => rfl
  rw [hempty, List.nil_append] at hcollected
  have hmatching : (t.matching id type classes).Perm (ss.filter (selectorMatches selector id type classes)) :=
    (List.mergeSort_perm _ _).trans hcollected
  have hsorted : (t.matching id type classes).Pairwise (fun a b => t.ordinals a ≤ t.ordinals b) := by
    have hpairwise := @List.pairwise_mergeSort _ (fun a b => decide (t.ordinals a ≤ t.ordinals b))
      (fun a b c hab hbc => by
        rw [decide_eq_true_eq] at hab hbc ⊢
        exact Int.le_trans hab hbc)
      (fun a b => by
        rw [Bool.or_eq_true, decide_eq_true_eq, decide_eq_true_eq]
        exact Int.le_total _ _) (t.collected id type classes)
    exact hpairwise.imp (fun h => of_decide_eq_true h)
  refine ⟨t, ht, fun s => ?_, hsorted, fun hnodup => ?_⟩
  · rw [hmatching.count_eq s]
    split
    · rename_i hs
      exact List.count_filter hs
    · rename_i hs
      apply List.count_eq_zero_of_not_mem
      intro hmem
      exact hs (List.mem_filter.mp hmem).2
  · obtain ⟨-, -, hincreasing⟩ := ordinals_partitionAll hnodup ht
    apply List.Perm.eq_of_pairwise _ hsorted _ hmatching
    · intro a b ha hb hab hba
      have ha := (List.mem_filter.mp (hmatching.mem_iff.mp ha)).1
      have hb := (List.mem_filter.mp hb).1
      have hdistinct : ss.Pairwise (fun a b => t.ordinals a ≠ t.ordinals b) :=
        hincreasing.imp (fun h heq => by omega)
      have hsymm : Std.Symm (fun a b => t.ordinals a ≠ t.ordinals b) := ⟨fun _ _ h => Ne.symm h⟩
      by_contra hne
      exact hdistinct.forall ha hb hne (Int.le_antisymm hab hba)
    · exact (hincreasing.filter _).imp (fun h => Int.le_of_lt h)

theorem matching_eq_filter_label :
    let label : SimpleSelector := ⟨"Label", [], [], .inherit, "", by decide, by decide⟩
    let any : SimpleSelector := ⟨"*", [1#64], [], .inherit, "title", by decide, by decide⟩
    let selector := fun k : Nat => if k = 0 then Selector.simple label else Selector.simple any
    (∀ s ∈ [0, 1], ∃ simple, (selector s).last = some simple ∧ simple.name ≠ "") ∧
      ∃ t, partitionAll selector [0, 1] new = .ok t ∧
        t.matching (some "title") "Label" (some [3#64]) = [0, 1] := by
  intro label any selector
  have hss : ∀ s ∈ [0, 1], ∃ simple, (selector s).last = some simple ∧ simple.name ≠ "" := by
    intro s hs
    rcases List.mem_cons.mp hs with rfl | hs
    · exact ⟨label, rfl, by decide⟩
    · rw [List.mem_singleton.mp hs]
      exact ⟨any, rfl, by decide⟩
  obtain ⟨t, ht, -, -, hfilter⟩ :=
    matching_eq_filter selector [0, 1] hss (some "title") "Label" (by decide) (some [3#64])
  exact ⟨hss, t, ht, (hfilter (by decide)).trans (by decide)⟩

end SelectorPartitioning

end OpenJfx.Css
