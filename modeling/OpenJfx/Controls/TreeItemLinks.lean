import OpenJfx.Controls.TreeItemForest
import OpenJfx.Lib.Run

/-! # Parents and repeated children

Several occurrences of an item in one list of children are allowed here.
`parentLinkCount` is meant to count them, but no call decrements it: once an item
has occurred several times, its parent is never set again.  A run carries along
which items have done so. -/
set_option autoImplicit false
namespace OpenJfx.Controls
open OpenJfx.Lib OpenJfx.Collections

namespace TreeItems
variable {N : Type} [DecidableEq N] {s : TreeItems N} {p x : N}

theorem updateParent_other (newParent : Option N) {item : N} (hx : x ≠ item) :
    (s.updateParent newParent item).parent x = s.parent x ∧
      (s.updateParent newParent item).parentLinkCount x = s.parentLinkCount x := by
  unfold updateParent
  constructor
  · dsimp only
    split <;> split <;> simp [hx]
  · dsimp only
    split <;> split <;> simp [hx]

theorem updateParent_none (item : N) :
    (s.updateParent none item).parent item = (if s.parentLinkCount item = 0 then none else s.parent item) ∧
      (s.updateParent none item).parentLinkCount = s.parentLinkCount := by
  have hmatch : ¬(s.parent item ≠ none ∧ s.parent item = none) := fun h => h.1 h.2
  simp only [updateParent, if_neg hmatch]
  by_cases hzero : s.parentLinkCount item = 0
  · simp [hzero]
  · simp [hzero]

theorem updateParent_some (p item : N) :
    (s.updateParent (some p) item).parent item = (if s.parentLinkCount item = 0 then some p else s.parent item) ∧
      (s.updateParent (some p) item).parentLinkCount item =
        if s.parent item = some p then s.parentLinkCount item + 1 else s.parentLinkCount item := by
  unfold updateParent
  by_cases hzero : s.parentLinkCount item = 0
  · by_cases hmatch : s.parent item = some p
    · simp [hzero, hmatch]
    · simp [hzero, hmatch]
  · by_cases hmatch : s.parent item = some p
    · simp [hzero, hmatch]
    · simp [hzero, hmatch]

theorem links_removed (items : List N) (s : TreeItems N) (x : N) :
    (s.updateChildrenParent items none).parent x =
        (if x ∈ items ∧ s.parentLinkCount x = 0 then none else s.parent x) ∧
      (s.updateChildrenParent items none).parentLinkCount = s.parentLinkCount := by
  induction items generalizing s with
  | nil => simp [updateChildrenParent]
  | cons item items ih =>
    obtain ⟨hparent, hcount⟩ := ih (s.updateParent none item)
    obtain ⟨hself, hkeep⟩ := updateParent_none (s := s) item
    rw [updateChildrenParent, List.foldl_cons, ← updateChildrenParent, hparent, hcount, hkeep]
    refine ⟨?_, rfl⟩
    by_cases hx : x = item
    · subst hx
      rw [hself]
      grind
    · rw [(updateParent_other none hx).1]
      simp [hx]

theorem links_added (items : List N) (s : TreeItems N) (p x : N) (hnonneg : 0 ≤ s.parentLinkCount x) :
    (s.updateChildrenParent items (some p)).parent x =
        (if x ∈ items ∧ s.parentLinkCount x = 0 then some p else s.parent x) ∧
      0 ≤ (s.updateChildrenParent items (some p)).parentLinkCount x ∧
      ((s.updateChildrenParent items (some p)).parentLinkCount x = 0 ↔
        s.parentLinkCount x = 0 ∧ items.count x ≤ if s.parent x = some p then 0 else 1) := by
  induction items generalizing s with
  | nil =>
    simp only [updateChildrenParent, List.foldl_nil, List.not_mem_nil, List.count_nil]
    simp [hnonneg]
  | cons item items ih =>
    rw [updateChildrenParent, List.foldl_cons, ← updateChildrenParent]
    by_cases hx : x = item
    · subst hx
      obtain ⟨hparent, hcount⟩ := updateParent_some (s := s) p x
      have hstep : 0 ≤ (s.updateParent (some p) x).parentLinkCount x := by
        rw [hcount]
        split <;> omega
      obtain ⟨hrest, hrestNonneg, hrestZero⟩ := ih (s.updateParent (some p) x) hstep
      refine ⟨?_, hrestNonneg, ?_⟩
      · rw [hrest, hparent, hcount]
        grind
      · rw [hrestZero, hparent, hcount, List.count_cons_self]
        grind
    · obtain ⟨hparent, hcount⟩ := updateParent_other (s := s) (some p) hx
      have hih := ih (s.updateParent (some p) item) (hcount ▸ hnonneg)
      rw [hparent, hcount] at hih
      simpa [hx, List.count_cons_of_ne (Ne.symm hx)] using hih

/-! ## Runs -/

variable [Fintype N]

structure Mutation (N : Type) where
  parent : N
  list : List N
  change : SourceChange N

/-- The items, and which of them have occurred several times in a list of children so far. -/
structure Observed (N : Type) where
  items : TreeItems N
  several : N → Bool

def occursSeveral (s : TreeItems N) (x : N) : Bool := decide (∃ q, 2 ≤ (s.children q).count x)

def start : Observed N := ⟨new, fun _ => false⟩

def mutate (m : Mutation N) (o : Observed N) : Observed N :=
  let items := o.items.changeChildren m.parent m.list m.change.change
  ⟨items, fun x => o.several x || items.occursSeveral x⟩

structure Mutates (m : Mutation N) (o : Observed N) : Prop where
  legal : m.change.Legal (o.items.children m.parent) m.list
  permutations : ∀ c ∈ m.change.permutations, c.getRemoved = []
  single : ∀ q, q ≠ m.parent → ∀ c ∈ m.list, c ∉ o.items.children q

def Linked (s : TreeItems N) : Prop := ∀ c q, s.parent c = some q ↔ c ∈ s.children q

def KeepsSeveral (m : Mutation N) (o : Observed N) : Prop :=
  ∀ c ∈ o.items.children m.parent, c ∉ m.list → o.several c = false

structure Balanced (o : Observed N) : Prop where
  linked : Linked o.items
  nonneg : ∀ c, 0 ≤ o.items.parentLinkCount c
  zero_iff : ∀ c, o.items.parentLinkCount c = 0 ↔ o.several c = false
  once : ∀ c, o.several c = false → ∀ q, (o.items.children q).count c ≤ 1
  held : ∀ c, o.several c = true → ∃ q, c ∈ o.items.children q

section Step
variable {m : Mutation N} {o : Observed N}

omit [Fintype N] in
theorem updateChildrenParent_children (items : List N) (newParent : Option N) (s : TreeItems N) :
    (s.updateChildrenParent items newParent).children = s.children := by
  induction items generalizing s with
  | nil => rfl
  | cons item items ih =>
    have hitem : (s.updateParent newParent item).children = s.children := by
      unfold updateParent
      dsimp only
      split <;> split <;> rfl
    rw [updateChildrenParent, List.foldl_cons, ← updateChildrenParent, ih, hitem]

theorem mutate_children (m : Mutation N) (o : Observed N) :
    (mutate m o).items.children = Function.update o.items.children m.parent m.list := by
  change ((updateChildrenParent _ _ _).updateChildrenParent _ _).children = _
  rw [updateChildrenParent_children, updateChildrenParent_children, setLeaf_children]
  rfl

theorem mutate_links (hm : Mutates m o) (hnonneg : 0 ≤ o.items.parentLinkCount x) :
    ∃ kept removed added, (o.items.children m.parent).count x = kept + removed ∧ m.list.count x = kept + added ∧
      (mutate m o).items.parent x =
        (if 0 < added ∧ o.items.parentLinkCount x = 0 then some m.parent
        else if 0 < removed ∧ o.items.parentLinkCount x = 0 then none else o.items.parent x) ∧
      0 ≤ (mutate m o).items.parentLinkCount x ∧
      ((mutate m o).items.parentLinkCount x = 0 ↔ o.items.parentLinkCount x = 0 ∧
        added ≤ if 0 < removed ∨ o.items.parent x ≠ some m.parent then 1 else 0) := by
  obtain ⟨kept, hold, hnew⟩ := hm.legal.parts hm.permutations
  set removed := m.change.change.flatMap SubChange.getRemoved
  set added := m.change.change.flatMap (SubChange.getAddedSubList m.list)
  let base := (((o.items.storeChildren m.parent m.list).storeDirty m.parent true).setLeaf m.parent m.list.isEmpty)
  have hitems : (mutate m o).items =
      ((base.updateChildrenParent removed none).updateChildrenParent added (some m.parent)).fireEvent m.parent := by
    have hlist : ((o.items.storeChildren m.parent m.list).storeDirty m.parent true).children m.parent = m.list :=
      Function.update_self ..
    change changeChildren _ _ _ _ = _
    rw [changeChildren, updateChildren, setLeaf_children, hlist]
  have hparent : base.parent = o.items.parent := setLeaf_parent ..
  have hcount : base.parentLinkCount = o.items.parentLinkCount := setLeaf_parentLinkCount ..
  obtain ⟨hremoved, hkeep⟩ := links_removed removed base x
  obtain ⟨hadded, hnonneg', hzero⟩ := links_added added (base.updateChildrenParent removed none) m.parent x
    (by rw [hkeep, hcount]; exact hnonneg)
  rw [hremoved, hkeep, hparent, hcount] at hadded
  rw [hremoved, hkeep, hparent, hcount] at hzero
  refine ⟨kept.count x, removed.count x, added.count x, ?_, ?_, ?_, ?_, ?_⟩
  · rw [hold.count_eq, List.count_append]
  · rw [hnew.count_eq, List.count_append]
  · rw [hitems]
    simp only [List.count_pos_iff]
    exact hadded
  · rw [hitems]
    exact hnonneg'
  · rw [hitems]
    simp only [List.count_pos_iff]
    refine hzero.trans (and_congr_right fun hlink => ?_)
    by_cases hmem : x ∈ removed
    · simp [hmem, hlink]
    · by_cases heq : o.items.parent x = some m.parent
      · simp [hmem, heq]
      · simp [hmem, heq]

theorem mem_mutate (m : Mutation N) (o : Observed N) (x q : N) :
    x ∈ (mutate m o).items.children q ↔ if q = m.parent then x ∈ m.list else x ∈ o.items.children q := by
  rw [mutate_children]
  by_cases hq : q = m.parent
  · subst hq
    rw [Function.update_self, if_pos rfl]
  · rw [Function.update_of_ne hq, if_neg hq]

theorem mutate_linked_item (h : Balanced o) (hm : Mutates m o) (x : N) :
    (∀ q, (mutate m o).items.parent x = some q ↔ x ∈ (mutate m o).items.children q) ↔
      (x ∈ o.items.children m.parent → x ∉ m.list → o.several x = false) := by
  obtain ⟨kept, removed, added, hold, hnew, hparent, -, -⟩ := mutate_links hm (h.nonneg x)
  simp only [mem_mutate]
  have hlinked := h.linked x
  have hother : ∀ q, x ∈ o.items.children q → x ∈ m.list → q = m.parent := by
    intro q hq hlist
    by_contra hne
    exact hm.single q hne x hlist hq
  have hmem := List.count_pos_iff (a := x) (l := o.items.children m.parent)
  by_cases hlist : x ∈ m.list
  · -- the item is among the new children
    have hpos := List.count_pos_iff.mpr hlist
    refine iff_of_true (fun q => ?_) fun _ hnot => absurd hlist hnot
    have hto : (mutate m o).items.parent x = some m.parent := by
      rw [hparent]
      by_cases hlink : o.items.parentLinkCount x = 0
      · have honce := h.once x ((h.zero_iff x).mp hlink) m.parent
        by_cases hadded : 0 < added
        · rw [if_pos ⟨hadded, hlink⟩]
        · rw [if_neg fun hc => hadded hc.1, if_neg fun hc => absurd hc.1 (by omega)]
          exact (hlinked m.parent).mpr (hmem.mp (by omega))
      · rw [if_neg fun hc => hlink hc.2, if_neg fun hc => hlink hc.2]
        have hseveral : o.several x = true := by
          rw [← Bool.not_eq_false]
          exact fun hfalse => hlink ((h.zero_iff x).mpr hfalse)
        obtain ⟨q, hq⟩ := h.held x hseveral
        exact (hlinked m.parent).mpr (hother q hq hlist ▸ hq)
    rw [hto, Option.some.injEq]
    by_cases hq : q = m.parent
    · rw [if_pos hq]
      exact iff_of_true hq.symm hlist
    · rw [if_neg hq]
      exact iff_of_false (Ne.symm hq) fun hqmem => hq (hother q hqmem hlist)
  · have hzero := List.count_eq_zero.mpr hlist
    rw [if_neg fun hc => absurd hc.1 (by omega)] at hparent
    by_cases hwas : x ∈ o.items.children m.parent
    · have hpos := hmem.mpr hwas
      have hup := (hlinked m.parent).mpr hwas
      by_cases hlink : o.items.parentLinkCount x = 0
      · rw [if_pos ⟨by omega, hlink⟩] at hparent
        refine iff_of_true (fun q => ?_) fun _ _ => (h.zero_iff x).mp hlink
        rw [hparent]
        refine iff_of_false nofun ?_
        by_cases hq : q = m.parent
        · rwa [if_pos hq]
        · rw [if_neg hq, ← hlinked, hup, Option.some.injEq]
          exact Ne.symm hq
      · rw [if_neg fun hc => hlink hc.2, hup] at hparent
        refine iff_of_false (fun hall => ?_) fun hkeeps => hlink ((h.zero_iff x).mpr (hkeeps hwas hlist))
        have := (hall m.parent).mp hparent
        rw [if_pos rfl] at this
        exact hlist this
    · have hnone := List.count_eq_zero.mpr hwas
      rw [if_neg fun hc => absurd hc.1 (by omega)] at hparent
      refine iff_of_true (fun q => ?_) fun hc => absurd hc hwas
      rw [hparent, hlinked]
      by_cases hq : q = m.parent
      · rw [if_pos hq, hq]
        exact iff_of_false hwas hlist
      · rw [if_neg hq]

theorem mutate_linked_iff (h : Balanced o) (hm : Mutates m o) :
    Linked (mutate m o).items ↔ KeepsSeveral m o :=
  forall_congr' fun x => mutate_linked_item h hm x

theorem several_mutate (m : Mutation N) (o : Observed N) (x : N) :
    (mutate m o).several x = false ↔
      o.several x = false ∧ ∀ q, ((mutate m o).items.children q).count x ≤ 1 := by
  change (o.several x || (mutate m o).items.occursSeveral x) = false ↔ _
  rw [Bool.or_eq_false_iff, occursSeveral, decide_eq_false_iff_not, not_exists]
  exact and_congr_right fun _ => forall_congr' fun q => by omega

theorem Balanced.mutate (h : Balanced o) (hm : Mutates m o) (hkeeps : KeepsSeveral m o) : Balanced (mutate m o) := by
  refine ⟨(mutate_linked_iff h hm).mpr hkeeps, fun x => ?_, fun x => ?_, fun x hx => ((several_mutate m o x).mp hx).2,
    fun x hx => ?_⟩
  · obtain ⟨-, -, -, -, -, -, hnonneg, -⟩ := mutate_links hm (h.nonneg x)
    exact hnonneg
  · obtain ⟨kept, removed, added, hold, hnew, -, -, hzero⟩ := mutate_links hm (h.nonneg x)
    rw [hzero, several_mutate, h.zero_iff]
    refine and_congr_right fun hseveral => ?_
    have honce := h.once x hseveral
    have hwas := List.count_pos_iff (a := x) (l := o.items.children m.parent)
    rw [← h.linked x m.parent] at hwas
    have hall : (∀ q, ((TreeItems.mutate m o).items.children q).count x ≤ 1) ↔ m.list.count x ≤ 1 := by
      rw [mutate_children]
      constructor
      · intro hq
        simpa using hq m.parent
      · intro hlist q
        by_cases hq : q = m.parent
        · rwa [hq, Function.update_self]
        · rw [Function.update_of_ne hq]
          exact honce q
    have := honce m.parent
    rw [hall]
    by_cases hparent : o.items.parent x = some m.parent
    · have := hwas.mpr hparent
      simp only [hparent, ne_eq, not_true_eq_false, or_false]
      split <;> omega
    · have := mt hwas.mp hparent
      simp only [hparent, ne_eq, not_false_eq_true, or_true, if_true]
      omega
  · by_contra hnowhere
    have hout : ∀ q, x ∉ (TreeItems.mutate m o).items.children q := fun q hq => hnowhere ⟨q, hq⟩
    have hcount : ∀ q, ((TreeItems.mutate m o).items.children q).count x ≤ 1 := fun q => by
      rw [List.count_eq_zero.mpr (hout q)]
      omega
    have hbefore : o.several x = true := by
      by_contra hnot
      rw [(several_mutate m o x).mpr ⟨Bool.not_eq_true _ ▸ hnot, hcount⟩] at hx
      exact Bool.false_ne_true hx
    obtain ⟨q, hq⟩ := h.held x hbefore
    have hnot := hout q
    rw [mem_mutate] at hnot
    by_cases hqp : q = m.parent
    · rw [if_pos hqp] at hnot
      rw [hkeeps x (hqp ▸ hq) hnot] at hbefore
      exact Bool.false_ne_true hbefore
    · rw [if_neg hqp] at hnot
      exact hnot hq

end Step

omit [Fintype N] in
theorem balanced_start : Balanced (start : Observed N) := by
  refine ⟨fun c q => ?_, fun _ => le_rfl, fun _ => iff_of_true rfl rfl, fun _ _ _ => Nat.zero_le _, nofun⟩
  exact iff_of_false nofun List.not_mem_nil

/-- In a run of mutations the parents match the lists of children after each of them exactly if
no item that has occurred several times in a list is ever taken out of it. -/
theorem run_linked_iff {ms : List (Mutation N)} (hms : Guarded Mutates mutate ms (start : Observed N)) :
    Guarded (fun m o => Linked (mutate m o).items) mutate ms (start : Observed N) ↔
      Guarded KeepsSeveral mutate ms (start : Observed N) := by
  have hboth : Guarded (fun m o => Mutates m o ∧ Linked (mutate m o).items) mutate ms (start : Observed N) ↔
      Guarded (fun m o => Mutates m o ∧ KeepsSeveral m o) mutate ms (start : Observed N) :=
    guarded_iff_of_invariant Balanced (fun m o h hm => h.mutate hm.1 ((mutate_linked_iff h hm.1).mp hm.2))
      (fun m o h => and_congr_right fun hm => mutate_linked_iff h hm) balanced_start
  rw [guarded_and, guarded_and] at hboth
  exact and_congr_right_iff.mp hboth hms

/-! ## One range -/

def replaced (front : Nat) (removed added : List N) : SourceChange N :=
  ⟨[], [⟨front, front + added.length, some removed, [], false⟩], []⟩

omit [DecidableEq N] [Fintype N] in
theorem replaced_legal (front removed added back : List N) :
    (replaced front.length removed added).Legal (front ++ (removed ++ back)) (front ++ (added ++ back)) where
  plain := by simp [replaced, SubChange.Plain]
  updates := by simp [replaced]
  turns := ⟨_, rfl, front, added, back, back, rfl, rfl, (zero_add _).symm, rfl, rfl⟩

/-- An item is added, added again, and taken out by `clear()`. -/
def addedTwice : List (Mutation Bool) :=
  [⟨false, [true], replaced 0 [] [true]⟩, ⟨false, [true, true], replaced 1 [] [true]⟩,
    ⟨false, [], replaced 0 [true, true] []⟩]

theorem addedTwice_mutates : Guarded Mutates mutate addedTwice start := by
  have hsingle : ∀ (o : Observed Bool) (list : List Bool), o.items.children true = [] →
      ∀ q, q ≠ false → ∀ c ∈ list, c ∉ o.items.children q := by
    intro o list hnone q hq c _
    rw [Bool.eq_true_of_not_eq_false hq, hnone]
    exact List.not_mem_nil
  refine ⟨⟨replaced_legal [] [] [true] [], nofun, hsingle _ _ rfl⟩,
    ⟨replaced_legal [true] [] [true] [], nofun, hsingle _ _ ?_⟩,
    ⟨replaced_legal [] [true, true] [] [], nofun, hsingle _ _ ?_⟩, trivial⟩
  · decide
  · decide

theorem addedTwice_parent :
    Guarded Mutates mutate addedTwice start ∧ (∀ q, (exec mutate addedTwice start).items.children q = []) ∧
      (exec mutate addedTwice start).items.parent true = some false ∧
      ¬Guarded (fun m o => Linked (mutate m o).items) mutate addedTwice start := by
  refine ⟨addedTwice_mutates, by decide, by decide, fun h => ?_⟩
  have hlinked := h.2.2.1 true false
  exact absurd (hlinked.mp (by decide)) (by decide)

theorem run_linked_addedTwice :
    Guarded (fun m o => Linked (mutate m o).items) mutate (addedTwice.take 2) start ↔
      Guarded KeepsSeveral mutate (addedTwice.take 2) start :=
  run_linked_iff ⟨addedTwice_mutates.1, addedTwice_mutates.2.1, trivial⟩

end TreeItems
end OpenJfx.Controls
