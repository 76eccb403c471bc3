import OpenJfx.Controls.TreeItem

/-! # Tree items form a forest

`Forest` is what the links between items look like between two operations; a
modification of a children list keeps it. -/
set_option autoImplicit false
namespace OpenJfx.Controls
open OpenJfx.Lib OpenJfx.Collections

namespace TreeItems
variable {N : Type}

/-- The parent of an item is the one that has it as a child; it is a child once;
no item is below itself; and the leaves are the items without children. -/
structure Forest (s : TreeItems N) : Prop where
  parent_iff : ∀ c p, s.parent c = some p ↔ c ∈ s.children p
  nodup : ∀ p, (s.children p).Nodup
  acyclic : Acyclic s.parent
  leaf_iff : ∀ p, s.isLeaf p = (s.children p).isEmpty
  linked_once : ∀ c, s.parentLinkCount c = 0

theorem forest_new : Forest (new : TreeItems N) := by
  refine ⟨by simp [new], by simp [new], ?_, fun _ => rfl, fun _ => rfl⟩
  intro n h
  cases h with
  | single hedge => cases hedge
  | tail _ hedge => cases hedge

structure SameTree (s s' : TreeItems N) : Prop where
  children : s'.children = s.children
  leaf : s'.leaf = s.leaf
  parent : s'.parent = s.parent
  parentLinkCount : s'.parentLinkCount = s.parentLinkCount

theorem SameTree.refl (s : TreeItems N) : SameTree s s := ⟨rfl, rfl, rfl, rfl⟩

theorem SameTree.trans {s t u : TreeItems N} (h : SameTree s t) (h' : SameTree t u) : SameTree s u :=
  ⟨h'.children.trans h.children, h'.leaf.trans h.leaf, h'.parent.trans h.parent,
    h'.parentLinkCount.trans h.parentLinkCount⟩

theorem SameTree.isLeaf {s s' : TreeItems N} (h : SameTree s s') (x : N) : s'.isLeaf x = s.isLeaf x := by
  rw [TreeItems.isLeaf, TreeItems.isLeaf, h.leaf]

theorem SameTree.forest {s s' : TreeItems N} (h : SameTree s s') (hs : Forest s) : Forest s' := by
  refine ⟨?_, ?_, ?_, ?_, ?_⟩
  · rw [h.parent, h.children]
    exact hs.parent_iff
  · rw [h.children]
    exact hs.nodup
  · rw [h.parent]
    exact hs.acyclic
  · intro p
    rw [h.isLeaf, h.children]
    exact hs.leaf_iff p
  · rw [h.parentLinkCount]
    exact hs.linked_once

def isOpen (s : TreeItems N) (x : N) : Bool := !s.isLeaf x && s.isExpanded x

section Outline
variable [Fintype N] {s : TreeItems N}

def outline (h : Forest s) : Outline N where
  children := s.children
  isOpen := s.isOpen
  wellFounded := by
    have hwf := h.acyclic.wellFounded
    simp only [h.parent_iff] at hwf
    exact hwf

theorem isOpen_outline (h : Forest s) (x : N) : (outline h).isOpen x = (!s.isLeaf x && s.isExpanded x) := rfl

theorem outline_isForest (h : Forest s) : (outline h).IsForest where
  nodup := h.nodup
  unique := by
    intro p q c hp hq
    have hparent := ((h.parent_iff c p).mpr hp).symm.trans ((h.parent_iff c q).mpr hq)
    exact Option.some.inj hparent

theorem reaches_of_mem_rows (h : Forest s) {x y : N} (hy : y ∈ (outline h).rows x) : Reaches s.parent y x := by
  have hpath := (outline h).mem_rows_iff_path.mp hy
  rw [← Relation.reflTransGen_swap] at hpath
  refine Relation.ReflTransGen.mono ?_ _ _ hpath
  intro c p hc
  exact (h.parent_iff c p).mpr hc.2

theorem outline_eq {s' : TreeItems N} (h : Forest s) (h' : Forest s') (children : s'.children = s.children)
    (same_open : s'.isOpen = s.isOpen) : outline h' = outline h := by
  simp only [outline, Outline.mk.injEq]
  exact ⟨children, same_open⟩

end Outline

/-! ## Updates of the parents -/

section Parents
variable [DecidableEq N] {s : TreeItems N} {p : N}

theorem updateChildrenParent_none (items : List N) (linked_once : ∀ c, s.parentLinkCount c = 0) :
    s.updateChildrenParent items none = { s with parent := fun c => if c ∈ items then none else s.parent c } := by
  induction items generalizing s with
  | nil => simp [updateChildrenParent]
  | cons item items ih =>
    have hstep : s.updateParent none item = { s with parent := Function.update s.parent item none } := by
      simp only [updateParent, linked_once, if_true]
      rw [if_neg]
      rintro ⟨hne, heq⟩
      exact hne heq
    rw [updateChildrenParent, List.foldl_cons, hstep, ← updateChildrenParent]
    refine (@ih { s with parent := Function.update s.parent item none } linked_once).trans ?_
    congr 1
    funext c
    by_cases hc : c = item
    · subst hc
      simp
    · simp [hc]

theorem updateChildrenParent_some {items : List N} (linked_once : ∀ c, s.parentLinkCount c = 0)
    (nodup : items.Nodup) (other : ∀ c ∈ items, s.parent c ≠ some p) :
    s.updateChildrenParent items (some p) =
      { s with parent := fun c => if c ∈ items then some p else s.parent c } := by
  induction items generalizing s with
  | nil => simp [updateChildrenParent]
  | cons item items ih =>
    obtain ⟨hitem, hnodup⟩ := List.nodup_cons.mp nodup
    have hstep : s.updateParent (some p) item = { s with parent := Function.update s.parent item (some p) } := by
      simp only [updateParent, linked_once, if_true]
      rw [if_neg]
      rintro ⟨-, heq⟩
      exact other item (List.mem_cons_self ..) heq
    have hother : ∀ c ∈ items, Function.update s.parent item (some p) c ≠ some p := by
      intro c hc
      have hne : c ≠ item := fun heq => hitem (heq ▸ hc)
      rw [Function.update_of_ne hne]
      exact other c (List.mem_cons_of_mem _ hc)
    rw [updateChildrenParent, List.foldl_cons, hstep, ← updateChildrenParent]
    refine (@ih { s with parent := Function.update s.parent item (some p) } linked_once hnodup hother).trans ?_
    congr 1
    funext c
    by_cases hc : c = item
    · subst hc
      simp
    · simp [hc]

theorem setLeaf_eq (x : N) (value : Bool) :
    s.setLeaf x value =
      { s with leaf := if value ∧ s.leaf x = none then s.leaf else Function.update s.leaf x (some value) } := by
  rw [setLeaf]
  split
  · rfl
  · rfl

@[simp] theorem setLeaf_children (x : N) (value : Bool) : (s.setLeaf x value).children = s.children := by
  rw [setLeaf_eq]

@[simp] theorem setLeaf_expanded (x : N) (value : Bool) : (s.setLeaf x value).expanded = s.expanded := by
  rw [setLeaf_eq]

@[simp] theorem setLeaf_parent (x : N) (value : Bool) : (s.setLeaf x value).parent = s.parent := by
  rw [setLeaf_eq]

@[simp] theorem setLeaf_parentLinkCount (x : N) (value : Bool) :
    (s.setLeaf x value).parentLinkCount = s.parentLinkCount := by
  rw [setLeaf_eq]

@[simp] theorem setLeaf_count (x : N) (value : Bool) :
    (s.setLeaf x value).expandedDescendentCount = s.expandedDescendentCount := by
  rw [setLeaf_eq]

@[simp] theorem setLeaf_dirty (x : N) (value : Bool) :
    (s.setLeaf x value).expandedDescendentCountDirty = s.expandedDescendentCountDirty := by
  rw [setLeaf_eq]

theorem isLeaf_setLeaf (x : N) (value : Bool) (y : N) :
    (s.setLeaf x value).isLeaf y = if y = x then value else s.isLeaf y := by
  rw [setLeaf]
  split
  · rename_i h
    split
    · rename_i hy
      rw [hy, isLeaf, h.2, h.1]
      rfl
    · rfl
  · by_cases hy : y = x
    · subst hy
      simp [isLeaf]
    · simp [isLeaf, hy]

/-- The parents after a modification of the children of `p`. -/
def movedParent (s : TreeItems N) (p : N) (list : List N) (c : N) : Option N :=
  if c ∈ list then some p else if c ∈ s.children p then none else s.parent c

variable {list : List N} {change : SourceChange N}

theorem movedParent_eq (h : Forest s) {kept removed added : List N} (hold : (s.children p).Perm (kept ++ removed))
    (hnew : list.Perm (kept ++ added)) (c : N) :
    (if c ∈ added then some p else if c ∈ removed then none else s.parent c) = s.movedParent p list c := by
  have hdisjoint := (List.nodup_append.mp (hold.nodup_iff.mp (h.nodup p))).2.2
  simp only [movedParent, hnew.mem_iff, hold.mem_iff, List.mem_append]
  by_cases hadded : c ∈ added
  · rw [if_pos hadded, if_pos (Or.inr hadded)]
  · rw [if_neg hadded]
    by_cases hkept : c ∈ kept
    · have hmem : c ∈ s.children p := hold.mem_iff.mpr (List.mem_append_left _ hkept)
      rw [if_pos (Or.inl hkept), if_neg (fun hr => hdisjoint c hkept c hr rfl)]
      exact (h.parent_iff c p).mpr hmem
    · simp [hadded, hkept]

theorem updateParents_eq {t : TreeItems N} (h : Forest s) (linked_once : ∀ c, t.parentLinkCount c = 0)
    (same_parent : t.parent = s.parent) (nodup : list.Nodup) {kept removed added : List N}
    (hold : (s.children p).Perm (kept ++ removed)) (hnew : list.Perm (kept ++ added)) :
    (t.updateChildrenParent removed none).updateChildrenParent added (some p) =
      { t with parent := s.movedParent p list } := by
  obtain ⟨-, haddedNodup, hdisjoint⟩ := List.nodup_append.mp (hnew.nodup_iff.mp nodup)
  rw [updateChildrenParent_none _ linked_once, updateChildrenParent_some]
  · congr 1
    funext c
    dsimp only
    rw [same_parent]
    exact movedParent_eq h hold hnew c
  · exact linked_once
  · exact haddedNodup
  · -- an item added is not one of the items kept
    intro c hc
    dsimp only
    rw [same_parent]
    split
    · exact fun habs => by cases habs
    · rename_i hremoved
      intro hparent
      rcases List.mem_append.mp (hold.mem_iff.mp ((h.parent_iff c p).mp hparent)) with hkept | hmem
      · exact hdisjoint c hkept c hc rfl
      · exact hremoved hmem

variable [Fintype N]

theorem changeChildren_eq (h : Forest s) (m : Modifies p list change s) :
    s.changeChildren p list change.change =
      { ((s.storeChildren p list).storeDirty p true).setLeaf p list.isEmpty with
        parent := s.movedParent p list }.fireEvent p := by
  obtain ⟨kept, hold, hnew⟩ := m.legal.parts m.permutations
  have hlist : ((s.storeChildren p list).storeDirty p true).children p = list := Function.update_self ..
  rw [changeChildren, updateChildren]
  dsimp only
  rw [setLeaf_children, hlist]
  congr 1
  refine updateParents_eq h ?_ ?_ m.nodup hold hnew
  · rw [setLeaf_parentLinkCount]
    exact h.linked_once
  · rw [setLeaf_parent]
    rfl

omit [Fintype N] in
theorem movedParent_iff (h : Forest s) (m : Modifies p list change s) (c q : N) :
    s.movedParent p list c = some q ↔ c ∈ Function.update s.children p list q := by
  rw [movedParent]
  by_cases hq : q = p
  · subst hq
    rw [Function.update_self]
    by_cases hc : c ∈ list
    · simp [hc]
    · rw [if_neg hc]
      refine iff_of_false ?_ hc
      split
      · exact fun habs => by cases habs
      · rename_i hold
        exact fun hparent => hold ((h.parent_iff c q).mp hparent)
  · rw [Function.update_of_ne hq]
    by_cases hc : c ∈ list
    · rw [if_pos hc]
      refine iff_of_false ?_ (m.single q hq c hc)
      exact fun heq => hq (Option.some.inj heq).symm
    · rw [if_neg hc]
      split
      · rename_i hold
        refine iff_of_false (fun habs => by cases habs) ?_
        intro hmem
        have hparent := ((h.parent_iff c p).mpr hold).symm.trans ((h.parent_iff c q).mpr hmem)
        exact hq (Option.some.inj hparent).symm
      · exact h.parent_iff c q

omit [Fintype N] in
theorem movedParent_acyclic (h : Forest s) (m : Modifies p list change s) : Acyclic (s.movedParent p list) := by
  refine Acyclic.attachAll m.acyclic ?_ h.acyclic
  intro x y hxy
  rw [movedParent] at hxy
  split at hxy
  · rename_i hx
    exact Or.inl ⟨hx, (Option.some.inj hxy).symm⟩
  · split at hxy
    · cases hxy
    · exact Or.inr hxy

theorem Forest.changeChildren (h : Forest s) (m : Modifies p list change s) :
    Forest (s.changeChildren p list change.change) := by
  rw [changeChildren_eq h m]
  have hchildren : (((s.storeChildren p list).storeDirty p true).setLeaf p list.isEmpty).children =
      Function.update s.children p list := setLeaf_children ..
  refine ⟨?_, ?_, movedParent_acyclic h m, ?_, ?_⟩
  · intro c q
    change s.movedParent p list c = some q ↔ c ∈ (setLeaf p list.isEmpty _).children q
    rw [hchildren]
    exact movedParent_iff h m c q
  · intro q
    change ((setLeaf p list.isEmpty _).children q).Nodup
    rw [hchildren]
    by_cases hq : q = p
    · subst hq
      rw [Function.update_self]
      exact m.nodup
    · rw [Function.update_of_ne hq]
      exact h.nodup q
  · intro q
    change (setLeaf p list.isEmpty _).isLeaf q = ((setLeaf p list.isEmpty _).children q).isEmpty
    rw [hchildren, isLeaf_setLeaf]
    by_cases hq : q = p
    · subst hq
      rw [if_pos rfl, Function.update_self]
    · rw [if_neg hq, Function.update_of_ne hq]
      exact h.leaf_iff q
  · intro c
    change (setLeaf p list.isEmpty _).parentLinkCount c = 0
    rw [setLeaf_parentLinkCount]
    exact h.linked_once c

omit [Fintype N] in
theorem reaches_movedParent (h : Forest s) (m : Modifies p list change s) {t : N} (ht : Reaches s.parent p t) :
    Reaches (s.movedParent p list) p t := by
  induction ht with
  | refl => exact Relation.ReflTransGen.refl
  | @tail b c hpath hedge ih =>
    refine ih.tail ?_
    have hlist : b ∉ list := fun hb => m.acyclic b hb hpath
    have hold : b ∉ s.children p := by
      intro hb
      exact h.acyclic p (Relation.TransGen.tail' hpath ((h.parent_iff b p).mpr hb))
    rw [movedParent, if_neg hlist, if_neg hold]
    exact hedge

end Parents
end TreeItems
end OpenJfx.Controls
