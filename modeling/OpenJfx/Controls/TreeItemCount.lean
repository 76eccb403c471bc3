import OpenJfx.Controls.TreeItemForest

/-! # The visible row count of a tree item is never stale

`Fresh` is the invariant of all runs: a count that is not dirty is the number of
rows, and every item in those rows whose expanded property matters has been read
since the property was set.  So a change that fires no event cannot concern a
count that is not dirty. -/
set_option autoImplicit false
namespace OpenJfx.Controls
open OpenJfx.Lib OpenJfx.Collections

namespace TreeItems
variable {N : Type}

/-- The expanded property has been read since it was last set; one that was never
created counts as read. -/
def WasRead (s : TreeItems N) (x : N) : Prop := ∀ p ∈ s.expanded x, p.valid = true

section Invariant
variable [Fintype N]

structure Fresh (s : TreeItems N) : Prop where
  forest : Forest s
  counts : ∀ t, s.expandedDescendentCountDirty t = false → s.expandedDescendentCount t = (outline forest).size t
  read : ∀ t, s.expandedDescendentCountDirty t = false → ∀ y ∈ (outline forest).rows t,
    s.isLeaf y = true ∨ s.WasRead y

theorem fresh_new : Fresh (new : TreeItems N) :=
  ⟨forest_new, fun _ ht => absurd ht (by simp [new]), fun _ ht => absurd ht (by simp [new])⟩

theorem Fresh.of_same {s s' : TreeItems N} (h : Fresh s) (h' : Forest s')
    (dirty : ∀ t, s'.expandedDescendentCountDirty t = false → s.expandedDescendentCountDirty t = false ∧
      s'.expandedDescendentCount t = s.expandedDescendentCount t ∧
      ∀ y ∈ (outline h.forest).rows t, s'.children y = s.children y ∧ s'.isOpen y = s.isOpen y ∧
        (s.isLeaf y = true ∨ s.WasRead y → s'.isLeaf y = true ∨ s'.WasRead y)) : Fresh s' := by
  have hrows : ∀ t, s'.expandedDescendentCountDirty t = false →
      (outline h').rows t = (outline h.forest).rows t := by
    intro t ht
    obtain ⟨-, -, hsame⟩ := dirty t ht
    exact (outline h.forest).rows_congr (fun y hy => (hsame y hy).2.1) (fun y hy => (hsame y hy).1)
  refine ⟨h', ?_, ?_⟩
  · intro t ht
    obtain ⟨hclean, hcount, -⟩ := dirty t ht
    rw [hcount, h.counts t hclean, Outline.size, Outline.size, hrows t ht]
  · intro t ht y hy
    obtain ⟨hclean, -, hsame⟩ := dirty t ht
    rw [hrows t ht] at hy
    exact (hsame y hy).2.2 (h.read t hclean y hy)

end Invariant

section Steps
variable [DecidableEq N] {s : TreeItems N} {x : N}

/-! ## Reading and setting the expanded property -/

@[simp] theorem storeExpanded_expanded (x : N) (p : BooleanProperty) :
    (s.storeExpanded x p).expanded = Function.update s.expanded x (some p) := rfl

@[simp] theorem storeDirty_dirty (x : N) (dirty : Bool) :
    (s.storeDirty x dirty).expandedDescendentCountDirty =
      Function.update s.expandedDescendentCountDirty x dirty := rfl

@[simp] theorem storeCount_count (x : N) (n : Nat) :
    (s.storeCount x n).expandedDescendentCount = Function.update s.expandedDescendentCount x n := rfl

@[simp] theorem isExpanded_storeExpanded (x : N) (p : BooleanProperty) (y : N) :
    (s.storeExpanded x p).isExpanded y = if y = x then p.value else s.isExpanded y := by
  by_cases hy : y = x
  · subst hy
    simp [isExpanded, storeExpanded]
  · simp [isExpanded, storeExpanded, hy]

theorem wasRead_storeExpanded {p : BooleanProperty} {y : N} (hy : y ≠ x) :
    (s.storeExpanded x p).WasRead y ↔ s.WasRead y := by
  rw [WasRead, WasRead, storeExpanded_expanded, Function.update_of_ne hy]

theorem wasRead_valid {p : BooleanProperty} (valid : p.valid = true) : (s.storeExpanded x p).WasRead x := by
  intro q hq
  rw [storeExpanded_expanded, Function.update_self] at hq
  rw [← Option.some.inj hq]
  exact valid

theorem readExpanded_spec (s : TreeItems N) (x : N) :
    ∃ expanded, s.readExpanded x = { s with expanded := expanded } ∧
      (∀ y, (s.readExpanded x).isExpanded y = s.isExpanded y) ∧ (s.readExpanded x).WasRead x ∧
      ∀ y, s.WasRead y → (s.readExpanded x).WasRead y := by
  rw [readExpanded]
  cases hx : s.expanded x with
  | none =>
    refine ⟨s.expanded, rfl, fun _ => rfl, ?_, fun _ h => h⟩
    intro p hp
    rw [hx] at hp
    cases hp
  | some p =>
    refine ⟨_, rfl, ?_, wasRead_valid rfl, ?_⟩
    · intro y
      rw [isExpanded_storeExpanded]
      split
      · rename_i hy
        rw [hy, isExpanded, hx]
        rfl
      · rfl
    · intro y hy
      by_cases hyx : y = x
      · subst hyx
        exact wasRead_valid rfl
      · exact (wasRead_storeExpanded hyx).mpr hy

end Steps

section Events
variable [Fintype N] [DecidableEq N] {s s' : TreeItems N} {x : N}

theorem Fresh.of_expanded (h : Fresh s) (x : N) (same : SameTree s s') (others : ∀ y, y ≠ x → s'.expanded y = s.expanded y)
    (counts : s'.expandedDescendentCount = s.expandedDescendentCount)
    (dirty : ∀ t, s'.expandedDescendentCountDirty t = false → s.expandedDescendentCountDirty t = false)
    (self : ∀ t, s'.expandedDescendentCountDirty t = false → x ∈ (outline h.forest).rows t → s.isLeaf x = false →
      s'.isExpanded x = s.isExpanded x ∧ (s.WasRead x → s'.WasRead x)) : Fresh s' := by
  refine h.of_same (same.forest h.forest) ?_
  intro t ht
  refine ⟨dirty t ht, by rw [counts], ?_⟩
  intro y hy
  refine ⟨by rw [same.children], ?_⟩
  rw [isOpen, isOpen, same.isLeaf]
  by_cases hyx : y = x
  · subst hyx
    cases hleaf : s.isLeaf y with
    | true => exact ⟨rfl, fun _ => Or.inl rfl⟩
    | false =>
      obtain ⟨hexpanded, hread⟩ := self t ht hy hleaf
      rw [hexpanded]
      exact ⟨rfl, fun hor => hor.imp_right hread⟩
  · rw [isExpanded, isExpanded, WasRead, WasRead, others y hyx]
    exact ⟨rfl, id⟩

theorem Fresh.readExpanded (h : Fresh s) (x : N) : Fresh (s.readExpanded x) := by
  obtain ⟨expanded, heq, hexpanded, -, hread⟩ := readExpanded_spec s x
  have hothers : ∀ y, y ≠ x → (s.readExpanded x).expanded y = s.expanded y := by
    intro y hy
    rw [TreeItems.readExpanded]
    split
    · rfl
    · rw [storeExpanded_expanded, Function.update_of_ne hy]
  refine h.of_expanded x ?_ hothers ?_ ?_ ?_
  · rw [heq]
    exact ⟨rfl, rfl, rfl, rfl⟩
  · rw [heq]
  · rw [heq]
    exact fun _ ht => ht
  · exact fun _ _ _ _ => ⟨hexpanded x, hread x⟩

theorem not_shown_of_clean (h : Forest s) {t : N} (ht : (s.fireEvent x).expandedDescendentCountDirty t = false) :
    x ∉ (outline h).rows t := by
  intro hx
  have hmem : t ∈ lineage s.parent x := (mem_lineage h.acyclic).mpr (reaches_of_mem_rows h hx)
  rw [fireEvent] at ht
  simp [hmem] at ht

theorem clean_of_fireEvent {t : N} (ht : (s.fireEvent x).expandedDescendentCountDirty t = false) :
    s.expandedDescendentCountDirty t = false := by
  rw [fireEvent] at ht
  dsimp only at ht
  split at ht
  · cases ht
  · exact ht

theorem Fresh.setExpanded (h : Fresh s) (x : N) (value : Bool) : Fresh (s.setExpanded x value) := by
  rw [TreeItems.setExpanded]
  split
  · exact h
  rw [setProperty]
  -- the property as it is, or as it is created
  obtain ⟨p, hp⟩ : ∃ p, (s.expanded x).getD ⟨false, true⟩ = p := ⟨_, rfl⟩
  rw [hp]
  have hvalue : s.isExpanded x = p.value := by
    rw [← hp, isExpanded]
    cases s.expanded x with
    | none => rfl
    | some q => rfl
  have hothers : ∀ q y, y ≠ x → (s.storeExpanded x q).expanded y = s.expanded y := by
    intro q y hy
    rw [storeExpanded_expanded, Function.update_of_ne hy]
  by_cases hsame : p.value = value
  · rw [if_pos hsame]
    refine h.of_expanded x ⟨rfl, rfl, rfl, rfl⟩ (hothers p) rfl (fun _ ht => ht) ?_
    intro _ _ _ _
    rw [isExpanded_storeExpanded, if_pos rfl, hvalue]
    refine ⟨rfl, ?_⟩
    intro hread
    apply wasRead_valid
    rw [← hp]
    cases hx : s.expanded x with
    | none => rfl
    | some q => exact hread q hx
  rw [if_neg hsame]
  by_cases hvalid : p.valid = true
  · rw [if_pos hvalid, invalidated]
    have hleafEq : (s.storeExpanded x ⟨value, false⟩).isLeaf x = s.isLeaf x := rfl
    rw [hleafEq]
    cases hleaf : s.isLeaf x with
    | true =>
      -- no event, but a leaf shows the same whatever its property says
      rw [if_pos rfl]
      refine h.of_expanded x ⟨rfl, rfl, rfl, rfl⟩ (hothers _) rfl (fun _ ht => ht) ?_
      intro _ _ _ hnot
      rw [hleaf] at hnot
      cases hnot
    | false =>
      rw [if_neg (by simp)]
      obtain ⟨expanded, heq, -, -, -⟩ := readExpanded_spec (s.storeExpanded x ⟨value, false⟩) x
      refine h.of_expanded x ?_ ?_ ?_ ?_ ?_
      · rw [heq]
        exact ⟨rfl, rfl, rfl, rfl⟩
      · intro y hy
        change ((s.storeExpanded x ⟨value, false⟩).readExpanded x).expanded y = s.expanded y
        rw [TreeItems.readExpanded, storeExpanded_expanded, Function.update_self]
        dsimp only
        rw [storeExpanded_expanded, Function.update_of_ne hy, storeExpanded_expanded, Function.update_of_ne hy]
      · rw [heq]
        rfl
      · intro t ht
        have hclean := clean_of_fireEvent ht
        rw [heq] at hclean
        exact hclean
      · intro t ht hx
        exfalso
        rw [heq] at ht
        exact @not_shown_of_clean N _ _ s x h.forest t ht hx
  · -- the property was not read: no clean item shows `x`, unless it is a leaf
    rw [if_neg hvalid]
    refine h.of_expanded x ⟨rfl, rfl, rfl, rfl⟩ (hothers _) rfl (fun _ ht => ht) ?_
    intro t ht hx hleaf
    exfalso
    rcases h.read t ht x hx with habs | hread
    · rw [hleaf] at habs
      cases habs
    · apply hvalid
      rw [← hp]
      cases hexp : s.expanded x with
      | none => rfl
      | some q => exact hread q hexp

theorem Fresh.changeChildren {p : N} {list : List N} {change : SourceChange N} (h : Fresh s)
    (m : Modifies p list change s) : Fresh (s.changeChildren p list change.change) := by
  refine h.of_same (h.forest.changeChildren m) ?_
  intro t ht
  rw [changeChildren_eq h.forest m] at ht ⊢
  have hclean := clean_of_fireEvent ht
  change (setLeaf p list.isEmpty _).expandedDescendentCountDirty t = false at hclean
  rw [setLeaf_dirty] at hclean
  have hne : t ≠ p := by
    intro heq
    rw [heq, storeDirty_dirty, Function.update_self] at hclean
    cases hclean
  have hnot : p ∉ (outline h.forest).rows t := by
    intro hp
    have hmem : t ∈ lineage (s.movedParent p list) p :=
      (mem_lineage (movedParent_acyclic h.forest m)).mpr
        (reaches_movedParent h.forest m (reaches_of_mem_rows h.forest hp))
    simp [fireEvent, hmem] at ht
  refine ⟨?_, ?_, ?_⟩
  · rw [storeDirty_dirty, Function.update_of_ne hne] at hclean
    exact hclean
  · change (setLeaf p list.isEmpty _).expandedDescendentCount t = _
    rw [setLeaf_count]
    rfl
  · intro y hy
    have hyp : y ≠ p := fun heq => hnot (heq ▸ hy)
    have hleaf : (setLeaf p list.isEmpty ((s.storeChildren p list).storeDirty p true)).isLeaf y = s.isLeaf y := by
      rw [isLeaf_setLeaf, if_neg hyp]
      rfl
    have hexpanded : (setLeaf p list.isEmpty ((s.storeChildren p list).storeDirty p true)).expanded = s.expanded := by
      rw [setLeaf_expanded]
      rfl
    refine ⟨?_, ?_, ?_⟩
    · change (setLeaf p list.isEmpty ((s.storeChildren p list).storeDirty p true)).children y = _
      rw [setLeaf_children]
      exact Function.update_of_ne hyp ..
    · change (!isLeaf (setLeaf p list.isEmpty _) y && isExpanded (setLeaf p list.isEmpty _) y) = _
      rw [hleaf, isExpanded, hexpanded]
      rfl
    · intro hor
      change isLeaf (setLeaf p list.isEmpty _) y = true ∨ WasRead (setLeaf p list.isEmpty _) y
      rw [hleaf, WasRead, hexpanded]
      exact hor

end Events

/-! ## Counting -/

/-- What a query changes: counts, marks that items are clean, and marks that
properties were read.  `shown` are the items that it visits. -/
structure Counted (shown : List N) (s s' : TreeItems N) : Prop where
  tree : SameTree s s'
  expanded : ∀ y, s'.isExpanded y = s.isExpanded y
  read : ∀ y, s.WasRead y → s'.WasRead y
  dirty : ∀ y, s.expandedDescendentCountDirty y = false → s'.expandedDescendentCountDirty y = false
  outside : ∀ y, y ∉ shown → s'.expandedDescendentCount y = s.expandedDescendentCount y ∧
    s'.expandedDescendentCountDirty y = s.expandedDescendentCountDirty y

section Relation
variable {s t u : TreeItems N} {shown : List N}

theorem Counted.refl (shown : List N) (s : TreeItems N) : Counted shown s s :=
  ⟨SameTree.refl s, fun _ => rfl, fun _ h => h, fun _ h => h, fun _ _ => ⟨rfl, rfl⟩⟩

theorem Counted.trans (h : Counted shown s t) (h' : Counted shown t u) : Counted shown s u where
  tree := h.tree.trans h'.tree
  expanded := fun y => (h'.expanded y).trans (h.expanded y)
  read := fun y hy => h'.read y (h.read y hy)
  dirty := fun y hy => h'.dirty y (h.dirty y hy)
  outside := by
    intro y hy
    obtain ⟨hcount, hdirty⟩ := h.outside y hy
    obtain ⟨hcount', hdirty'⟩ := h'.outside y hy
    exact ⟨hcount'.trans hcount, hdirty'.trans hdirty⟩

theorem Counted.mono {more : List N} (h : Counted shown s t) (sub : ∀ y ∈ shown, y ∈ more) : Counted more s t :=
  ⟨h.tree, h.expanded, h.read, h.dirty, fun y hy => h.outside y (fun hmem => hy (sub y hmem))⟩

theorem Counted.outline [Fintype N] (h : Counted shown s t) (hs : Fresh s) (ht : Fresh t) :
    TreeItems.outline ht.forest = TreeItems.outline hs.forest := by
  refine outline_eq hs.forest ht.forest h.tree.children ?_
  funext y
  rw [isOpen, isOpen, h.tree.isLeaf, h.expanded]

theorem counted_readExpanded [DecidableEq N] (s : TreeItems N) (x : N) : Counted shown s (s.readExpanded x) := by
  obtain ⟨expanded, heq, hexpanded, -, hread⟩ := readExpanded_spec s x
  refine ⟨?_, hexpanded, hread, ?_, ?_⟩
  · rw [heq]
    exact ⟨rfl, rfl, rfl, rfl⟩
  · rw [heq]
    exact fun _ h => h
  · rw [heq]
    exact fun _ _ => ⟨rfl, rfl⟩

theorem counted_storeCount [DecidableEq N] {x : N} (hx : x ∈ shown) (n : Nat) : Counted shown s (s.storeCount x n) := by
  refine ⟨⟨rfl, rfl, rfl, rfl⟩, fun _ => rfl, fun _ h => h, fun _ h => h, ?_⟩
  intro y hy
  have hne : y ≠ x := fun heq => hy (heq ▸ hx)
  rw [storeCount_count, Function.update_of_ne hne]
  exact ⟨rfl, rfl⟩

theorem counted_storeClean [DecidableEq N] {x : N} (hx : x ∈ shown) : Counted shown s (s.storeDirty x false) := by
  refine ⟨⟨rfl, rfl, rfl, rfl⟩, fun _ => rfl, fun _ h => h, ?_, ?_⟩
  · intro y hy
    by_cases hyx : y = x
    · subst hyx
      rw [storeDirty_dirty, Function.update_self]
    · rw [storeDirty_dirty, Function.update_of_ne hyx]
      exact hy
  · intro y hy
    have hyx : y ≠ x := fun heq => hy (heq ▸ hx)
    rw [storeDirty_dirty, Function.update_of_ne hyx]
    exact ⟨rfl, rfl⟩

theorem counted_start [DecidableEq N] {x : N} (hx : x ∈ shown) (previous : Nat) :
    Counted shown s ((s.storePrevious x previous).storeCount x 1) := by
  refine ⟨⟨rfl, rfl, rfl, rfl⟩, fun _ => rfl, fun _ h => h, fun _ h => h, ?_⟩
  intro y hy
  have hne : y ≠ x := fun heq => hy (heq ▸ hx)
  rw [storeCount_count, Function.update_of_ne hne]
  exact ⟨rfl, rfl⟩

end Relation

section Counting
variable [Fintype N] [DecidableEq N] {s : TreeItems N} {x : N}

theorem Fresh.storeCount (h : Fresh s) (dirty : s.expandedDescendentCountDirty x = true) (n : Nat) :
    Fresh (s.storeCount x n) := by
  have hsame : SameTree s (s.storeCount x n) := ⟨rfl, rfl, rfl, rfl⟩
  refine h.of_same (hsame.forest h.forest) ?_
  intro t ht
  have hclean : s.expandedDescendentCountDirty t = false := ht
  have hne : t ≠ x := by
    intro heq
    rw [heq, dirty] at hclean
    cases hclean
  rw [storeCount_count, Function.update_of_ne hne]
  exact ⟨hclean, rfl, fun _ _ => ⟨rfl, rfl, fun hor => hor⟩⟩

theorem Fresh.storeClean (h : Fresh s) (count : s.expandedDescendentCount x = (outline h.forest).size x)
    (read : ∀ y ∈ (outline h.forest).rows x, s.isLeaf y = true ∨ s.WasRead y) : Fresh (s.storeDirty x false) := by
  have hsame : SameTree s (s.storeDirty x false) := ⟨rfl, rfl, rfl, rfl⟩
  have hforest := hsame.forest h.forest
  have houtline : outline hforest = outline h.forest := outline_eq h.forest hforest rfl rfl
  refine ⟨hforest, ?_, ?_⟩
  · intro t ht
    rw [houtline]
    by_cases htx : t = x
    · subst htx
      exact count
    · rw [storeDirty_dirty, Function.update_of_ne htx] at ht
      exact h.counts t ht
  · intro t ht
    rw [houtline]
    by_cases htx : t = x
    · subst htx
      exact read
    · rw [storeDirty_dirty, Function.update_of_ne htx] at ht
      exact h.read t ht

theorem addCounts_spec {count : N → TreeItems N → Outcome TreeFault (TreeItems N)} (o : Outline N)
    (hopen : o.isOpen x = true) {children : List N} (sub : ∀ c ∈ children, c ∈ o.children x)
    (spec : ∀ c ∈ o.children x, ∀ t, (ht : Fresh t) → outline ht.forest = o → ∃ t', count c t = .done t' ∧ Fresh t' ∧
      Counted (o.rows c) t t' ∧ t'.expandedDescendentCountDirty c = false)
    (h : Fresh s) (ho : outline h.forest = o) (dirty : s.expandedDescendentCountDirty x = true) :
    ∃ s', addCounts count x children s = .done s' ∧ Fresh s' ∧ Counted (o.rows x) s s' ∧
      s'.expandedDescendentCountDirty x = true ∧
      s'.expandedDescendentCount x = s.expandedDescendentCount x + (children.map o.size).sum ∧
      ∀ c ∈ children, s'.WasRead c ∧ (s'.isExpanded c = true → s'.expandedDescendentCountDirty c = false) := by
  induction children generalizing s with
  | nil => exact ⟨s, rfl, h, Counted.refl _ s, dirty, by simp, by simp⟩
  | cons c children ih =>
    have hc := sub c (List.mem_cons_self ..)
    have hnotx : x ∉ o.rows c := o.not_mem_rows_child hc
    have hxmem : x ∈ o.rows x := o.self_mem_rows x
    have hsubRows : ∀ y ∈ o.rows c, y ∈ o.rows x :=
      fun y hy => o.mem_rows_iff.mpr (Or.inr ⟨hopen, c, hc, hy⟩)
    obtain ⟨expanded, hreadEq, hexp, hwas, -⟩ := readExpanded_spec s c
    have hread : Counted (o.rows x) s (s.readExpanded c) := counted_readExpanded s c
    have hfresh := h.readExpanded c
    have hdirtyRead : (s.readExpanded c).expandedDescendentCountDirty x = true := by
      rw [hreadEq]
      exact dirty
    have houtlineRead : outline hfresh.forest = o := (hread.outline h hfresh).trans ho
    -- the state after this child
    obtain ⟨t, hstep, ht, hcounted, htdirty, htcount, htread, htclean⟩ : ∃ t,
        (let sum := s.expandedDescendentCount x
        let s := s.readExpanded c
        if s.isExpanded c then (count c s).map fun s => s.storeCount x (sum + s.expandedDescendentCount c)
        else .done (s.storeCount x (sum + 1))) = .done t ∧ Fresh t ∧ Counted (o.rows x) s t ∧
        t.expandedDescendentCountDirty x = true ∧
        t.expandedDescendentCount x = s.expandedDescendentCount x + o.size c ∧ t.WasRead c ∧
        (t.isExpanded c = true → t.expandedDescendentCountDirty c = false) := by
      dsimp only
      by_cases hc' : (s.readExpanded c).isExpanded c = true
      · rw [if_pos hc']
        obtain ⟨t', hcount, ht', hcounted', hclean'⟩ := spec c hc _ hfresh houtlineRead
        rw [hcount, Outcome.map_done]
        have houtside := hcounted'.outside x hnotx
        have hdirty' : t'.expandedDescendentCountDirty x = true := houtside.2.trans hdirtyRead
        have houtline' : outline ht'.forest = o := (hcounted'.outline hfresh ht').trans houtlineRead
        refine ⟨_, rfl, ht'.storeCount hdirty' _, ?_, hdirty', ?_, ?_, fun _ => hclean'⟩
        · exact (hread.trans (hcounted'.mono hsubRows)).trans (counted_storeCount hxmem _)
        · rw [storeCount_count, Function.update_self, ht'.counts c hclean', houtline']
        · exact hcounted'.read c hwas
      · rw [if_neg hc']
        refine ⟨_, rfl, hfresh.storeCount hdirtyRead _, hread.trans (counted_storeCount hxmem _), hdirtyRead, ?_,
          hwas, fun habs => absurd habs hc'⟩
        have hclosed : o.isOpen c = false := by
          rw [← houtlineRead]
          change (!(s.readExpanded c).isLeaf c && (s.readExpanded c).isExpanded c) = false
          rw [Bool.not_eq_true] at hc'
          rw [hc', Bool.and_false]
        rw [storeCount_count, Function.update_self, o.size_closed hclosed]
    have houtline : outline ht.forest = o := (hcounted.outline h ht).trans ho
    obtain ⟨u, hrun, hu, hcounted', hudirty, hucount, huread⟩ :=
      ih (fun d hd => sub d (List.mem_cons_of_mem _ hd)) ht houtline htdirty
    refine ⟨u, ?_, hu, hcounted.trans hcounted', hudirty, ?_, ?_⟩
    · rw [addCounts, Outcome.run_cons, hstep]
      exact hrun
    · rw [hucount, htcount, List.map_cons, List.sum_cons, Nat.add_assoc]
    · intro d hd
      rcases List.mem_cons.mp hd with rfl | hd
      · refine ⟨hcounted'.read d htread, ?_⟩
        rw [hcounted'.expanded]
        exact fun hexp => hcounted'.dirty d (htclean hexp)
      · exact huread d hd

theorem Fresh.start (h : Fresh s) (dirty : s.expandedDescendentCountDirty x = true) (previous : Nat) :
    Fresh ((s.storePrevious x previous).storeCount x 1) := by
  have hsame : SameTree s (s.storePrevious x previous) := ⟨rfl, rfl, rfl, rfl⟩
  have hfresh : Fresh (s.storePrevious x previous) :=
    h.of_same (hsame.forest h.forest) (fun _ ht => ⟨ht, rfl, fun _ _ => ⟨rfl, rfl, id⟩⟩)
  exact hfresh.storeCount dirty 1

theorem updateExpandedDescendentCount_spec {count : N → TreeItems N → Outcome TreeFault (TreeItems N)}
    (o : Outline N)
    (spec : ∀ c ∈ o.children x, ∀ t, (ht : Fresh t) → outline ht.forest = o → ∃ t', count c t = .done t' ∧ Fresh t' ∧
      Counted (o.rows c) t t' ∧ t'.expandedDescendentCountDirty c = false)
    (h : Fresh s) (ho : outline h.forest = o) (dirty : s.expandedDescendentCountDirty x = true) :
    ∃ u, updateExpandedDescendentCount count x s = .done u ∧ Fresh u ∧ Counted (o.rows x) s u ∧
      u.expandedDescendentCount x = o.size x ∧ ∀ y ∈ o.rows x, u.isLeaf y = true ∨ u.WasRead y := by
  have hself := o.self_mem_rows x
  obtain ⟨t, hteq⟩ : ∃ t, (s.storePrevious x (s.expandedDescendentCount x)).storeCount x 1 = t := ⟨_, rfl⟩
  have ht : Fresh t := hteq ▸ h.start dirty _
  have hcounted : Counted (o.rows x) s t := hteq ▸ counted_start hself _
  have hstart : t.expandedDescendentCount x = 1 := by
    rw [← hteq, storeCount_count, Function.update_self]
  have htdirty : t.expandedDescendentCountDirty x = true := by
    rw [← hteq]
    exact dirty
  rw [updateExpandedDescendentCount]
  dsimp only
  rw [hteq]
  by_cases hleaf : t.isLeaf x = true
  · have hclosed : o.isOpen x = false := by
      rw [← ho, ← hcounted.outline h ht, isOpen_outline, hleaf, Bool.not_true, Bool.false_and]
    rw [if_pos hleaf]
    refine ⟨t, rfl, ht, hcounted, by rw [hstart, o.size_closed hclosed], ?_⟩
    intro y hy
    rw [o.rows_closed hclosed, List.mem_singleton] at hy
    exact Or.inl (hy ▸ hleaf)
  rw [if_neg hleaf]
  have hread := ht.readExpanded x
  have hreadCounted : Counted (o.rows x) s (t.readExpanded x) := hcounted.trans (counted_readExpanded t x)
  obtain ⟨expanded, hreadEq, -, hwas, -⟩ := readExpanded_spec t x
  have hreadOutline : outline hread.forest = o := (hreadCounted.outline h hread).trans ho
  have hreadCount : (t.readExpanded x).expandedDescendentCount x = 1 := by
    rw [hreadEq]
    exact hstart
  have hreadDirty : (t.readExpanded x).expandedDescendentCountDirty x = true := by
    rw [hreadEq]
    exact htdirty
  have hreadLeaf : (t.readExpanded x).isLeaf x = false := by
    rw [hreadEq]
    exact Bool.eq_false_of_not_eq_true hleaf
  have hreadOpen : o.isOpen x = (t.readExpanded x).isExpanded x := by
    rw [← hreadOutline, isOpen_outline, hreadLeaf, Bool.not_false, Bool.true_and]
  cases hexpanded : (t.readExpanded x).isExpanded x with
  | false =>
    rw [hexpanded] at hreadOpen
    rw [if_neg (by simp)]
    refine ⟨_, rfl, hread, hreadCounted, by rw [hreadCount, o.size_closed hreadOpen], ?_⟩
    intro y hy
    rw [o.rows_closed hreadOpen, List.mem_singleton] at hy
    exact Or.inr (hy ▸ hwas)
  | true =>
    rw [hexpanded] at hreadOpen
    rw [if_pos rfl]
    have hchildren : (t.readExpanded x).children = o.children := by
      rw [← hreadOutline]
      rfl
    rw [hchildren]
    obtain ⟨u, hrun, hu, hsum, -, hucount, huread⟩ :=
      addCounts_spec o hreadOpen (fun c hc => hc) spec hread hreadOutline hreadDirty
    have hsu := hreadCounted.trans hsum
    have huo : outline hu.forest = o := (hsu.outline h hu).trans ho
    refine ⟨u, hrun, hu, hsu, by rw [hucount, hreadCount, o.size_open hreadOpen], ?_⟩
    intro y hy
    rcases o.mem_rows_iff.mp hy with rfl | ⟨-, c, hc, hyc⟩
    · exact Or.inr (hsum.read y hwas)
    · -- a child is clean, or it is closed and was read
      obtain ⟨hcread, hcclean⟩ := huread c hc
      by_cases hcexp : u.isExpanded c = true
      · rw [← huo] at hyc
        exact hu.read c (hcclean hcexp) y hyc
      · have hclosed : o.isOpen c = false := by
          rw [Bool.not_eq_true] at hcexp
          rw [← huo, isOpen_outline, hcexp, Bool.and_false]
        rw [o.rows_closed hclosed, List.mem_singleton] at hyc
        exact Or.inr (hyc ▸ hcread)

omit [DecidableEq N] in
theorem parent_eq_of_outline {t : TreeItems N} (h : Forest s) (ht : Forest t) (same : outline ht = outline h) :
    t.parent = s.parent := by
  have hchildren : t.children = s.children := congrArg Outline.children same
  funext c
  apply Option.ext
  intro q
  rw [ht.parent_iff, h.parent_iff, hchildren]

theorem countWithin_spec {depth : Nat} (h : Fresh s)
    (enough : Fintype.card N < depth + (lineage s.parent x).length) :
    ∃ s', countWithin false depth x s = .done s' ∧ Fresh s' ∧ Counted ((outline h.forest).rows x) s s' ∧
      s'.expandedDescendentCountDirty x = false := by
  induction depth generalizing s x with
  | zero =>
    have hle := lineage_length_le h.forest.acyclic x
    omega
  | succ depth ih =>
    rw [countWithin, Bool.false_or]
    cases hdirty : s.expandedDescendentCountDirty x with
    | false => exact ⟨s, rfl, h, Counted.refl _ s, hdirty⟩
    | true =>
      obtain ⟨u, hrun, hu, hcounted, hcount, hread⟩ :=
        @updateExpandedDescendentCount_spec N _ _ s x (countWithin false depth) (outline h.forest) (by
          intro c hc t ht hto
          have hlink : s.parent c = some x := (h.forest.parent_iff c x).mpr hc
          rw [← hto]
          refine ih ht ?_
          rw [parent_eq_of_outline h.forest ht.forest hto, lineage_of_link h.forest.acyclic hlink,
            List.length_cons]
          omega) h rfl hdirty
      rw [if_pos rfl, hrun, Outcome.map_done]
      have houtline := hcounted.outline h hu
      rw [← houtline] at hcount hread
      refine ⟨_, rfl, hu.storeClean hcount hread,
        hcounted.trans (counted_storeClean (Outline.self_mem_rows _ x)), ?_⟩
      rw [storeDirty_dirty, Function.update_self]

theorem getExpandedDescendentCount_spec (h : Fresh s) (x : N) :
    ∃ s', s.getExpandedDescendentCount false x = .done s' ∧ Fresh s' ∧
      Counted ((outline h.forest).rows x) s s' ∧ s'.expandedDescendentCount x = (outline h.forest).size x := by
  obtain ⟨s', hrun, hs', hcounted, hclean⟩ := @countWithin_spec N _ _ s x (Fintype.card N + 1) h (by omega)
  refine ⟨s', hrun, hs', hcounted, ?_⟩
  rw [hs'.counts x hclean, hcounted.outline h hs']

end Counting

/-! ## Runs -/

section Runs
variable [Fintype N] [DecidableEq N]

theorem Fresh.perform {s : TreeItems N} (h : Fresh s) {op : Op N} (allowed : Allowed op s) :
    ∃ s', perform op s = .done s' ∧ Fresh s' := by
  cases op with
  | setExpanded x value => exact ⟨_, rfl, h.setExpanded x value⟩
  | isExpanded x => exact ⟨_, rfl, h.readExpanded x⟩
  | changeChildren p list change => exact ⟨_, rfl, h.changeChildren allowed⟩
  | getExpandedDescendentCount x =>
    obtain ⟨s', hrun, hs', -, -⟩ := getExpandedDescendentCount_spec h x
    exact ⟨s', hrun, hs'⟩

theorem fresh_run {ops : List (Op N)} (allowed : Outcome.Along Allowed TreeItems.perform ops new) :
    ∃ s, Outcome.run TreeItems.perform ops (new : TreeItems N) = .done s ∧ Fresh s :=
  Outcome.run_total Fresh Allowed TreeItems.perform (fun _ _ h allowed => h.perform allowed) ops new fresh_new allowed

/-- The number of rows that every item stands for: one for an item without
children or a collapsed one, else one more than its children stand for. -/
def VisibleCounts (s : TreeItems N) (visible : N → Nat) : Prop :=
  ∀ t, visible t =
    if s.children t = [] ∨ s.isExpanded t = false then 1 else 1 + ((s.children t).map visible).sum

omit [DecidableEq N] in
theorem visibleCounts_size {s : TreeItems N} (h : Forest s) : VisibleCounts s (outline h).size := by
  intro t
  have hopen : (outline h).isOpen t = (!(s.children t).isEmpty && s.isExpanded t) := by
    rw [← h.leaf_iff]
    rfl
  split
  · rename_i hclosed
    refine Outline.size_closed _ ?_
    rw [hopen]
    rcases hclosed with hnil | hcollapsed
    · rw [hnil]
      rfl
    · rw [hcollapsed, Bool.and_false]
  · rename_i hnot
    refine Outline.size_open _ ?_
    rw [hopen]
    simpa using hnot

/-- After every sequence of operations a query returns, and what it returns is
the visible count of the tree as it is now. -/
theorem count_never_stale (ops : List (Op N)) (allowed : Outcome.Along Allowed TreeItems.perform ops new) :
    ∃ s, Outcome.run TreeItems.perform ops (new : TreeItems N) = .done s ∧
      ∃ visible, VisibleCounts s visible ∧
        ∀ t, ∃ s', s.getExpandedDescendentCount false t = .done s' ∧ s'.expandedDescendentCount t = visible t := by
  obtain ⟨s, hrun, hs⟩ := fresh_run allowed
  refine ⟨s, hrun, (outline hs.forest).size, visibleCounts_size hs.forest, ?_⟩
  intro t
  obtain ⟨s', hquery, -, -, hcount⟩ := getExpandedDescendentCount_spec hs t
  exact ⟨s', hquery, hcount⟩

/-- Two items are added, the first one is expanded while it is a leaf and gets a
child, and the top item is expanded. -/
theorem count_never_stale_expanded_leaf : ∃ s, Outcome.run TreeItems.perform
      [.changeChildren 0 [1, 2] ⟨[], [⟨0, 2, some [], [], false⟩], []⟩, .setExpanded 1 true,
        .changeChildren 1 [3] ⟨[], [⟨0, 1, some [], [], false⟩], []⟩, .setExpanded 0 true]
      (new : TreeItems (Fin 4)) = .done s ∧
    ∃ visible, VisibleCounts s visible ∧
      ∀ t, ∃ s', s.getExpandedDescendentCount false t = .done s' ∧ s'.expandedDescendentCount t = visible t := by
  refine count_never_stale _ ⟨?_, fun t ht => ⟨trivial, fun u hu => ⟨?_, fun v hv => ⟨trivial, fun _ _ => trivial⟩⟩⟩⟩
  · refine ⟨⟨by decide, by decide, [], rfl, replay_turns_zero.mp (by decide)⟩, by decide, by decide, by decide, ?_⟩
    intro c hc hreach
    rcases Relation.ReflTransGen.cases_head hreach with rfl | ⟨d, hd, -⟩
    · exact absurd hc (by decide)
    · cases hd
  · cases ht
    cases hu
    refine ⟨⟨by decide, by decide, [], ?_, replay_turns_zero.mp (by decide)⟩, by decide, by decide, by decide, ?_⟩
    · rfl
    · intro c hc hreach
      rw [List.mem_singleton.mp hc] at hreach
      have habove : (3 : Fin 4) ∈ ascend _ 3 1 := mem_ascend_of_reaches (by decide) hreach
      revert habove
      decide

end Runs
end TreeItems
end OpenJfx.Controls
