import OpenJfx.Controls.TreeItemCount

/-! # `TreeUtil`

Rows and items of the tree below a root.  The functions read expanded properties
and counts, so they return the changed items with their result. -/
set_option autoImplicit false
namespace OpenJfx.Controls
open OpenJfx.Lib OpenJfx.Collections

namespace TreeItems
variable {N : Type}

section Functions
variable [Fintype N] [DecidableEq N]

/-- `getExpandedDescendantCount` of an item that is not null. -/
def getExpandedDescendantCount (node : N) (treeItemCountDirty : Bool) (s : TreeItems N) : Except TreeFault (Nat × TreeItems N) :=
  if s.isLeaf node then .ok (1, s)
  else match s.getExpandedDescendentCount treeItemCountDirty node with
    | .done s => .ok (s.expandedDescendentCount node, s)
    | .thrown fault _ => .error fault

/-- The loop over the children in `getItem`; `getItem` is the recursive call. -/
def itemAmong (getItem : N → Int → TreeItems N → Except TreeFault (Option N × TreeItems N)) (treeItemCountDirty : Bool) :
    List N → Int → TreeItems N → Except TreeFault (Option N × TreeItems N)
  | [], _, s => .ok (none, s)
  | child :: rest, idx, s =>
      if idx = 0 then .ok (some child, s)
      else if s.isLeaf child then itemAmong getItem treeItemCountDirty rest (idx - 1) s
      else
        let s := s.readExpanded child
        if !s.isExpanded child then itemAmong getItem treeItemCountDirty rest (idx - 1) s
        else do
          let (expandedChildCount, s) ← getExpandedDescendantCount child treeItemCountDirty s
          if idx ≥ expandedChildCount then
            itemAmong getItem treeItemCountDirty rest (idx - expandedChildCount) s
          else do
            let (result, s) ← getItem child idx s
            match result with
            | some item => .ok (some item, s)
            | none => itemAmong getItem treeItemCountDirty rest (idx - 1) s

def itemWithin (treeItemCountDirty : Bool) : Nat → N → Int → TreeItems N → Except TreeFault (Option N × TreeItems N)
  | 0, _, _, _ => .error .stackOverflow
  | depth + 1, parent, itemIndex, s =>
      if itemIndex = 0 then .ok (some parent, s)
      else do
        let (count, s) ← getExpandedDescendantCount parent treeItemCountDirty s
        if itemIndex ≥ count then .ok (none, s)
        else itemAmong (itemWithin treeItemCountDirty depth) treeItemCountDirty (s.children parent) (itemIndex - 1) s

def getItem (parent : Option N) (itemIndex : Int) (treeItemCountDirty : Bool) (s : TreeItems N) :
    Except TreeFault (Option N × TreeItems N) :=
  match parent with
  | none => .ok (none, s)
  | some parent => itemWithin treeItemCountDirty (Fintype.card N + 1) parent itemIndex s

/-- The loop over the siblings in front of an item, from the nearest one on.  It
goes on with a row or ends the search with a result. -/
def rowAmong (root : N) (treeItemCountDirty isShowRoot : Bool) :
    List N → Int → TreeItems N → Except TreeFault ((Int ⊕ Int) × TreeItems N)
  | [], row, s => .ok (.inl row, s)
  | sibling :: rest, row, s => do
      let (count, s) ← getExpandedDescendantCount sibling treeItemCountDirty s
      let row := row + count
      if sibling = root then
        if !isShowRoot then .ok (.inr (-1), s) else .ok (.inr row, s)
      else rowAmong root treeItemCountDirty isShowRoot rest row s

/-- The siblings in front of an item, the nearest one first. -/
def siblingsBefore (siblings : List N) (i : N) : List N :=
  match siblings.idxOf? i with
  | some itemIndex => (siblings.take itemIndex).reverse
  | none => []

/-- The loop of `getRow` with its variables `i`, `p` and `row`. -/
def rowFrom (root : N) (treeItemCountDirty isShowRoot : Bool) :
    Nat → N → Option N → Int → TreeItems N → Except TreeFault (Int × TreeItems N)
  | 0, _, _, _, _ => .error .stackOverflow
  | fuel + 1, i, p, row, s =>
      match (if i = root then none else p) with
      | none => .ok (if p = none ∧ row = 0 then -1 else if isShowRoot then row else row - 1, s)
      | some q =>
          let s := s.readExpanded q
          if !s.isExpanded q then .ok (-1, s)
          else do
            let (found, s) ← rowAmong root treeItemCountDirty isShowRoot (siblingsBefore (s.children q) i) row s
            match found with
            | .inr result => .ok (result, s)
            | .inl row =>
                if s.parent q = none ∧ q ≠ root then .ok (-1, s)
                else rowFrom root treeItemCountDirty isShowRoot fuel q (s.parent q) (row + 1) s

def getRow (item : Option N) (root : N) (treeItemCountDirty isShowRoot : Bool) (s : TreeItems N) : Except TreeFault (Int × TreeItems N) :=
  match item with
  | none => .ok (-1, s)
  | some item =>
      if isShowRoot ∧ item = root then .ok (0, s)
      else rowFrom root treeItemCountDirty isShowRoot (Fintype.card N + 1) item (s.parent item) 0 s

end Functions

/-! ## The state as the outline of a tree -/

/-- Everything that the functions look at is in the outline. -/
structure Views [Fintype N] (o : Outline N) (s : TreeItems N) : Prop where
  fresh : Fresh s
  same : outline fresh.forest = o

section Views
variable [Fintype N] {o : Outline N} {s : TreeItems N} (v : Views o s)
include v

theorem Views.isForest : o.IsForest := v.same ▸ outline_isForest v.fresh.forest

theorem Views.children : s.children = o.children := by
  rw [← v.same]
  rfl

theorem Views.parent_iff {c q : N} : s.parent c = some q ↔ c ∈ o.children q := by
  rw [← v.children]
  exact v.fresh.forest.parent_iff c q

theorem Views.isOpen (x : N) : o.isOpen x = (!s.isLeaf x && s.isExpanded x) := by
  rw [← v.same, isOpen_outline]

theorem Views.isExpanded {c q : N} (hc : c ∈ o.children q) : s.isExpanded q = o.isOpen q := by
  have hleaf : s.isLeaf q = false := by
    rw [v.fresh.forest.leaf_iff, v.children, List.isEmpty_eq_false_iff]
    exact List.ne_nil_of_mem hc
  rw [v.isOpen, hleaf, Bool.not_false, Bool.true_and]

theorem Views.readExpanded [DecidableEq N] (x : N) : Views o (s.readExpanded x) :=
  ⟨v.fresh.readExpanded x, ((@counted_readExpanded N [] _ s x).outline v.fresh (v.fresh.readExpanded x)).trans v.same⟩

theorem Views.getExpandedDescendantCount [DecidableEq N] (x : N) :
    ∃ s', s.getExpandedDescendantCount x false = .ok (o.size x, s') ∧ Views o s' := by
  rw [TreeItems.getExpandedDescendantCount]
  cases hleaf : s.isLeaf x with
  | true =>
    have hclosed : o.isOpen x = false := by
      rw [v.isOpen, hleaf]
      rfl
    exact ⟨s, by rw [if_pos rfl, o.size_closed hclosed], v⟩
  | false =>
    obtain ⟨s', hrun, hs', hcounted, hcount⟩ := getExpandedDescendentCount_spec v.fresh x
    rw [if_neg (by simp), hrun]
    refine ⟨s', ?_, hs', (hcounted.outline v.fresh hs').trans v.same⟩
    dsimp only
    rw [hcount, v.same]

end Views

/-! ## `getItem` -/

section Items
variable [Fintype N] [DecidableEq N] {o : Outline N}

theorem itemAmong_spec {getItem : N → Int → TreeItems N → Except TreeFault (Option N × TreeItems N)} {children : List N}
    (spec : ∀ c ∈ children, ∀ (k : Nat) t, Views o t → ∃ t', getItem c k t = .ok ((o.rows c)[k]?, t') ∧ Views o t')
    (k : Nat) {s : TreeItems N} (v : Views o s) :
    ∃ s', itemAmong getItem false children k s = .ok ((children.flatMap o.rows)[k]?, s') ∧ Views o s' := by
  induction children generalizing k s with
  | nil => exact ⟨s, rfl, v⟩
  | cons c children ih =>
    have ih' := fun k {s} => @ih (fun d hd => spec d (List.mem_cons_of_mem _ hd)) k s
    rw [itemAmong, List.flatMap_cons]
    cases k with
    | zero =>
      refine ⟨s, ?_, v⟩
      rw [if_pos Nat.cast_zero, o.rows_eq]
      rfl
    | succ k =>
      have hpred : ((k + 1 : Nat) : Int) - 1 = k := by omega
      rw [if_neg (by omega)]
      -- a closed child has one row
      have closed : ∀ t, Views o t → o.isOpen c = false →
          ∃ s', itemAmong getItem false children (((k + 1 : Nat) : Int) - 1) t =
            .ok ((o.rows c ++ children.flatMap o.rows)[k + 1]?, s') ∧ Views o s' := by
        intro t ht hclosed
        rw [hpred, o.rows_closed hclosed]
        exact ih' k ht
      cases hleaf : s.isLeaf c with
      | true =>
        rw [if_pos rfl]
        refine closed s v ?_
        rw [v.isOpen, hleaf]
        rfl
      | false =>
        rw [if_neg (by simp)]
        dsimp only
        have hread := v.readExpanded c
        have hopen : o.isOpen c = (s.readExpanded c).isExpanded c := by
          obtain ⟨expanded, heq, hexpanded, -⟩ := readExpanded_spec s c
          rw [hexpanded, v.isOpen, hleaf, Bool.not_false, Bool.true_and]
        cases hexpanded : (s.readExpanded c).isExpanded c with
        | false =>
          rw [if_pos (by rfl)]
          exact closed _ hread (hopen.trans hexpanded)
        | true =>
          rw [if_neg (by simp)]
          obtain ⟨t, hcount, ht⟩ := hread.getExpandedDescendantCount c
          rw [hcount]
          change ∃ s', (if ((k + 1 : Nat) : Int) ≥ (o.size c : Nat) then _ else _) = _ ∧ _
          by_cases hge : o.size c ≤ k + 1
          · rw [if_pos (by omega), List.getElem?_append_right hge]
            have hsub : ((k + 1 : Nat) : Int) - (o.size c : Nat) = ((k + 1 - o.size c : Nat) : Int) := by omega
            rw [hsub]
            exact ih' _ ht
          · rw [if_neg (by omega)]
            obtain ⟨u, hitem, hu⟩ := spec c (List.mem_cons_self ..) (k + 1) t ht
            have hlt : k + 1 < (o.rows c).length := by
              rw [Outline.size] at hge
              omega
            refine ⟨u, ?_, hu⟩
            rw [hitem, List.getElem?_append_left hlt, List.getElem?_eq_getElem hlt]
            rfl

theorem itemWithin_spec {depth : Nat} {x : N} (k : Nat) {s : TreeItems N} (v : Views o s)
    (enough : Fintype.card N < depth + (lineage s.parent x).length) :
    ∃ s', itemWithin false depth x k s = .ok ((o.rows x)[k]?, s') ∧ Views o s' := by
  induction depth generalizing x k s with
  | zero =>
    have hle := lineage_length_le v.fresh.forest.acyclic x
    omega
  | succ depth ih =>
    rw [itemWithin]
    cases k with
    | zero =>
      refine ⟨s, ?_, v⟩
      rw [o.rows_eq]
      rfl
    | succ k =>
      rw [if_neg (by omega)]
      obtain ⟨t, hcount, ht⟩ := v.getExpandedDescendantCount x
      rw [hcount]
      change ∃ s', (if ((k + 1 : Nat) : Int) ≥ (o.size x : Nat) then _ else _) = _ ∧ _
      by_cases hge : o.size x ≤ k + 1
      · rw [if_pos (by omega)]
        exact ⟨t, by rw [List.getElem?_eq_none (by rw [Outline.size] at hge; exact hge)], ht⟩
      · rw [if_neg (by omega)]
        have hpred : ((k + 1 : Nat) : Int) - 1 = k := by omega
        have hopen : o.isOpen x = true := by
          by_contra hclosed
          rw [o.size_closed (Bool.eq_false_of_not_eq_true hclosed)] at hge
          omega
        rw [hpred, o.rows_open hopen, List.getElem?_cons_succ, ht.children]
        refine itemAmong_spec ?_ k ht
        intro c hc j u hu
        refine ih j hu ?_
        have hlink : s.parent c = some x := v.parent_iff.mpr hc
        rw [parent_eq_of_outline v.fresh.forest hu.fresh.forest (hu.same.trans v.same.symm),
          lineage_of_link v.fresh.forest.acyclic hlink, List.length_cons]
        omega

theorem getItem_spec {s : TreeItems N} (v : Views o s) (x : N) (k : Nat) :
    ∃ s', getItem (some x) k false s = .ok ((o.rows x)[k]?, s') ∧ Views o s' :=
  itemWithin_spec k v (by omega)

end Items
end TreeItems
end OpenJfx.Controls
