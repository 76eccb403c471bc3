import OpenJfx.Controls.TreeUtil

/-! # Rows and tree items

`getRow` climbs from an item to the root and adds up the counts of the siblings
in front; the sum is the row of the item below the item reached so far.  The
climb also ends at a root that is met among those siblings: then the item is
behind the root, not below it. -/
set_option autoImplicit false
namespace OpenJfx.Controls
open OpenJfx.Lib OpenJfx.Collections

namespace TreeItems
variable {N : Type} [Fintype N] [DecidableEq N]

section Siblings
variable {o : Outline N} {r : N} {isShowRoot : Bool}

omit [Fintype N] in
theorem siblingsBefore_eq {before after : List N} {i : N} (notBefore : i ∉ before) :
    siblingsBefore (before ++ i :: after) i = before.reverse := by
  have hidx : (before ++ i :: after).idxOf? i = some before.length := by
    rw [List.idxOf?, List.findIdx?_append, List.findIdx?_eq_none_iff.mpr, List.findIdx?_cons]
    · simp
    · intro b hb
      rw [beq_eq_false_iff_ne]
      exact fun heq => notBefore (heq ▸ hb)
  rw [siblingsBefore, hidx]
  dsimp only
  rw [List.take_left' rfl]

theorem rowAmong_passes {siblings : List N} (other : r ∉ siblings) (row : Int) {s : TreeItems N} (v : Views o s) :
    ∃ s', rowAmong r false isShowRoot siblings row s =
      .ok (.inl (row + ((siblings.map o.size).sum : Nat)), s') ∧ Views o s' := by
  induction siblings generalizing row s with
  | nil => exact ⟨s, by simp [rowAmong], v⟩
  | cons sibling rest ih =>
    obtain ⟨hne, hrest⟩ := not_or.mp (mt List.mem_cons.mpr other)
    obtain ⟨t, hcount, ht⟩ := v.getExpandedDescendantCount sibling
    obtain ⟨u, hrun, hu⟩ := ih hrest (row + (o.size sibling : Nat)) ht
    refine ⟨u, ?_, hu⟩
    rw [rowAmong, hcount]
    change (if sibling = r then _ else _) = _
    rw [if_neg (fun heq => hne heq.symm), hrun, List.map_cons, List.sum_cons, Nat.cast_add, Int.add_assoc]

theorem rowAmong_meets {siblings : List N} (found : r ∈ siblings) {row : Int} (nonneg : 0 ≤ row) {s : TreeItems N}
    (v : Views o s) : ∃ result s', rowAmong r false isShowRoot siblings row s = .ok (.inr result, s') ∧
      Views o s' ∧ if isShowRoot then 1 ≤ result else result = -1 := by
  induction siblings generalizing row s with
  | nil => cases found
  | cons sibling rest ih =>
    obtain ⟨t, hcount, ht⟩ := v.getExpandedDescendantCount sibling
    have hpos := o.size_pos sibling
    rw [rowAmong, hcount]
    change ∃ result s', (if sibling = r then _ else _) = _ ∧ _
    by_cases hr : sibling = r
    · rw [if_pos hr]
      cases isShowRoot with
      | true => exact ⟨_, t, rfl, ht, by rw [if_pos rfl]; omega⟩
      | false => exact ⟨_, t, rfl, ht, by simp⟩
    · rw [if_neg hr]
      exact ih ((List.mem_cons.mp found).resolve_left (fun heq => hr heq.symm)) (by omega) ht

end Siblings

/-! ## The climb -/

/-- `j` stands behind the root `r` among the children of an open item. -/
def StandsBehind (o : Outline N) (r j : N) : Prop :=
  ∃ q before mid after, o.children q = before ++ r :: (mid ++ j :: after) ∧ o.isOpen q = true

/-- What `getRow` returns: the row of a shown item, something positive when a
shown root stands in front of the item, else `-1`. -/
structure RowResult (o : Outline N) (r : N) (isShowRoot : Bool) (x : N) (row : Int) : Prop where
  shown : ∀ k : Nat, (o.rows r)[k]? = some x → row = if isShowRoot then (k : Int) else k - 1
  behind : isShowRoot = true → (∃ j, StandsBehind o r j ∧ x ∈ o.rows j) → 1 ≤ row
  absent : x ∉ o.rows r → ¬(isShowRoot = true ∧ ∃ j, StandsBehind o r j ∧ x ∈ o.rows j) → row = -1

section Climb
variable {o : Outline N} {r x : N} {isShowRoot : Bool}

omit [Fintype N] [DecidableEq N] in
theorem parent_mem_rows (forest : o.IsForest) {a i q : N} (hi : i ∈ o.rows a) (ne : i ≠ a) (hq : i ∈ o.children q) :
    q ∈ o.rows a ∧ o.isOpen q = true := by
  rcases Relation.ReflTransGen.cases_tail (o.mem_rows_iff_path.mp hi) with heq | ⟨b, hpath, hopen, hb⟩
  · exact absurd heq ne
  · rw [forest.unique q b i hq hb]
    exact ⟨o.mem_rows_iff_path.mpr hpath, hopen⟩

omit [Fintype N] [DecidableEq N] in
theorem not_mem_rows_of_behind (forest : o.IsForest) {j : N} (behind : StandsBehind o r j) (hx : x ∈ o.rows j) :
    x ∉ o.rows r := by
  obtain ⟨q, before, mid, after, hchildren, -⟩ := behind
  intro hr
  have heq := forest.disjoint_siblings (p := q) (by rw [hchildren]; simp) (by rw [hchildren]; simp) hr hx
  have hnodup := forest.nodup q
  rw [hchildren, heq] at hnodup
  simp [List.nodup_append] at hnodup

omit [Fintype N] [DecidableEq N] in
theorem rowResult_none (absent : x ∉ o.rows r) (notBehind : ¬∃ j, StandsBehind o r j ∧ x ∈ o.rows j) :
    RowResult o r isShowRoot x (-1) :=
  ⟨fun _ hk => absurd (List.mem_of_getElem? hk) absent, fun _ hb => absurd hb notBehind, fun _ _ => rfl⟩

omit [Fintype N] in
theorem mem_before (forest : o.IsForest) {q i : N} {before after : List N} (hchildren : o.children q = before ++ i :: after)
    (behind : StandsBehind o r i) : r ∈ before := by
  obtain ⟨q', before', mid, after', hchildren', -⟩ := behind
  have hq : q' = q := forest.unique q' q i (by rw [hchildren']; simp) (by rw [hchildren]; simp)
  rw [hq, hchildren] at hchildren'
  have hnodup := forest.nodup q
  rw [hchildren] at hnodup
  have hfirst : i ∉ before := fun hi => (List.nodup_append.mp hnodup).2.2 i hi i (by simp) rfl
  rw [hchildren'] at hnodup
  have hsplit : before' ++ r :: (mid ++ i :: after') = (before' ++ r :: mid) ++ i :: after' := by simp
  rw [hsplit] at hchildren' hnodup
  have hfirst' : i ∉ before' ++ r :: mid := fun hi => (List.nodup_append.mp hnodup).2.2 i hi i (by simp) rfl
  have hidx := congrArg (List.idxOf i) hchildren'
  rw [List.idxOf_append_of_notMem hfirst, List.idxOf_append_of_notMem hfirst', List.idxOf_cons_self,
    List.idxOf_cons_self] at hidx
  rw [(List.append_inj hchildren' (by omega)).1]
  simp

/-- How far the climb from `x` has come: it has passed neither the root nor an
item behind the root. -/
structure Climbing (o : Outline N) (r x i : N) : Prop where
  below : x ∈ o.rows r → i ∈ o.rows r
  behind : ∀ j, StandsBehind o r j → x ∈ o.rows j → i ∈ o.rows j

section Climbing
variable {i q : N} (climb : Climbing o r x i) (other : i ≠ r)
include climb other

theorem Climbing.at_top {s : TreeItems N} (v : Views o s) (top : s.parent i = none) :
    RowResult o r isShowRoot x (-1) := by
  have noParent : ∀ a, i ∈ o.rows a → i ≠ a → False := by
    intro a ha hne
    rcases Relation.ReflTransGen.cases_tail (o.mem_rows_iff_path.mp ha) with heq | ⟨b, -, -, hb⟩
    · exact hne heq
    · rw [v.parent_iff.mpr hb] at top
      cases top
  refine rowResult_none (fun hx => noParent r (climb.below hx) other) ?_
  rintro ⟨j, hj, hxj⟩
  by_cases hij : i = j
  · obtain ⟨b, before, mid, after, hchildren, -⟩ := hj
    have hb : i ∈ o.children b := by
      rw [hchildren, hij]
      simp
    rw [v.parent_iff.mpr hb] at top
    cases top
  · exact noParent j (climb.behind j hj hxj) hij

omit [Fintype N] [DecidableEq N] in
theorem Climbing.below_collapsed (forest : o.IsForest) (hq : i ∈ o.children q) (closed : o.isOpen q = false) :
    RowResult o r isShowRoot x (-1) := by
  have hclosed : ∀ a, i ∈ o.rows a → i ≠ a → False := by
    intro a ha hne
    have habs := (parent_mem_rows forest ha hne hq).2
    rw [closed] at habs
    cases habs
  refine rowResult_none (fun hx => hclosed r (climb.below hx) other) ?_
  rintro ⟨j, hj, hxj⟩
  by_cases hij : i = j
  · obtain ⟨b, before, mid, after, hchildren, hopen⟩ := hj
    have hb : b = q := forest.unique b q i (by rw [hchildren, hij]; simp) hq
    rw [hb, closed] at hopen
    cases hopen
  · exact hclosed j (climb.behind j hj hxj) hij

omit [Fintype N] [DecidableEq N] in
theorem Climbing.parent (forest : o.IsForest) (hq : i ∈ o.children q) (notBehind : ¬StandsBehind o r i) :
    Climbing o r x q := by
  refine ⟨fun hx => (parent_mem_rows forest (climb.below hx) other hq).1, ?_⟩
  intro j hj hxj
  have hij : i ≠ j := fun heq => notBehind (heq ▸ hj)
  exact (parent_mem_rows forest (climb.behind j hj hxj) hij hq).1

end Climbing

omit [Fintype N] [DecidableEq N] in
theorem rowResult_root (forest : o.IsForest) {p : Option N} {row : Nat} (hrow : (o.rows r)[row]? = some x)
    (notRoot : isShowRoot = true → x ≠ r) :
    RowResult o r isShowRoot x
      (if p = none ∧ (row : Int) = 0 then -1 else if isShowRoot then (row : Int) else row - 1) := by
  refine ⟨?_, ?_, fun habs => absurd (List.mem_of_getElem? hrow) habs⟩
  · intro k hk
    have hkr := forest.row_unique hk hrow
    subst hkr
    by_cases hzero : p = none ∧ (k : Int) = 0
    · have hxr : x = r := by
        have hk0 : k = 0 := by omega
        rw [hk0, o.rows_eq] at hk
        exact (Option.some.inj hk).symm
      rw [if_pos hzero]
      cases isShowRoot with
      | true => exact absurd hxr (notRoot rfl)
      | false =>
        rw [hzero.2]
        rfl
    · rw [if_neg hzero]
  · rintro - ⟨j, hj, hxj⟩
    exact absurd (List.mem_of_getElem? hrow) (not_mem_rows_of_behind forest hj hxj)

theorem rowFrom_spec {fuel : Nat} {i : N} {row : Nat} {s : TreeItems N} (v : Views o s)
    (enough : (lineage s.parent i).length ≤ fuel) (hrow : (o.rows i)[row]? = some x) (climb : Climbing o r x i)
    (start : s.parent i = none → i ≠ r → row = 0) (notRoot : isShowRoot = true → x ≠ r) :
    ∃ result s', rowFrom r false isShowRoot fuel i (s.parent i) row s = .ok (result, s') ∧ Views o s' ∧
      RowResult o r isShowRoot x result := by
  have forest := v.isForest
  induction fuel generalizing i row s with
  | zero => simp [lineage, ascend] at enough
  | succ fuel ih =>
    rw [rowFrom]
    by_cases hir : i = r
    · subst hir
      rw [if_pos rfl]
      exact ⟨_, s, rfl, v, rowResult_root forest hrow notRoot⟩
    rw [if_neg hir]
    cases hp : s.parent i with
    | none =>
      refine ⟨-1, s, ?_, v, climb.at_top hir v hp⟩
      rw [start hp hir]
      rfl
    | some q =>
      have hq : i ∈ o.children q := v.parent_iff.mp hp
      have hread := v.readExpanded q
      dsimp only
      rw [hread.isExpanded hq]
      cases hopen : o.isOpen q with
      | false => exact ⟨-1, _, rfl, hread, climb.below_collapsed hir forest hq hopen⟩
      | true =>
        rw [if_neg (by simp), hread.children]
        obtain ⟨before, after, hchildren⟩ := List.append_of_mem hq
        have hnodup := forest.nodup q
        rw [hchildren] at hnodup
        have hfirst : i ∉ before := fun hi => (List.nodup_append.mp hnodup).2.2 i hi i (by simp) rfl
        rw [hchildren, siblingsBefore_eq hfirst]
        by_cases hmeets : r ∈ before
        · have hbehind : StandsBehind o r i := by
            obtain ⟨front, mid, hbefore⟩ := List.append_of_mem hmeets
            exact ⟨q, front, mid, after, by rw [hchildren, hbefore]; simp, hopen⟩
          have hxi := List.mem_of_getElem? hrow
          obtain ⟨result, t, hrun, ht, hresult⟩ :=
            @rowAmong_meets N _ _ o r isShowRoot before.reverse (List.mem_reverse.mpr hmeets) row (by omega)
              _ hread
          refine ⟨result, t, by rw [hrun]; rfl, ht, ?_, ?_, ?_⟩
          · intro k hk
            exact absurd (List.mem_of_getElem? hk) (not_mem_rows_of_behind forest hbehind hxi)
          · intro hshow _
            rwa [if_pos hshow] at hresult
          · intro _ hnot
            have hhidden : isShowRoot ≠ true := fun hshow => hnot ⟨hshow, i, hbehind, hxi⟩
            rwa [if_neg hhidden] at hresult
        · obtain ⟨t, hrun, ht⟩ := @rowAmong_passes N _ _ o r isShowRoot before.reverse
            (fun hmem => hmeets (List.mem_reverse.mp hmem)) row _ hread
          have hclimb := climb.parent hir forest hq (fun hj => hmeets (mem_before forest hchildren hj))
          rw [hrun]
          change ∃ result s', (if t.parent q = none ∧ q ≠ r then _ else _) = _ ∧ _
          by_cases htop : t.parent q = none ∧ q ≠ r
          · rw [if_pos htop]
            exact ⟨-1, t, rfl, ht, hclimb.at_top htop.2 ht htop.1⟩
          · rw [if_neg htop]
            have hparent : t.parent = s.parent :=
              parent_eq_of_outline v.fresh.forest ht.fresh.forest (ht.same.trans v.same.symm)
            rw [lineage_of_link v.fresh.forest.acyclic hp, List.length_cons] at enough
            have hcast : (row : Int) + ((before.reverse.map o.size).sum : Nat) + 1 =
                ((row + (before.map o.size).sum + 1 : Nat) : Int) := by
              rw [List.map_reverse, List.sum_reverse]
              push_cast
              rfl
            rw [hcast]
            refine ih ht (by rw [hparent]; omega) (o.row_of_child hopen hchildren hrow) hclimb ?_
            intro hnone hne
            exact absurd ⟨hnone, hne⟩ htop

theorem getRow_spec {s : TreeItems N} (v : Views o s) (r x : N) (isShowRoot : Bool) :
    ∃ result s', getRow (some x) r false isShowRoot s = .ok (result, s') ∧ Views o s' ∧
      RowResult o r isShowRoot x result := by
  have forest := v.isForest
  rw [getRow]
  by_cases hroot : isShowRoot = true ∧ x = r
  · obtain ⟨hshow, hx⟩ := hroot
    subst hx
    have hfirst : (o.rows x)[0]? = some x := by
      rw [o.rows_eq]
      rfl
    refine ⟨0, s, by simp [hshow], v, ?_, ?_, fun habs => absurd (o.self_mem_rows x) habs⟩
    · intro k hk
      rw [if_pos hshow, forest.row_unique hk hfirst]
      rfl
    · rintro - ⟨j, hj, hxj⟩
      exact absurd (o.self_mem_rows x) (not_mem_rows_of_behind forest hj hxj)
  · rw [if_neg hroot]
    refine @rowFrom_spec N _ _ o r x isShowRoot _ x 0 s v ?_ (by rw [o.rows_eq]; rfl) ⟨id, fun _ _ h => h⟩ (fun _ _ => rfl) ?_
    · exact (lineage_length_le v.fresh.forest.acyclic x).trans (Nat.le_succ _)
    · exact fun hshow hx => hroot ⟨hshow, hx⟩

end Climb

/-! ## The claim about both functions -/

section Bijection
variable {s : TreeItems N}

/-- The item is not below `r`, or an item in between is collapsed. -/
def NotShown (s : TreeItems N) (r x : N) : Prop :=
  ¬Reaches s.parent x r ∨ ∃ q, q ≠ x ∧ Reaches s.parent x q ∧ Reaches s.parent q r ∧ s.isExpanded q = false

/-- The item is at or below a later sibling of `r`, and all items above it up to
the common parent are expanded. -/
def BehindRoot (s : TreeItems N) (r x : N) : Prop :=
  ∃ q before mid j after, s.children q = before ++ r :: (mid ++ j :: after) ∧ s.isExpanded q = true ∧
    Relation.ReflTransGen (fun p c => s.isExpanded p = true ∧ c ∈ s.children p) j x

/-- The number of rows below `r`, with or without the row of `r`. -/
def shownRows (visible : N → Nat) (r : N) (isShowRoot : Bool) : Nat := if isShowRoot then visible r else visible r - 1

def RowsMatch (s : TreeItems N) (visible : N → Nat) (r x : N) (isShowRoot : Bool) : Prop :=
  ∃ row s₁, getRow (some x) r false isShowRoot s = .ok (row, s₁) ∧
    (∀ k : Nat, ∃ item s₂, getItem (some r) (if isShowRoot then k else k + 1) false s = .ok (item, s₂) ∧
      (row = k ↔ item = some x ∧ k < shownRows visible r isShowRoot)) ∧
    (NotShown s r x → row = -1)

section Shown
variable {o : Outline N} {r x : N} (v : Views o s)
include v

omit [DecidableEq N] in
theorem Views.reaches (hx : x ∈ o.rows r) : Reaches s.parent x r := by
  rw [← v.same] at hx
  exact reaches_of_mem_rows v.fresh.forest hx

omit [DecidableEq N] in
theorem Views.expanded_above (hx : x ∈ o.rows r) {q : N} (hq : q ≠ x) (hxq : Reaches s.parent x q)
    (hqr : Reaches s.parent q r) : s.isExpanded q = true := by
  induction hxq using Relation.ReflTransGen.head_induction_on with
  | refl => exact absurd rfl hq
  | @head x m hm hmq ih =>
    rcases Relation.ReflTransGen.cases_tail (o.mem_rows_iff_path.mp hx) with heq | ⟨b, hpath, hopen, hb⟩
    · -- `r` would be below itself
      subst heq
      have hcycle : Relation.TransGen (fun x y => s.parent x = some y) x x :=
        Relation.TransGen.head' hm (hmq.trans hqr)
      exact absurd hcycle (v.fresh.forest.acyclic x)
    · have hbm : b = m := Option.some.inj ((v.parent_iff.mpr hb).symm.trans hm)
      subst hbm
      by_cases hqb : q = b
      · rw [hqb, v.isExpanded hb]
        exact hopen
      · exact ih (o.mem_rows_iff_path.mpr hpath) hqb

omit [DecidableEq N] in
theorem Views.not_mem_rows (h : NotShown s r x) : x ∉ o.rows r := by
  intro hx
  rcases h with hout | ⟨q, hne, hxq, hqr, hcollapsed⟩
  · exact hout (v.reaches hx)
  · rw [v.expanded_above hx hne hxq hqr] at hcollapsed
    cases hcollapsed

omit [DecidableEq N] in
theorem Views.behind_iff : BehindRoot s r x ↔ ∃ j, StandsBehind o r j ∧ x ∈ o.rows j := by
  have hstep : (fun p c => s.isExpanded p = true ∧ c ∈ s.children p) =
      fun p c => o.isOpen p = true ∧ c ∈ o.children p := by
    funext p c
    rw [v.children]
    apply propext
    constructor
    · rintro ⟨hexp, hc⟩
      exact ⟨v.isExpanded hc ▸ hexp, hc⟩
    · rintro ⟨hopen, hc⟩
      exact ⟨(v.isExpanded hc).trans hopen, hc⟩
  rw [BehindRoot, hstep, v.children]
  constructor
  · rintro ⟨q, before, mid, j, after, hchildren, hexp, hpath⟩
    have hj : j ∈ o.children q := by
      rw [hchildren]
      simp
    exact ⟨j, ⟨q, before, mid, after, hchildren, v.isExpanded hj ▸ hexp⟩, o.mem_rows_iff_path.mpr hpath⟩
  · rintro ⟨j, ⟨q, before, mid, after, hchildren, hopen⟩, hx⟩
    have hj : j ∈ o.children q := by
      rw [hchildren]
      simp
    exact ⟨q, before, mid, j, after, hchildren, (v.isExpanded hj).trans hopen, o.mem_rows_iff_path.mp hx⟩

omit [DecidableEq N] in
theorem Views.visible_eq {visible : N → Nat} (counts : VisibleCounts s visible) : visible = o.size := by
  have hsize := visibleCounts_size v.fresh.forest
  rw [v.same] at hsize
  funext x
  induction x using o.wellFounded.induction with
  | _ x ih =>
    rw [counts x, hsize x]
    split
    · rfl
    · rw [List.map_congr_left (fun c hc => ih c (by rw [← v.children]; exact hc))]

theorem Views.rowsMatch_iff {visible : N → Nat} (counts : VisibleCounts s visible) (isShowRoot : Bool) :
    RowsMatch s visible r x isShowRoot ↔ ¬(isShowRoot = true ∧ BehindRoot s r x) := by
  have forest := v.isForest
  rw [v.behind_iff]
  obtain ⟨row, s₁, hrow, -, hresult⟩ := getRow_spec v r x isShowRoot
  have hitem : ∀ k : Nat, ∃ s₂, getItem (some r) (if isShowRoot then (k : Int) else k + 1) false s =
      .ok ((o.rows r)[if isShowRoot then k else k + 1]?, s₂) := by
    intro k
    cases isShowRoot with
    | true =>
      obtain ⟨s₂, hrun, -⟩ := getItem_spec v r k
      exact ⟨s₂, hrun⟩
    | false =>
      obtain ⟨s₂, hrun, -⟩ := getItem_spec v r (k + 1)
      exact ⟨s₂, hrun⟩
  constructor
  · rintro ⟨row', s₁', hrow', hmatch, -⟩ ⟨hshow, hbehind⟩
    rw [hrow] at hrow'
    cases hrow'
    have hpos := hresult.behind hshow hbehind
    obtain ⟨j, hj, hxj⟩ := hbehind
    obtain ⟨item, s₂, hget, hiff⟩ := hmatch row.toNat
    obtain ⟨s₃, hget'⟩ := hitem row.toNat
    rw [hget'] at hget
    cases hget
    have hsome := (hiff.mp (by omega)).1
    exact not_mem_rows_of_behind forest hj hxj (List.mem_of_getElem? hsome)
  · intro hnot
    refine ⟨row, s₁, hrow, ?_, fun h => hresult.absent (v.not_mem_rows h) hnot⟩
    intro k
    obtain ⟨s₂, hget⟩ := hitem k
    refine ⟨_, s₂, hget, ?_⟩
    have hshown : shownRows visible r isShowRoot =
        if isShowRoot then (o.rows r).length else (o.rows r).length - 1 := by
      rw [shownRows, v.visible_eq counts]
      rfl
    rw [hshown]
    by_cases hx : x ∈ o.rows r
    · obtain ⟨n, hn⟩ := List.getElem?_of_mem hx
      have hlt := (List.getElem?_eq_some_iff.mp hn).1
      rw [hresult.shown n hn]
      cases isShowRoot with
      | true =>
        simp only [if_true]
        constructor
        · intro heq
          have hnk : n = k := by omega
          subst hnk
          exact ⟨hn, hlt⟩
        · rintro ⟨hk, -⟩
          rw [forest.row_unique hn hk]
      | false =>
        simp only [Bool.false_eq_true, if_false]
        constructor
        · intro heq
          have hnk : n = k + 1 := by omega
          subst hnk
          exact ⟨hn, by omega⟩
        · rintro ⟨hk, -⟩
          rw [forest.row_unique hn hk]
          omega
    · rw [hresult.absent hx hnot]
      constructor
      · intro habs
        omega
      · rintro ⟨hk, -⟩
        exact absurd (List.mem_of_getElem? hk) hx

end Shown

/-- After every sequence of operations, rows and items correspond to each other
for every root and every item, unless the root is shown and the item is shown
behind it in a tree that both belong to. -/
theorem rows_match_items (ops : List (Op N)) (allowed : Outcome.Along Allowed perform ops new) :
    ∃ s visible, Outcome.run perform ops (new : TreeItems N) = .done s ∧ VisibleCounts s visible ∧
      ∀ r x isShowRoot, RowsMatch s visible r x isShowRoot ↔ ¬(isShowRoot = true ∧ BehindRoot s r x) := by
  obtain ⟨s, hrun, hs⟩ := fresh_run allowed
  have hcounts := visibleCounts_size hs.forest
  have hviews : Views (outline hs.forest) s := ⟨hs, rfl⟩
  exact ⟨s, _, hrun, hcounts, fun r x isShowRoot => hviews.rowsMatch_iff hcounts isShowRoot⟩

def twoChildren : List (Op (Fin 3)) :=
  [.changeChildren 0 [1, 2] ⟨[], [⟨0, 2, some [], [], false⟩], []⟩, .setExpanded 0 true]

theorem twoChildren_allowed : Outcome.Along Allowed perform twoChildren new := by
  refine ⟨?_, fun t ht => ⟨trivial, fun _ _ => trivial⟩⟩
  refine ⟨⟨by decide, by decide, [], rfl, replay_turns_zero.mp (by decide)⟩, by decide, by decide, by decide, ?_⟩
  intro c hc hreach
  rcases Relation.ReflTransGen.cases_head hreach with rfl | ⟨d, hd, -⟩
  · exact absurd hc (by decide)
  · cases hd

theorem rows_match_items_two : ∃ s visible, Outcome.run perform twoChildren new = .done s ∧ VisibleCounts s visible ∧
    ∀ r x isShowRoot, RowsMatch s visible r x isShowRoot ↔ ¬(isShowRoot = true ∧ BehindRoot s r x) :=
  rows_match_items twoChildren twoChildren_allowed

/-- With the first of them as a shown root, the second one is reported at row `1`
of a tree that has one row and does not contain it. -/
theorem later_sibling_of_root_has_row :
    Outcome.Along Allowed perform twoChildren new ∧
    ∃ s, Outcome.run perform twoChildren new = .done s ∧
      ¬Reaches s.parent 2 1 ∧ (getRow (some 2) 1 false true s).map Prod.fst = .ok 1 ∧
      (getItem (some 1) 1 false s).map Prod.fst = .ok none := by
  refine ⟨twoChildren_allowed, _, rfl, ?_, rfl, rfl⟩
  intro hreach
  have habove : (1 : Fin 3) ∈ ascend _ 3 2 := mem_ascend_of_reaches (by decide) hreach
  revert habove
  decide

end Bijection
end TreeItems
end OpenJfx.Controls
