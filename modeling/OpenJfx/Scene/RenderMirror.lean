import OpenJfx.Lib.Arrays
import OpenJfx.Scene.RenderTree

/-! # The render tree mirrors the scene graph

`Pending` is the invariant between synchronizations: the peer has the children in
front of `startIdx`, and what is not dirty is up to date. -/
set_option autoImplicit false
namespace OpenJfx.Scene

open Lib
open Collections (SubChange)

section Scripts
variable {α : Type}

/-- An element of the new list comes from the old one or was added by an edit.
`front` is the part of the new list in front of the script. -/
theorem turns_mem {es : List (Edit α)} {front xs ys : List α} (h : Turns front.length es xs ys) {x : α}
    (hx : x ∈ ys) : x ∈ xs ∨ ∃ e ∈ es, x ∈ ((front ++ ys).take e.hi.toNat).drop e.lo.toNat := by
  induction es generalizing front xs ys with
  | nil =>
    have heq : xs = ys := h
    exact Or.inl (heq ▸ hx)
  | cons e es ih =>
    obtain ⟨kept, added, xs', ys', rfl, rfl, hlo, hhi, hrest⟩ := h
    rcases List.mem_append.mp hx with hkept | hx
    · exact Or.inl (List.mem_append_left _ hkept)
    rcases List.mem_append.mp hx with hadded | hx
    · refine Or.inr ⟨e, List.mem_cons_self, ?_⟩
      have hlo' : e.lo.toNat = (front ++ kept).length := by
        rw [List.length_append]
        omega
      have hhi' : e.hi.toNat = (front ++ kept ++ added).length := by
        rw [List.length_append, List.length_append]
        omega
      have hlist : front ++ (kept ++ (added ++ ys')) = (front ++ kept ++ added) ++ ys' := by simp
      rw [hlist, hhi', List.take_left, hlo', List.drop_left]
      exact hadded
    · have hfront : e.hi = ((front ++ kept ++ added).length : Int) := by
        simp only [List.length_append]
        push_cast
        omega
      rw [hfront] at hrest
      rcases ih hrest hx with hold | ⟨f, hf, hmem⟩
      · exact Or.inl (List.mem_append_right _ (List.mem_append_right _ hold))
      · refine Or.inr ⟨f, List.mem_cons_of_mem _ hf, ?_⟩
        have hlist : front ++ (kept ++ (added ++ ys')) = (front ++ kept ++ added) ++ ys' := by simp
        rw [hlist]
        exact hmem

theorem turns_trivial {es : List (Edit α)} {p : Int} {xs ys : List α} (h : Turns p es xs ys)
    (htrivial : ∀ e ∈ es, e.old = [] ∧ e.hi ≤ e.lo) : xs = ys := by
  induction es generalizing p xs ys with
  | nil => exact h
  | cons e es ih =>
    obtain ⟨kept, added, xs', ys', rfl, rfl, hlo, hhi, hrest⟩ := h
    obtain ⟨hold, hle⟩ := htrivial e List.mem_cons_self
    have hadded : added = [] := by
      apply List.eq_nil_of_length_eq_zero
      omega
    rw [hold, hadded, ih hrest (fun f hf => htrivial f (List.mem_cons_of_mem _ hf))]

end Scripts

namespace RenderedParent
variable {N V P : Type} [DecidableEq N] [LinearOrder V] [Zero V]

section ViewOrder
variable {viewOrder : N → V} {children : List N}

omit [DecidableEq N] in
theorem viewOrdered_eq_nil : viewOrdered viewOrder children = [] ↔ ∀ n ∈ children, viewOrder n = 0 := by
  unfold viewOrdered
  split
  · rename_i hset
    constructor
    · intro hnil
      have hlength : (sortByViewOrder viewOrder children).length = 0 := by rw [hnil]; rfl
      rw [sortByViewOrder, List.length_insertionSort] at hlength
      rw [List.eq_nil_of_length_eq_zero hlength]
      simp
    · intro hzero
      obtain ⟨n, hn, hne⟩ := List.any_eq_true.mp hset
      simp [hzero n hn] at hne
  · rename_i hset
    refine iff_of_true rfl ?_
    intro n hn
    by_contra hne
    exact hset (List.any_eq_true.mpr ⟨n, hn, by simpa using hne⟩)

omit [DecidableEq N] in
theorem viewOrdered_or_children :
    (if (viewOrdered viewOrder children).isEmpty then children else viewOrdered viewOrder children) =
      sortByViewOrder viewOrder children := by
  by_cases hnil : viewOrdered viewOrder children = []
  · have hzero := viewOrdered_eq_nil.mp hnil
    rw [hnil]
    have hsorted : children.Pairwise (fun a b => viewOrder b ≤ viewOrder a) := by
      apply List.pairwise_of_forall_mem_list
      intro a ha b hb
      rw [hzero a ha, hzero b hb]
    exact (hsorted.insertionSort_eq).symm
  · rw [if_neg (by simpa using hnil)]
    unfold viewOrdered at hnil ⊢
    split
    · rfl
    · rename_i hset
      rw [if_neg hset] at hnil
      exact absurd rfl hnil

omit [DecidableEq N] [Zero V] in
theorem sortByViewOrder_congr {viewOrder' : N → V} (h : ∀ n ∈ children, viewOrder' n = viewOrder n) :
    sortByViewOrder viewOrder' children = sortByViewOrder viewOrder children := by
  have hmap := List.map_insertionSort (r := fun a b => viewOrder' b ≤ viewOrder' a)
    (s := fun a b => viewOrder b ≤ viewOrder a) id children (by
      intro a ha b hb
      rw [h a ha, h b hb]
      rfl)
  simpa [sortByViewOrder] using hmap

omit [DecidableEq N] in
theorem viewOrdered_congr {viewOrder' : N → V} (h : ∀ n ∈ children, viewOrder' n = viewOrder n) :
    viewOrdered viewOrder' children = viewOrdered viewOrder children := by
  have hany : children.any (fun n => viewOrder' n ≠ 0) = children.any (fun n => viewOrder n ≠ 0) := by
    rw [Bool.eq_iff_iff, List.any_eq_true, List.any_eq_true]
    constructor
    · rintro ⟨n, hn, hne⟩
      exact ⟨n, hn, h n hn ▸ hne⟩
    · rintro ⟨n, hn, hne⟩
      exact ⟨n, hn, (h n hn).symm ▸ hne⟩
  rw [viewOrdered, viewOrdered, hany, sortByViewOrder_congr h]

omit [DecidableEq N] in
theorem viewOrdered_perm {children' : List N} (hperm : children'.Perm children)
    (hsort : sortByViewOrder viewOrder children' = sortByViewOrder viewOrder children) :
    viewOrdered viewOrder children' = viewOrdered viewOrder children := by
  have hany : children'.any (fun n => viewOrder n ≠ 0) = children.any (fun n => viewOrder n ≠ 0) :=
    hperm.any_eq
  rw [viewOrdered, viewOrdered, hany, hsort]

end ViewOrder

/-! ## Between synchronizations -/

/-- What the peer knows of the children. -/
structure Sent (getPeer : N → P) (s : RenderedParent N V P) : Prop where
  start_nonneg : 0 ≤ s.startIdx
  start_children : s.startIdx ≤ s.children.length
  start_peer : s.startIdx ≤ s.peer.children.length
  sent : s.peer.children.take s.startIdx.toNat = (s.children.take s.startIdx.toNat).map getPeer
  children_clean : s.dirtyChildren = false → s.peer.children = s.children.map getPeer

structure Pending (getPeer : N → P) (s : RenderedParent N V P) : Prop extends Sent getPeer s where
  ordered : s.peer.viewOrderChildren = s.viewOrderChildren.map getPeer
  viewOrder_clean : s.dirtyViewOrder = false → s.viewOrderChildren = viewOrdered s.viewOrder s.children

section Steps
variable {getPeer : N → P} {s : RenderedParent N V P}

omit [DecidableEq N] in
theorem pending_create (viewOrder : N → V) : Pending getPeer (create viewOrder : RenderedParent N V P) :=
  ⟨⟨Int.le_refl _, Int.le_refl _, Int.le_refl _, rfl, (fun h => by cases h)⟩, rfl, (fun h => by cases h)⟩

omit [DecidableEq N] in
theorem Sent.onChanged (h : Sent getPeer s) {new : List N} {c : SubChange N} {rest : List (SubChange N)}
    {kept : List N} (hold : kept <+: s.children) (hnew : kept <+: new) (hfrom : c.fromIdx = kept.length)
    (childSetModified : Bool) :
    Sent getPeer (RenderedParent.onChanged childSetModified (c :: rest) { s with children := new }) := by
  have hstart : ∀ start : Int, start = (if c.fromIdx < s.startIdx then c.fromIdx else s.startIdx) →
      0 ≤ start ∧ start ≤ s.startIdx ∧ start ≤ kept.length := by
    intro start hs
    have := h.start_nonneg
    split at hs
    · omega
    · omega
  obtain ⟨hnonneg, hle, hkept⟩ := hstart _ rfl
  have hpeer := h.start_peer
  have hlength := hnew.length_le
  refine ⟨hnonneg, ?_, ?_, ?_, (fun hc => by cases hc)⟩
  · change (if c.fromIdx < s.startIdx then c.fromIdx else s.startIdx) ≤ (new.length : Int)
    omega
  · change (if c.fromIdx < s.startIdx then c.fromIdx else s.startIdx) ≤ (s.peer.children.length : Int)
    omega
  · change s.peer.children.take (if c.fromIdx < s.startIdx then c.fromIdx else s.startIdx).toNat =
      (new.take (if c.fromIdx < s.startIdx then c.fromIdx else s.startIdx).toNat).map getPeer
    generalize (if c.fromIdx < s.startIdx then c.fromIdx else s.startIdx) = start at hnonneg hle hkept
    have hmin : start.toNat ≤ s.startIdx.toNat := by omega
    have hsame : ∀ l : List N, kept <+: l → l.take start.toNat = kept.take start.toNat := by
      rintro l ⟨tail, rfl⟩
      rw [List.take_append_of_le_length (by omega)]
    have hsent := congrArg (fun l => l.take start.toNat) h.sent
    simp only [← List.map_take, List.take_take, Nat.min_eq_left hmin] at hsent
    rw [hsent, hsame new hnew, hsame s.children hold]

/-- The rendering order is not concerned by a permutation of the children: no view
order was set at the last synchronization, or the order is computed anew anyway, or
the stable sort of the children is the same as before. -/
def Unaffected (new : List N) (s : RenderedParent N V P) : Prop :=
  s.viewOrderChildren = [] ∨ s.dirtyViewOrder = true ∨
    sortByViewOrder s.viewOrder new = sortByViewOrder s.viewOrder s.children

omit [DecidableEq N] in
theorem Pending.permuted (h : Pending getPeer s) {new : List N} (hperm : new.Perm s.children)
    (hunaffected : Unaffected new s) (hclean : s.dirtyViewOrder = false) :
    s.viewOrderChildren = viewOrdered s.viewOrder new := by
  have hold := h.viewOrder_clean hclean
  rcases hunaffected with hnil | hdirty | hsort
  · have hzero := viewOrdered_eq_nil.mp (hold.symm.trans hnil)
    rw [hnil]
    exact (viewOrdered_eq_nil.mpr (fun n hn => hzero n (hperm.mem_iff.mp hn))).symm
  · rw [hclean] at hdirty
    cases hdirty
  · rw [hold, viewOrdered_perm hperm hsort]

/-- A change of the list, as its listeners are told of it. -/
def Fired (new : List N) (changes : List (SubChange N)) (s : RenderedParent N V P) : Prop :=
  changes ≠ [] ∧ (∀ c ∈ changes, c.Plain) ∧ Turns 0 (changes.map SubChange.edit) s.children new

omit [DecidableEq N] in
theorem Pending.modified (h : Pending getPeer s) {new : List N} {changes : List (SubChange N)}
    (hturns : Turns 0 (changes.map SubChange.edit) s.children new) (hperm : ¬new.Perm s.children)
    (hclean : s.dirtyViewOrder = false)
    (hunmarked : changes.any (affectsViewOrder { s with children := new }) = false) :
    s.viewOrderChildren = viewOrdered s.viewOrder new := by
  have hold := h.viewOrder_clean hclean
  have hnone : ∀ c ∈ changes, affectsViewOrder { s with children := new } c = false := by
    intro c hc
    have := List.any_eq_false.mp hunmarked c hc
    simpa using this
  have hnil : s.viewOrderChildren = [] := by
    by_contra hne
    apply hperm
    have heq : s.children = new := by
      apply turns_trivial hturns
      intro e he
      obtain ⟨c, hc, rfl⟩ := List.mem_map.mp he
      have hc := hnone c hc
      simp only [affectsViewOrder, Bool.or_eq_false_iff, Bool.and_eq_false_iff, decide_eq_false_iff_not] at hc
      have hnotEmpty : (!s.viewOrderChildren.isEmpty) = true := by simpa using hne
      have hsmall : ¬0 < c.getRemovedSize ∧ ¬0 < c.toIdx - c.fromIdx := by
        rcases hc.1 with hsmall | hempty
        · exact hsmall
        · rw [hnotEmpty] at hempty
          cases hempty
      refine ⟨List.eq_nil_of_length_eq_zero (Nat.eq_zero_of_not_pos hsmall.1), ?_⟩
      simp only [SubChange.edit_hi, SubChange.edit_lo]
      omega
    rw [heq]
  have hzero := viewOrdered_eq_nil.mp (hold.symm.trans hnil)
  rw [hnil]
  apply (viewOrdered_eq_nil.mpr _).symm
  intro n hn
  rcases @turns_mem N _ [] s.children new hturns n hn with hin | ⟨e, he, hmem⟩
  · exact hzero n hin
  · obtain ⟨c, hc, rfl⟩ := List.mem_map.mp he
    have hc := hnone c hc
    simp only [affectsViewOrder, Bool.or_eq_false_iff] at hc
    by_contra hne
    have := List.any_eq_false.mp hc.2 n hmem
    simp [hne] at this

theorem Pending.change (h : Pending getPeer s) {new : List N} {changes : List (SubChange N)}
    (hfired : Fired new changes s) (hunaffected : new.Perm s.children → Unaffected new s) :
    Pending getPeer (s.changeChildren new changes) := by
  obtain ⟨hne, -, hturns⟩ := hfired
  cases changes with
  | nil => exact absurd rfl hne
  | cons c rest =>
    have hfirst := hturns
    obtain ⟨kept, added, xs', ys', hold, hnew, hlo, -, -⟩ := hfirst
    refine ⟨h.toSent.onChanged ⟨_, hold.symm⟩ ⟨_, hnew.symm⟩ (by simpa using hlo) _, h.ordered, ?_⟩
    intro hdirty
    obtain ⟨hclean, hunmarked⟩ := Bool.or_eq_false_iff.mp hdirty
    by_cases hperm : new.Perm s.children
    · exact h.permuted hperm (hunaffected hperm) hclean
    · simp only [hperm, decide_false, Bool.not_false, Bool.true_and] at hunmarked
      exact h.modified hturns hperm hclean hunmarked

theorem Pending.move (h : Pending getPeer s) {n : N} (hn : n ∈ s.children) {index : Nat}
    (hindex : index < s.children.length) (hunaffected : Unaffected ((s.children.erase n).insertIdx index n) s) :
    Pending getPeer (s.move n index) := by
  have hlength : (s.children.erase n).length + 1 = s.children.length := List.length_erase_add_one hn
  have hle : index ≤ (s.children.erase n).length := by omega
  have hperm : ((s.children.erase n).insertIdx index n).Perm s.children :=
    (List.perm_insertIdx n _ hle).trans (List.perm_cons_erase hn).symm
  have hidx : s.children.idxOf n < s.children.length := List.idxOf_lt_length_of_mem hn
  have hkept : s.children.take (s.children.idxOf n) <+: s.children.erase n := by
    rw [List.erase_eq_eraseIdx_of_idxOf rfl, List.eraseIdx_eq_take_drop_succ]
    exact ⟨_, rfl⟩
  have hkept' : (s.children.erase n).take index <+: (s.children.erase n).insertIdx index n := by
    refine ⟨n :: (s.children.erase n).drop index, ?_⟩
    have hfront : index = ((s.children.erase n).take index).length := by
      rw [List.length_take, Nat.min_eq_left hle]
    rw [← insertIdx_split hfront, List.take_append_drop]
  have hremoved : Sent getPeer (RenderedParent.onChanged false
      [⟨s.children.idxOf n, s.children.idxOf n, some [n], [], false⟩] { s with children := s.children.erase n }) := by
    apply h.toSent.onChanged (List.take_prefix (s.children.idxOf n) s.children) hkept
    rw [List.length_take, Nat.min_eq_left (Nat.le_of_lt hidx)]
  have hadded : Sent getPeer (s.move n index) := by
    apply hremoved.onChanged (List.take_prefix index (s.children.erase n)) hkept'
    rw [List.length_take, Nat.min_eq_left hle]
  refine ⟨hadded, h.ordered, ?_⟩
  intro hdirty
  have hclean : s.dirtyViewOrder = false := by simpa [RenderedParent.move, RenderedParent.onChanged] using hdirty
  exact h.permuted hperm hunaffected hclean

theorem Pending.setViewOrder (h : Pending getPeer s) (n : N) (v : V) : Pending getPeer (s.setViewOrder n v) := by
  unfold RenderedParent.setViewOrder
  split
  · refine ⟨⟨h.start_nonneg, h.start_children, h.start_peer, h.sent, h.children_clean⟩, h.ordered, ?_⟩
    intro hdirty
    obtain ⟨hclean, hother⟩ := Bool.or_eq_false_iff.mp hdirty
    have hn : n ∉ s.children := by simpa using hother
    change s.viewOrderChildren = viewOrdered (Function.update s.viewOrder n v) s.children
    rw [h.viewOrder_clean hclean]
    apply (viewOrdered_congr _).symm
    intro m hm
    have hne : m ≠ n := fun heq => hn (heq ▸ hm)
    rw [Function.update_of_ne hne]
  · exact h

omit [DecidableEq N] in
theorem addPeers_eq (getPeer : N → P) (nodes : List N) (g : NGGroup P) :
    addPeers getPeer (g.children.length : Int) nodes g =
      .done { g with children := g.children ++ nodes.map getPeer } := by
  induction nodes generalizing g with
  | nil => simp [addPeers]
  | cons n rest ih =>
    have hadd : g.add (g.children.length : Int) (getPeer n) =
        .done { g with children := g.children ++ [getPeer n] } := by
      have hsplit := @insertIdx_split P g.children [] (getPeer n) g.children.length rfl
      rw [List.append_nil] at hsplit
      unfold NGGroup.add
      rw [if_neg (by omega), if_neg (by omega), Int.toNat_natCast, hsplit]
    have hrest := ih { g with children := g.children ++ [getPeer n] }
    simp only [List.length_append, List.length_singleton] at hrest
    push_cast at hrest
    rw [addPeers, hadd, Outcome.bind_done, hrest, List.map_cons, List.append_assoc, List.singleton_append]

omit [DecidableEq N] in
theorem sendChildren_eq (h : Pending getPeer s) : s.sendChildren getPeer =
    .done { s with peer := { s.peer with children := s.children.map getPeer }, startIdx := s.children.length } := by
  have hnonneg := h.start_nonneg
  have hpeer := h.start_peer
  have hclear : s.peer.clearFrom s.startIdx =
      .done { s.peer with children := (s.children.take s.startIdx.toNat).map getPeer } := by
    unfold NGGroup.clearFrom
    split
    · rw [if_neg (by omega), h.sent]
    · rw [← h.sent, List.take_of_length_le (by omega)]
  have hlength : ((s.children.take s.startIdx.toNat).map getPeer).length = s.startIdx.toNat := by
    rw [List.length_map, List.length_take]
    have := h.start_children
    omega
  have hadd := addPeers_eq getPeer (s.children.drop s.startIdx.toNat)
    { s.peer with children := (s.children.take s.startIdx.toNat).map getPeer }
  simp only [hlength, Int.toNat_of_nonneg hnonneg, ← List.map_append, List.take_append_drop] at hadd
  rw [sendChildren, hclear, Outcome.bind_done, hadd]
  rfl

/-- After a synchronization the peer is up to date. -/
structure Synchronized (getPeer : N → P) (s : RenderedParent N V P) : Prop where
  children_eq : s.peer.children = s.children.map getPeer
  ordered_eq : s.peer.getOrderedChildren = (sortByViewOrder s.viewOrder s.children).map getPeer

omit [DecidableEq N] in
theorem Pending.synchronized (h : Pending getPeer s) (hchildren : s.dirtyChildren = false)
    (horder : s.dirtyViewOrder = false) : Synchronized getPeer s := by
  refine ⟨h.children_clean hchildren, ?_⟩
  have hordered := h.ordered
  rw [h.viewOrder_clean horder] at hordered
  rw [NGGroup.getOrderedChildren, hordered, h.children_clean hchildren, ← viewOrdered_or_children, List.isEmpty_map]
  split
  · rfl
  · rfl

omit [DecidableEq N] in
theorem Pending.doUpdatePeer (h : Pending getPeer s) :
    ∃ t, s.doUpdatePeer getPeer = .done t ∧ Pending getPeer t ∧ Synchronized getPeer t := by
  have hsent : ∃ t : RenderedParent N V P, (if s.dirtyChildren then s.sendChildren getPeer else .done s) = .done t ∧
      t.peer.children = t.children.map getPeer ∧ Pending getPeer t := by
    split
    · refine ⟨_, sendChildren_eq h, rfl, ⟨⟨Int.natCast_nonneg _, Int.le_refl _, ?_, ?_, fun _ => rfl⟩,
        h.ordered, h.viewOrder_clean⟩⟩
      · rw [List.length_map]
      · rw [List.map_take]
    · rename_i hclean
      have hclean := Bool.eq_false_iff.mpr hclean
      exact ⟨s, rfl, h.children_clean hclean, h⟩
  obtain ⟨t, ht, hchildren, hpending⟩ := hsent
  rw [RenderedParent.doUpdatePeer, ht, Outcome.bind_done]
  have hfinal : ∀ u : RenderedParent N V P, Pending getPeer u →
      u.peer.children = u.children.map getPeer → u.viewOrderChildren = viewOrdered u.viewOrder u.children →
      ∃ v, Outcome.done (ε := Exn) { u with dirtyChildren := false, dirtyViewOrder := false } = .done v ∧
        Pending getPeer v ∧ Synchronized getPeer v := by
    intro u hu hc ho
    have hv : Pending getPeer { u with dirtyChildren := false, dirtyViewOrder := false } :=
      ⟨⟨hu.start_nonneg, hu.start_children, hu.start_peer, hu.sent, fun _ => hc⟩, hu.ordered, fun _ => ho⟩
    exact ⟨_, rfl, hv, hv.synchronized rfl rfl⟩
  dsimp only
  split
  · exact hfinal (t.computeViewOrderChidrenAndUpdatePeer getPeer)
      ⟨⟨hpending.start_nonneg, hpending.start_children, hpending.start_peer, hpending.sent, hpending.children_clean⟩,
        rfl, fun _ => rfl⟩ hchildren rfl
  · rename_i hclean
    exact hfinal t hpending hchildren (hpending.viewOrder_clean (Bool.eq_false_iff.mpr hclean))

end Steps

/-! ## Runs -/

/-- A change of the children is one that listeners are told of in full, and a
permutation of them does not concern the rendering order. -/
def Tracked (event : Event N V) (s : RenderedParent N V P) : Prop :=
  match event with
  | .change new changes => Fired new changes s ∧ (new.Perm s.children → Unaffected new s)
  | .toFront n => n ∈ s.children → Unaffected ((s.children.erase n).insertIdx (s.children.length - 1) n) s
  | .toBack n => n ∈ s.children → Unaffected ((s.children.erase n).insertIdx 0 n) s
  | .setViewOrder _ _ => True
  | .synchronize => True

section Runs
variable {getPeer : N → P} {s : RenderedParent N V P}

theorem step_pending (h : Pending getPeer s) (event : Event N V) (hevent : Tracked event s) :
    ∃ t, step getPeer event s = .done t ∧ Pending getPeer t := by
  cases event with
  | change new changes => exact ⟨_, rfl, h.change hevent.1 hevent.2⟩
  | toFront n =>
    refine ⟨_, rfl, ?_⟩
    unfold toFront
    split
    · rename_i hmove
      have := List.length_pos_of_mem hmove.1
      exact h.move hmove.1 (by omega) (hevent hmove.1)
    · exact h
  | toBack n =>
    refine ⟨_, rfl, ?_⟩
    unfold toBack
    split
    · rename_i hmove
      exact h.move hmove.1 (List.length_pos_of_mem hmove.1) (hevent hmove.1)
    · exact h
  | setViewOrder n v => exact ⟨_, rfl, h.setViewOrder n v⟩
  | synchronize =>
    obtain ⟨t, ht, hpending, -⟩ := h.doUpdatePeer
    exact ⟨t, ht, hpending⟩

/-- Every synchronization after such events returns, and leaves a peer that has the
peers of the children in their order, and renders them by decreasing view order. -/
theorem render_tree_mirrors {viewOrder : N → V} {events : List (Event N V)}
    (hevents : Outcome.Along Tracked (step getPeer) events (create viewOrder)) :
    ∃ t, Outcome.run (step getPeer) (events ++ [Event.synchronize]) (create viewOrder) = .done t ∧
      Synchronized getPeer t := by
  obtain ⟨u, hrun, hu⟩ := Outcome.run_total (Pending getPeer) Tracked (step getPeer)
    (fun event s hs hevent => step_pending hs event hevent) events (create viewOrder) (pending_create viewOrder) hevents
  obtain ⟨t, ht, -, hsynchronized⟩ := hu.doUpdatePeer
  refine ⟨t, ?_, hsynchronized⟩
  rw [Outcome.run_append, hrun, Outcome.bind_done, Outcome.run_cons]
  simp only [step, ht, Outcome.bind_done, Outcome.run_nil]

end Runs

/-- The children 1 and 2 are added, of which 2 has a view order; then 3 is added
in front of them and 2 moves to the back. -/
def addsAndMoves : List (Event Nat Int) :=
  [.change [1, 2] [⟨0, 2, some [], [], false⟩], .synchronize, .change [3, 1, 2] [⟨0, 1, some [], [], false⟩], .toBack 2]

def secondBehind (n : Nat) : Int := if n = 2 then 7 else 0

theorem render_tree_mirrors_moving : ∃ t,
    Outcome.run (step (fun n => n + 100)) (addsAndMoves ++ [Event.synchronize]) (create secondBehind) = .done t ∧
    t.peer.children = [102, 103, 101] ∧ t.peer.getOrderedChildren = [102, 103, 101] ∧
    Synchronized (fun n => n + 100) t := by
  have hevents : Outcome.Along Tracked (step (fun n => n + 100)) addsAndMoves (create secondBehind) := by
    refine ⟨⟨⟨by decide, by decide, [], [1, 2], [], [], rfl, rfl, rfl, rfl, rfl⟩, fun _ => Or.inl rfl⟩, ?_⟩
    rintro _ ⟨rfl⟩
    refine ⟨trivial, ?_⟩
    rintro _ ⟨rfl⟩
    refine ⟨⟨⟨by decide, by decide, [], [3], [1, 2], [1, 2], rfl, rfl, rfl, rfl, rfl⟩, ?_⟩, ?_⟩
    · intro hperm
      exact absurd hperm.length_eq (by decide)
    · rintro _ ⟨rfl⟩
      exact ⟨fun _ => Or.inr (Or.inl (by decide)), fun _ _ => trivial⟩
  have hrun : Outcome.run (step (fun n => n + 100)) (addsAndMoves ++ [Event.synchronize]) (create secondBehind) =
      .done ⟨[2, 3, 1], secondBehind, [2, 3, 1], 3, false, false, ⟨[102, 103, 101], [102, 103, 101]⟩⟩ := rfl
  obtain ⟨t, ht, hsynchronized⟩ := render_tree_mirrors hevents
  cases hrun.symm.trans ht
  exact ⟨_, hrun, rfl, rfl, hsynchronized⟩

/-- The children 1 and 2 have the same view order, and 1 moves to the front. -/
def movesToFront : List (Event Nat Int) :=
  [.change [1, 2] [⟨0, 2, some [], [], false⟩], .synchronize, .toFront 1]

/-- The peer gets the new order of the children, but goes on to render 1 before 2. -/
theorem equal_view_order_not_reordered :
    Outcome.run (step (fun n => n + 100)) (movesToFront ++ [Event.synchronize]) (create (fun _ : Nat => (7 : Int))) =
      .done ⟨[2, 1], fun _ => 7, [1, 2], 2, false, false, ⟨[102, 101], [101, 102]⟩⟩ ∧
    ¬Synchronized (fun n : Nat => n + 100)
      (⟨[2, 1], fun _ => (7 : Int), [1, 2], 2, false, false, ⟨[102, 101], [101, 102]⟩⟩ : RenderedParent Nat Int Nat) := by
  refine ⟨rfl, ?_⟩
  intro h
  exact absurd h.ordered_eq (by decide)

end RenderedParent
end OpenJfx.Scene
