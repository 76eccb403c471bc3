import OpenJfx.Collections.BuilderPermutation
import Mathlib.Data.List.InsertIdx

/-! # The kinds of recorded sub-changes

Whatever is reported, in whatever order, the three parts of a builder stay
apart: `addRemoveChanges` and the permutation hold no update sub-change,
`updateChanges` holds nothing else.  No assumption is made on the positions, so
this also covers recordings that have lost track of the list. -/
set_option autoImplicit false
namespace OpenJfx.Collections
open OpenJfx.Lib

namespace ListChangeBuilder
variable {E : Type}

section All
variable {P : SubChange E → Prop} {cs : List (SubChange E)}

theorem all_modify {f : SubChange E → SubChange E} (hf : ∀ c, P c → P (f c)) (h : ∀ c ∈ cs, P c)
    (i : Nat) : ∀ c ∈ cs.modify i f, P c := by
  induction cs generalizing i with
  | nil => simp
  | cons d cs ih =>
    have hd := h d (List.mem_cons_self ..)
    have htail := fun c hc => h c (List.mem_cons_of_mem _ hc)
    cases i with
    | zero =>
      intro c hc
      rw [List.modify_zero_cons] at hc
      rcases List.mem_cons.mp hc with rfl | hc
      · exact hf d hd
      · exact htail c hc
    | succ i =>
      intro c hc
      rw [List.modify_succ_cons] at hc
      rcases List.mem_cons.mp hc with rfl | hc
      · exact hd
      · exact ih htail i c hc

theorem all_insertIdx {d : SubChange E} (hd : P d) (h : ∀ c ∈ cs, P c) (i : Nat) :
    ∀ c ∈ cs.insertIdx i d, P c := by
  intro c hc
  rcases List.eq_or_mem_of_mem_insertIdx hc with rfl | hc
  · exact hd
  · exact h c hc

theorem all_set {d : SubChange E} (hd : P d) (h : ∀ c ∈ cs, P c) (i : Nat) :
    ∀ c ∈ cs.set i d, P c := by
  intro c hc
  rcases List.mem_or_eq_of_mem_set hc with hc | rfl
  · exact h c hc
  · exact hd

theorem all_eraseIdx (h : ∀ c ∈ cs, P c) (i : Nat) : ∀ c ∈ cs.eraseIdx i, P c :=
  fun c hc => h c (List.mem_of_mem_eraseIdx hc)

theorem all_shiftFrom (hshift : ∀ d c, P c → P (SubChange.shift d c)) (h : ∀ c ∈ cs, P c) (k : Nat)
    (d : Int) : ∀ c ∈ shiftFrom k d cs, P c := by
  intro c hc
  rw [shiftFrom, List.mem_append, List.mem_map] at hc
  rcases hc with hc | ⟨e, he, rfl⟩
  · exact h c (List.mem_of_mem_take hc)
  · exact hshift d e (h e (List.mem_of_mem_drop he))

theorem all_concat {d : SubChange E} (hd : P d) (h : ∀ c ∈ cs, P c) : ∀ c ∈ cs ++ [d], P c := by
  intro c hc
  rcases List.mem_append.mp hc with hc | hc
  · exact h c hc
  · rw [List.mem_singleton.mp hc]
    exact hd

end All

/-! ## Update sub-changes -/

/-- A sub-change of `updateChanges`, apart from its range. -/
def IsUpdate (c : SubChange E) : Prop := c.removed = none ∧ c.perm = [] ∧ c.updated = true

/-- A sub-change of `addRemoveChanges`, or the permutation. -/
def NotUpdate (c : SubChange E) : Prop := c.updated = false

theorem isUpdate_range {c d : SubChange E} (h : IsUpdate c) (hr : d.removed = c.removed)
    (hp : d.perm = c.perm) (hu : d.updated = c.updated) : IsUpdate d :=
  ⟨hr.trans h.1, hp.trans h.2.1, hu.trans h.2.2⟩

theorem isUpdate_shift (d : Int) (c : SubChange E) (h : IsUpdate c) : IsUpdate (c.shift d) := h

theorem notUpdate_shift (d : Int) (c : SubChange E) (h : NotUpdate c) : NotUpdate (c.shift d) := h

section Updates
variable {us : List (SubChange E)} (h : ∀ u ∈ us, IsUpdate u)
include h

theorem all_recordUpdate (idx : Int) : ∀ u ∈ recordUpdate idx us, IsUpdate u := by
  have hinsert : ∀ u ∈ insertUpdate idx us, IsUpdate u := by
    rw [insertUpdate]
    split
    · split
      · refine all_modify ?_ h _
        intro c hc
        exact isUpdate_range hc rfl rfl rfl
      · split
        · refine all_modify ?_ h _
          intro c hc
          exact isUpdate_range hc rfl rfl rfl
        · refine all_insertIdx ?_ h _
          exact ⟨rfl, rfl, rfl⟩
    · exact h
  rw [recordUpdate]
  split
  · split
    · refine all_modify ?_ h _
      intro c hc
      exact isUpdate_range hc rfl rfl rfl
    · exact hinsert
  · exact hinsert

theorem all_removeFromUpdates (idx : Int) : ∀ u ∈ removeFromUpdates idx us, IsUpdate u := by
  rw [removeFromUpdates]
  split
  · exact all_shiftFrom isUpdate_shift h _ _
  · split
    · rename_i c hc
      split
      · exact all_shiftFrom isUpdate_shift (all_eraseIdx h _) _ _
      · refine all_shiftFrom isUpdate_shift (all_set ?_ h _) _ _
        exact isUpdate_range (h c (List.mem_of_getElem? hc)) rfl rfl rfl
    · exact h

theorem all_addToUpdates (i j : Int) : ∀ u ∈ addToUpdates i j us, IsUpdate u := by
  rw [addToUpdates]
  split
  · exact all_shiftFrom isUpdate_shift h _ _
  · split
    · rename_i c hc
      refine all_shiftFrom isUpdate_shift (all_set ?_ (all_insertIdx ?_ h _) _) _ _
      · exact isUpdate_range (h c (List.mem_of_getElem? hc)) rfl rfl rfl
      · exact ⟨rfl, rfl, rfl⟩
    · exact h

end Updates

theorem all_regroupUpdates (lo : Int) (perm : List Int) (us : List (SubChange E)) :
    ∀ u ∈ regroupUpdates lo perm us, IsUpdate u := by
  have hfold : ∀ as : List Int,
      ∀ u ∈ as.foldl (groupStep true ([] : List (Int × List E))) [], IsUpdate u := by
    intro as
    induction as using List.reverseRecOn with
    | nil => simp
    | append_singleton as a ih =>
      rw [List.foldl_append, List.foldl_cons, List.foldl_nil]
      generalize as.foldl (groupStep true ([] : List (Int × List E))) [] = gs at ih
      rw [groupStep]
      split
      · rename_i hget
        cases hget
      · split
        · split
          · refine all_concat ?_ ih
            exact ⟨rfl, rfl, rfl⟩
          · refine all_modify ?_ ih _
            intro c hc
            exact isUpdate_range hc rfl rfl rfl
        · simp [IsUpdate]
  exact hfold _

/-! ## Add/remove sub-changes -/

/-- A property that every add/remove sub-change has when it is recorded, and keeps. -/
structure Recorded (P : SubChange E → Prop) : Prop where
  start : ∀ (i j : Int) (removed : List E), P ⟨i, j, some removed, [], false⟩
  shift : ∀ (d : Int) (c : SubChange E), P c → P (c.shift d)
  stretch : ∀ (c : SubChange E) (j : Int), P c → P { c with toIdx := j }
  store : ∀ (c : SubChange E) (removed : List E), P c → P { c with removed := some removed }

theorem recorded_notUpdate : Recorded (NotUpdate : SubChange E → Prop) :=
  ⟨fun _ _ _ => rfl, notUpdate_shift, fun _ _ h => h, fun _ _ h => h⟩

section AddRemove
variable {P : SubChange E → Prop} (recorded : Recorded P) {cs : List (SubChange E)} (h : ∀ c ∈ cs, P c)
include recorded h

theorem all_changeRemoved {i : Nat} {f : List E → List E} {out : List (SubChange E)}
    (hdone : changeRemoved i f cs = .done out) : ∀ c ∈ out, P c := by
  rw [changeRemoved] at hdone
  split at hdone
  · rename_i c hc
    split at hdone
    · cases hdone
      exact all_set (recorded.store c _ (h c (List.mem_of_getElem? hc))) h _
    · cases hdone
  · cases hdone

theorem all_insertRemoved {idx : Int} {x : E} {out : List (SubChange E)}
    (hdone : insertRemoved idx x cs = .done out) : ∀ c ∈ out, P c := by
  rw [insertRemoved] at hdone
  split at hdone
  · split at hdone
    · obtain ⟨mid, hmid, rfl⟩ := Outcome.map_eq_done hdone
      exact all_shiftFrom recorded.shift (all_changeRemoved recorded h hmid) _ _
    · split at hdone
      · obtain ⟨mid, hmid, hrest⟩ := Outcome.bind_eq_done hdone
        cases hrest
        refine all_shiftFrom recorded.shift (all_changeRemoved recorded ?_ hmid) _ _
        exact all_modify (recorded.shift (-1)) h _
      · cases hdone
        exact all_shiftFrom recorded.shift (all_insertIdx (recorded.start _ _ _) h _) _ _
  · split at hdone
    · rename_i c hc
      split at hdone
      · cases hdone
        exact all_shiftFrom recorded.shift (all_eraseIdx h _) _ _
      · cases hdone
        refine all_shiftFrom recorded.shift (all_set ?_ h _) _ _
        exact recorded.stretch c _ (h c (List.mem_of_getElem? hc))
    · cases hdone

theorem all_recordRemove {idx : Int} {x : E} {out : List (SubChange E)}
    (hdone : recordRemove idx x cs = .done out) : ∀ c ∈ out, P c := by
  rw [recordRemove] at hdone
  split at hdone
  · split at hdone
    · exact all_changeRemoved recorded h hdone
    · split at hdone
      · exact all_changeRemoved recorded (all_modify (recorded.shift (-1)) h _) hdone
      · exact all_insertRemoved recorded h hdone
  · exact all_insertRemoved recorded h hdone

theorem all_recordAdd (i j : Int) : ∀ c ∈ recordAdd i j cs, P c := by
  have hmodify : ∀ (f : SubChange E → Int) (k : Nat),
      ∀ c ∈ cs.modify k (fun c => { c with toIdx := f c }), P c := by
    intro f k
    refine all_modify ?_ h k
    intro c hc
    exact recorded.stretch c _ hc
  have hinsert : ∀ c ∈ insertAdd i j cs, P c := by
    rw [insertAdd]
    split
    · split
      · exact all_shiftFrom recorded.shift (hmodify _ _) _ _
      · exact all_shiftFrom recorded.shift (all_insertIdx (recorded.start _ _ _) h _) _ _
    · exact all_shiftFrom recorded.shift (hmodify _ _) _ _
  rw [recordAdd]
  split
  · split
    · exact hmodify _ _
    · split
      · exact hmodify _ _
      · exact hinsert
  · exact hinsert

end AddRemove

theorem all_groupStep_added (m : List (Int × List E)) (as : List Int) :
    ∀ c ∈ as.foldl (groupStep false m) [], NotUpdate c := by
  induction as using List.reverseRecOn with
  | nil => simp
  | append_singleton as a ih =>
    rw [List.foldl_append, List.foldl_cons, List.foldl_nil]
    generalize as.foldl (groupStep false m) [] = gs at ih
    by_cases htouch : ∃ last ∈ gs.getLast?, last.toIdx = a
    · obtain ⟨last, hmem, hto⟩ := htouch
      obtain ⟨init, rfl⟩ : ∃ init, gs = init ++ [last] := List.getLast?_eq_some_iff.mp hmem
      obtain ⟨g, hstep, -, -, -, hupd, -⟩ := groupStep_extend false m hto
      rw [hstep]
      refine all_concat ?_ (fun c hc => ih c (List.mem_append_left _ hc))
      exact hupd.trans (ih last (by simp))
    · rw [groupStep_new false m (fun last hl heq => htouch ⟨last, hl, heq⟩)]
      refine all_concat ?_ ih
      exact rfl

theorem all_permuteAddRemove {lo hi : Int} {perm : List Int} {changes out : List (SubChange E)}
    (hok : permuteAddRemove lo hi perm changes = .ok out) : ∀ c ∈ out, NotUpdate c := by
  have hfold : ∀ (rest : List (Int × List E)) (gs out : List (SubChange E)),
      (∀ c ∈ gs, NotUpdate c) → rest.foldlM insertRemovedAt gs = .ok out →
      ∀ c ∈ out, NotUpdate c := by
    intro rest
    induction rest with
    | nil =>
      intro gs out hgs hok
      cases hok
      exact hgs
    | cons e rest ih =>
      intro gs out hgs hok
      rw [List.foldlM_cons] at hok
      cases hstep : insertRemovedAt gs e with
      | error x => rw [hstep] at hok; cases hok
      | ok mid =>
        rw [hstep] at hok
        refine ih mid out ?_ hok
        rw [insertRemovedAt] at hstep
        split at hstep
        · cases hstep
          refine all_insertIdx ?_ hgs _
          exact rfl
        · cases hstep
  rw [permuteAddRemove] at hok
  cases hpos : newPositions lo hi perm changes with
  | error x => rw [hpos] at hok; cases hok
  | ok pair =>
    rw [hpos] at hok
    exact hfold _ _ _ (all_groupStep_added _ _) hok

theorem mergePermutation_notUpdate {lo hi : Int} {prePerm : List Int} {p q : Option (SubChange E)}
    (hp : ∀ c ∈ p, NotUpdate c) (hdone : mergePermutation lo hi prePerm p = .done q) :
    ∀ c ∈ q, NotUpdate c := by
  cases p with
  | none =>
    cases hdone
    simp [NotUpdate]
  | some c =>
    have hc : NotUpdate c := hp c rfl
    rw [mergePermutation] at hdone
    split at hdone
    · obtain ⟨perm, -, rfl⟩ := Outcome.map_eq_done hdone
      simpa [NotUpdate] using hc
    · cases hnew : (intRange (min c.fromIdx lo) (max c.toIdx hi)).mapM (composeAt c lo hi prePerm) with
      | error x => simp only [hnew] at hdone; cases hdone
      | ok perm =>
        simp only [hnew, Outcome.ofExcept_ok] at hdone
        cases hdone
        simpa [NotUpdate] using hc

/-! ## The builder -/

/-- The three parts of the builder hold sub-changes of their own kind. -/
structure Kinds (b : ListChangeBuilder E) : Prop where
  addRemove : ∀ c ∈ b.addRemove, NotUpdate c
  updates : ∀ u ∈ b.updates, IsUpdate u
  permutation : ∀ c ∈ b.permutationChange, NotUpdate c

theorem updates_map_eq (b : ListChangeBuilder E) {f : List (SubChange E) → List (SubChange E)}
    (hf : f [] = []) : (b.updateChanges.map f).getD [] = f b.updates := by
  rw [updates]
  cases b.updateChanges with
  | none => exact hf.symm
  | some us => rfl

theorem renewed_updates (b : ListChangeBuilder E) (us : List (SubChange E)) :
    (if b.updates = [] then b.updateChanges else some us).getD [] =
      if b.updates = [] then [] else us := by
  split
  · rename_i h
    exact h
  · rfl

theorem nextRemove_done {b b' : ListChangeBuilder E} {idx : Int} {x : E}
    (h : nextRemove idx x b = .done b') :
    b.changeLock ≠ 0 ∧ ∃ cs, recordRemove idx x b.addRemove = .done cs ∧ b' = { b with
      addRemoveChanges := some cs
      updateChanges := b.updateChanges.map (removeFromUpdates idx) } := by
  by_cases lock : b.changeLock = 0
  · rw [nextRemove, if_pos lock] at h
    cases h
  · refine ⟨lock, ?_⟩
    rw [nextRemove, if_neg lock] at h
    obtain ⟨c, hc, hrest⟩ := Outcome.bind_eq_done h
    obtain ⟨cs, hcs, rfl⟩ := Outcome.map_eq_done hc
    cases hrest
    exact ⟨cs, hcs, rfl⟩

theorem renewAddRemove_done {b b' : ListChangeBuilder E} {lo hi : Int} {perm : List Int}
    (h : renewAddRemove lo hi perm b = .done b') :
    b.addRemove = [] ∧ b' = b ∨
      ∃ cs, permuteAddRemove lo hi perm b.addRemove = .ok cs ∧ b' = { b with addRemoveChanges := some cs } := by
  by_cases hnil : b.addRemove = []
  · rw [renewAddRemove_nil hnil] at h
    cases h
    exact Or.inl ⟨hnil, rfl⟩
  · rw [renewAddRemove, if_neg hnil] at h
    cases hcs : permuteAddRemove lo hi perm b.addRemove with
    | error x => rw [hcs] at h; cases h
    | ok cs =>
      rw [hcs, Outcome.ofExcept_ok] at h
      cases h
      exact Or.inr ⟨cs, rfl, rfl⟩

theorem nextPermutation_done {b b' : ListChangeBuilder E} {lo : Int} {perm : List Int} {size : Nat}
    (h : nextPermutation lo (lo + perm.length) perm size b = .done b') :
    b.changeLock ≠ 0 ∧ b'.changeLock = b.changeLock ∧ b'.fired = b.fired ∧
      (∃ prePermFrom prePermTo prePerm,
        mergePermutation prePermFrom prePermTo prePerm b.permutationChange = .done b'.permutationChange) ∧
      (b.addRemove = [] ∧ b'.addRemove = [] ∨
        permuteAddRemove lo (lo + perm.length) perm b.addRemove = .ok b'.addRemove) ∧
      b'.updates = if b.updates = [] then [] else regroupUpdates lo perm b.updates := by
  by_cases lock : b.changeLock = 0
  · rw [nextPermutation, if_pos lock] at h
    cases h
  refine ⟨lock, ?_⟩
  rw [nextPermutation, if_neg lock] at h
  split at h
  · cases h
  · rename_i lo' hi' prePerm hpre
    obtain ⟨b₂, hb₂, hrest⟩ := Outcome.bind_eq_done h
    obtain ⟨b₁, hb₁, hadd⟩ := Outcome.bind_eq_done hb₂
    obtain ⟨p, hp, rfl⟩ := Outcome.map_eq_done hb₁
    rw [renewUpdates_eq] at hrest
    cases hrest
    rcases renewAddRemove_done hadd with ⟨hnil, rfl⟩ | ⟨cs, hcs, rfl⟩
    · exact ⟨rfl, rfl, ⟨_, _, _, hp⟩, Or.inl ⟨hnil, hnil⟩, renewed_updates b _⟩
    · exact ⟨rfl, rfl, ⟨_, _, _, hp⟩, Or.inr hcs, renewed_updates b _⟩

section Calls
variable {b b' : ListChangeBuilder E} (kinds : Kinds b)
include kinds

theorem kinds_nextRemove {idx : Int} {x : E} (h : nextRemove idx x b = .done b') : Kinds b' := by
  obtain ⟨-, cs, hcs, rfl⟩ := nextRemove_done h
  refine ⟨all_recordRemove recorded_notUpdate kinds.addRemove hcs, ?_, kinds.permutation⟩
  have hup := updates_map_eq b (rfl : removeFromUpdates idx ([] : List (SubChange E)) = [])
  intro u hu
  exact all_removeFromUpdates kinds.updates idx u (hup ▸ hu)

theorem kinds_nextAdd {i j : Int} (h : nextAdd i j b = .done b') : Kinds b' := by
  by_cases lock : b.changeLock = 0
  · rw [nextAdd, if_pos lock] at h
    cases h
  · rw [nextAdd_eq lock] at h
    cases h
    refine ⟨all_recordAdd recorded_notUpdate kinds.addRemove i j, ?_, kinds.permutation⟩
    have hup := updates_map_eq b (rfl : addToUpdates i j ([] : List (SubChange E)) = [])
    intro u hu
    exact all_addToUpdates kinds.updates i j u (hup ▸ hu)

theorem kinds_nextUpdate {idx : Int} (h : nextUpdate idx b = .done b') : Kinds b' := by
  rw [nextUpdate] at h
  split at h
  · cases h
  · cases h
    exact ⟨kinds.addRemove, all_recordUpdate kinds.updates idx, kinds.permutation⟩

theorem kinds_nextPermutation {lo : Int} {perm : List Int} {size : Nat}
    (h : nextPermutation lo (lo + perm.length) perm size b = .done b') : Kinds b' := by
  obtain ⟨-, -, -, ⟨_, _, _, hp⟩, hout, hup⟩ := nextPermutation_done h
  refine ⟨?_, ?_, mergePermutation_notUpdate kinds.permutation hp⟩
  · rcases hout with ⟨-, hnil⟩ | hcs
    · simp [hnil]
    · exact all_permuteAddRemove hcs
  · intro u hu
    rw [hup] at hu
    split at hu
    · cases hu
    · exact all_regroupUpdates lo perm b.updates u hu

end Calls

theorem kinds_idle {b : ListChangeBuilder E} (idle : Idle b) : Kinds b.beginChange := by
  have hadd : b.beginChange.addRemove = [] := idle.addRemove
  have hup : b.beginChange.updates = [] := idle.updates
  have hperm : b.beginChange.permutationChange = none := idle.permutation
  exact ⟨by simp [hadd], by simp [hup], by simp [hperm]⟩

end ListChangeBuilder
end OpenJfx.Collections
