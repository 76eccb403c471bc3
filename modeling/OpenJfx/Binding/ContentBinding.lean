import Mathlib
import OpenJfx.Collections.SourceChange
import OpenJfx.Binding.BidirectionalBinding

/-! # Content bindings of lists

`ContentBinding.ListContentBinding` and `BidirectionalContentBinding.ListContentBinding`
replay every change of a list on a second list. Both read the elements of a permuted
range from the source, which is in its final state by then. The target ends equal to
the source exactly when the permuted positions that survive the rest of the change
hold in the final list what the permutations put there. -/
set_option autoImplicit false
namespace OpenJfx.Binding
open OpenJfx.Lib OpenJfx.Collections

section Lists
variable {E : Type}

def subList (lo hi : Int) (list : List E) : Except Exn (List E) :=
  if 0 ≤ lo ∧ lo ≤ hi ∧ hi ≤ list.length then .ok ((list.drop lo.toNat).take (hi - lo).toNat)
  else .error .indexOutOfBounds

/-- `list.subList(lo, hi).clear()`. -/
def clearRange (lo hi : Int) (list : List E) : Outcome Exn (List E) :=
  if 0 ≤ lo ∧ lo ≤ hi ∧ hi ≤ list.length then .done (list.take lo.toNat ++ list.drop hi.toNat)
  else .thrown .indexOutOfBounds list

/-- `list.addAll(index, elements)`. -/
def addAllAt (index : Int) (elements list : List E) : Outcome Exn (List E) :=
  if 0 ≤ index ∧ index ≤ list.length then
    .done (list.take index.toNat ++ (elements ++ list.drop index.toNat))
  else .thrown .indexOutOfBounds list

def removeAt (index : Int) (list : List E) : Outcome Exn (List E) :=
  if 0 ≤ index ∧ index < list.length then .done (list.eraseIdx index.toNat)
  else .thrown .indexOutOfBounds list

/-- `ObservableList.remove(lo, hi)`, one element after the other. -/
def removeEach (lo hi : Int) (list : List E) : Outcome Exn (List E) :=
  Outcome.run (fun _ list => removeAt lo list) (intRange lo hi) list

/-- `list.addAll(lo, source.subList(lo, hi))`. -/
def insertFrom (source : List E) (lo hi : Int) (list : List E) : Outcome Exn (List E) :=
  match subList lo hi source with
  | .ok elements => addAllAt lo elements list
  | .error x => .thrown x list

/-- The body of the loop over the sub-changes; the two bindings differ in the call that
removes a range. -/
def replaySubChange (removeRange : Int → Int → List E → Outcome Exn (List E)) (source : List E) (c : SubChange E)
    (list : List E) : Outcome Exn (List E) :=
  if c.wasPermutated then
    (removeRange c.fromIdx c.toIdx list).bind (insertFrom source c.fromIdx c.toIdx)
  else
    (if c.wasRemoved then removeRange c.fromIdx (c.fromIdx + c.getRemovedSize) list else .done list).bind (fun list =>
      if c.wasAdded then insertFrom source c.fromIdx c.toIdx list else .done list)

end Lists

/-! ## The bindings -/

/-- The list is weakly referenced, `none` after it has been collected. -/
structure ListContentBinding (E : Type) where
  list : Option (List E)
  registered : Bool
deriving DecidableEq, Repr

def ListContentBinding.onChanged {E : Type} (source : List E) (change : Change E) (b : ListContentBinding E) :
    Outcome Exn (ListContentBinding E) :=
  match b.list with
  | none => .done { b with registered := false }
  | some list =>
      (Outcome.run (replaySubChange clearRange source) change list).map (fun list => { b with list := some list })

structure BidirectionalListContentBinding (E : Type) where
  list : Side → Option (List E)
  registered : Side → Bool
  updating : Bool

/-- The call for a change of the list on one side. The target's own notifications come
back while `updating` is set and are ignored. -/
def BidirectionalListContentBinding.onChanged {E : Type} (side : Side) (change : Change E)
    (b : BidirectionalListContentBinding E) : Outcome Exn (BidirectionalListContentBinding E) :=
  if b.updating then .done b
  else
    match b.list side, b.list side.other with
    | some source, some dest =>
        (Outcome.run (replaySubChange removeEach source) change dest).map (fun dest =>
          { b with list := Function.update b.list side.other (some dest), updating := false })
    | _, _ => .done { b with registered := fun side => b.registered side && (b.list side).isNone }

/-! ## One sub-change -/

section Step
variable {E : Type} {list : List E}

def RemovesRange (removeRange : Int → Int → List E → Outcome Exn (List E)) : Prop :=
  ∀ (front mid back : List E), removeRange front.length (front.length + mid.length) (front ++ (mid ++ back)) =
    .done (front ++ back)

theorem clearRange_removes : RemovesRange (E := E) clearRange := by
  intro front mid back
  have hhi : ((front.length : Int) + mid.length).toNat = front.length + mid.length := by omega
  rw [clearRange, if_pos (by simp only [List.length_append]; omega), Int.toNat_natCast, hhi, List.take_left' rfl,
    ← List.append_assoc, ← List.length_append, List.drop_left' rfl]

theorem removeEach_removes : RemovesRange (E := E) removeEach := by
  intro front mid back
  have loop : ∀ (indices : List Int) (mid : List E), indices.length = mid.length →
      Outcome.run (fun _ list => removeAt (front.length : Int) list) indices (front ++ (mid ++ back)) =
        .done (front ++ back) := by
    intro indices
    induction indices with
    | nil =>
      intro mid hlen
      rw [List.length_eq_zero_iff.mp hlen.symm]
      rfl
    | cons index indices ih =>
      intro mid hlen
      cases mid with
      | nil => exact absurd hlen (by simp)
      | cons x mid =>
        have hremove : removeAt (front.length : Int) (front ++ (x :: mid ++ back)) = .done (front ++ (mid ++ back)) := by
          rw [removeAt, if_pos (by simp only [List.length_append, List.length_cons]; omega), Int.toNat_natCast,
            List.eraseIdx_append_of_length_le le_rfl]
          simp
        rw [Outcome.run_cons, hremove, Outcome.bind_done]
        exact ih mid (Nat.succ.inj hlen)
  rw [removeEach]
  apply loop
  rw [intRange_length]
  omega

theorem insertFrom_done (start added rest front back : List E) (hlen : front.length = start.length) :
    insertFrom (start ++ (added ++ rest)) front.length (front.length + added.length) (front ++ back) =
      .done (front ++ (added ++ back)) := by
  have hsub : subList (front.length : Int) (front.length + added.length) (start ++ (added ++ rest)) = .ok added := by
    rw [subList, if_pos (by simp only [List.length_append]; omega), Int.toNat_natCast, hlen, List.drop_left' rfl,
      List.take_left' (by omega)]
  rw [insertFrom, hsub]
  dsimp only
  rw [addAllAt, if_pos (by simp), Int.toNat_natCast, List.take_left' rfl, List.drop_left' rfl]

theorem insertFrom_outside {source : List E} {lo hi : Int} (h : source.length < hi) :
    insertFrom source lo hi list = .thrown .indexOutOfBounds list := by
  rw [insertFrom, subList, if_neg (by omega)]

end Step

/-! ## The add/remove sub-changes -/

section Edits
variable {E : Type} {removeRange : Int → Int → List E → Outcome Exn (List E)}

/-- The part of a list that edits leave, from position `p` of the new list on. -/
def kept {α : Type} : Int → List (SubChange E) → List α → List α
  | _, [], xs => xs
  | p, c :: cs, xs =>
      xs.take (c.fromIdx - p).toNat ++ kept c.toIdx cs (xs.drop ((c.fromIdx - p).toNat + c.getRemovedSize))

theorem map_kept {α β : Type} (f : α → β) (p : Int) (cs : List (SubChange E)) (xs : List α) :
    (kept p cs xs).map f = kept p cs (xs.map f) := by
  induction cs generalizing p xs with
  | nil => rfl
  | cons c cs ih => rw [kept, kept, List.map_append, List.map_take, ih, List.map_drop]

theorem replaySubChange_edit (removes : RemovesRange removeRange) {c : SubChange E} (plain : c.Plain)
    {start added rest front old back : List E} (hlen : front.length = start.length)
    (hlo : c.fromIdx = front.length) (hhi : c.toIdx = c.fromIdx + added.length)
    (hold : old.length = c.getRemovedSize) :
    replaySubChange removeRange (start ++ (added ++ rest)) c (front ++ (old ++ back)) =
      .done (front ++ (added ++ back)) := by
  obtain ⟨hperm, hupd⟩ := SourceChange.plain_accessors plain
  have hremove : (if c.wasRemoved then removeRange c.fromIdx (c.fromIdx + c.getRemovedSize) (front ++ (old ++ back))
      else .done (front ++ (old ++ back))) = .done (front ++ back) := by
    by_cases hrem : c.wasRemoved = true
    · rw [if_pos hrem, hlo, ← hold]
      exact removes front old back
    · have hnil : old = [] := by
        apply List.length_eq_zero_iff.mp
        rw [hold, SubChange.getRemovedSize]
        simpa [SubChange.wasRemoved] using hrem
      rw [if_neg hrem, hnil, List.nil_append]
  rw [replaySubChange, hperm, if_neg Bool.false_ne_true, hremove, Outcome.bind_done]
  by_cases hadd : c.wasAdded = true
  · rw [if_pos hadd, hhi, hlo]
    exact insertFrom_done start added rest front back hlen
  · have hnil : added = [] := by
      apply List.length_eq_zero_iff.mp
      have : ¬ c.fromIdx < c.toIdx := by simpa [SubChange.wasAdded, hperm, hupd] using hadd
      omega
    rw [if_neg hadd, hnil, List.nil_append]

/-- On a list of the right length the edits never fail. They lead to the new list when
the elements that stay are the right ones. -/
theorem edits_run (removes : RemovesRange removeRange) {cs : List (SubChange E)} (plain : ∀ c ∈ cs, c.Plain)
    {start front xs xs' ys : List E} (hlen : front.length = start.length)
    (h : Turns front.length (cs.map SubChange.edit) xs ys) (hxs : xs'.length = xs.length) :
    ∃ zs, Outcome.run (replaySubChange removeRange (start ++ ys)) cs (front ++ xs') = .done (front ++ zs) ∧
      (zs = ys ↔ kept front.length cs xs' = kept front.length cs xs) := by
  induction cs generalizing start front xs xs' ys with
  | nil =>
    have heq : xs = ys := h
    subst heq
    exact ⟨xs', rfl, Iff.rfl⟩
  | cons c cs ih =>
    obtain ⟨stay, added, rest, ys', hrest, hys, hlo, hhi, hturns⟩ := h
    simp only [SubChange.edit_lo, SubChange.edit_hi, SubChange.edit_old] at hrest hlo hhi hturns
    subst hrest hys
    -- the parts of `xs'` that correspond to the parts of `xs`
    obtain ⟨stay', old', rest', rfl, hstay, hold, hrest'⟩ : ∃ stay' old' rest', xs' = stay' ++ (old' ++ rest') ∧
        stay'.length = stay.length ∧ old'.length = c.getRemovedSize ∧ rest'.length = rest.length := by
      simp only [List.length_append] at hxs
      refine ⟨xs'.take stay.length, (xs'.drop stay.length).take c.getRemovedSize,
        (xs'.drop stay.length).drop c.getRemovedSize, ?_, ?_, ?_, ?_⟩
      · rw [List.take_append_drop, List.take_append_drop]
      · rw [List.length_take]
        omega
      · rw [List.length_take, List.length_drop, SubChange.getRemovedSize]
        omega
      · rw [List.length_drop, List.length_drop, SubChange.getRemovedSize]
        omega
    have hstep : replaySubChange removeRange (start ++ (stay ++ (added ++ ys'))) c (front ++ (stay' ++ (old' ++ rest'))) =
        .done ((front ++ stay') ++ (added ++ rest')) := by
      rw [← List.append_assoc start, ← List.append_assoc front]
      apply replaySubChange_edit removes (plain c List.mem_cons_self)
      · simp only [List.length_append]
        omega
      · simp only [List.length_append]
        omega
      · exact hhi
      · exact hold
    have hnext : (((front ++ stay') ++ added).length : Int) = c.toIdx := by
      simp only [List.length_append]
      omega
    obtain ⟨zs, hrun, hiff⟩ := @ih (fun d hd => plain d (List.mem_cons_of_mem _ hd))
      ((start ++ stay) ++ added) ((front ++ stay') ++ added) rest rest' ys'
      (by simp only [List.length_append]; omega) (by rw [hnext]; exact hturns) hrest'
    rw [hnext] at hiff
    have hgap : (c.fromIdx - front.length).toNat = stay.length := by omega
    refine ⟨stay' ++ (added ++ zs), ?_, ?_⟩
    · simp only [List.append_assoc] at hstep hrun ⊢
      rw [Outcome.run_cons, hstep, Outcome.bind_done, hrun]
    · have hkept' : kept front.length (c :: cs) (stay' ++ (old' ++ rest')) = stay' ++ kept c.toIdx cs rest' := by
        rw [kept, hgap, ← hstay, List.take_left' rfl, ← hold, ← List.append_assoc, ← List.length_append,
          List.drop_left' rfl]
      have hkept : kept front.length (c :: cs) (stay ++ (c.getRemoved ++ rest)) = stay ++ kept c.toIdx cs rest := by
        rw [kept, hgap, List.take_left' rfl, SubChange.getRemovedSize, ← List.append_assoc, ← List.length_append,
          List.drop_left' rfl]
      rw [hkept, hkept']
      constructor
      · intro heq
        obtain ⟨h1, h2⟩ := List.append_inj heq hstay
        rw [h1, hiff.mp (List.append_cancel_left h2)]
      · intro heq
        obtain ⟨h1, h2⟩ := List.append_inj heq hstay
        rw [h1, hiff.mpr h2]

end Edits

/-! ## The permutations -/

section Permutations
variable {E : Type} {removeRange : Int → Int → List E → Outcome Exn (List E)}

/-- Some permutation covers the position. -/
def Permuted (cs : List (SubChange E)) (i : Nat) : Prop := ∃ c ∈ cs, c.fromIdx ≤ i ∧ i < c.toIdx

instance (cs : List (SubChange E)) (i : Nat) : Decidable (Permuted cs i) :=
  inferInstanceAs (Decidable (∃ c ∈ cs, c.fromIdx ≤ i ∧ i < c.toIdx))

theorem valid_parts {c : SubChange E} {list : List E} (valid : c.ValidPermutation list.length) :
    ∃ front mid back, list = front ++ (mid ++ back) ∧ c.fromIdx = front.length ∧ c.toIdx = front.length + mid.length := by
  obtain ⟨h0, hto, hlen, -⟩ := valid
  refine ⟨list.take c.fromIdx.toNat, (list.drop c.fromIdx.toNat).take c.perm.length,
    (list.drop c.fromIdx.toNat).drop c.perm.length, ?_, ?_, ?_⟩
  · rw [List.take_append_drop, List.take_append_drop]
  · rw [List.length_take]
    omega
  · rw [List.length_take, List.length_take, List.length_drop]
    omega

theorem replaySubChange_permutation (removes : RemovesRange removeRange) {c : SubChange E} {source list : List E}
    (hperm : c.wasPermutated = true) (valid : c.ValidPermutation list.length) (inside : c.toIdx ≤ source.length) :
    ∃ next, replaySubChange removeRange source c list = .done next ∧ next.length = list.length ∧
      ∀ i : Nat, next[i]? = if c.fromIdx ≤ i ∧ i < c.toIdx then source[i]? else list[i]? := by
  obtain ⟨front, mid, back, rfl, hlo, hhi⟩ := valid_parts valid
  have hsource : source = source.take front.length ++ ((source.drop front.length).take mid.length ++
      (source.drop front.length).drop mid.length) := by
    rw [List.take_append_drop, List.take_append_drop]
  have hfront : front.length = (source.take front.length).length := by
    rw [List.length_take]
    omega
  have hmid : mid.length = ((source.drop front.length).take mid.length).length := by
    rw [List.length_take, List.length_drop]
    omega
  have hinsert : insertFrom source front.length (front.length + mid.length) (front ++ back) =
      .done (front ++ ((source.drop front.length).take mid.length ++ back)) := by
    have h := insertFrom_done (source.take front.length) ((source.drop front.length).take mid.length)
      ((source.drop front.length).drop mid.length) front back hfront
    rwa [← hsource, ← hmid] at h
  refine ⟨front ++ ((source.drop front.length).take mid.length ++ back), ?_, ?_, ?_⟩
  · rw [replaySubChange, if_pos hperm, hlo, hhi, removes front mid back, Outcome.bind_done, hinsert]
  · simp only [List.length_append, ← hmid]
  · intro i
    rw [hlo, hhi]
    by_cases h1 : i < front.length
    · rw [if_neg (by omega), List.getElem?_append_left h1, List.getElem?_append_left h1]
    · by_cases h2 : i < front.length + mid.length
      · rw [if_pos (by omega), List.getElem?_append_right (by omega), List.getElem?_append_left (by omega),
          List.getElem?_take_of_lt (by omega), List.getElem?_drop]
        congr 1
        omega
      · rw [if_neg (by omega), List.getElem?_append_right (by omega), List.getElem?_append_right (by omega),
          List.getElem?_append_right (by omega), List.getElem?_append_right (by omega), ← hmid]

theorem replaySubChange_outside (removes : RemovesRange removeRange) {c : SubChange E} {source list : List E}
    (hperm : c.wasPermutated = true) (valid : c.ValidPermutation list.length) (outside : source.length < c.toIdx) :
    ∃ x next, replaySubChange removeRange source c list = .thrown x next := by
  obtain ⟨front, mid, back, rfl, hlo, hhi⟩ := valid_parts valid
  refine ⟨.indexOutOfBounds, front ++ back, ?_⟩
  rw [replaySubChange, if_pos hperm, hlo, hhi, removes front mid back, Outcome.bind_done, insertFrom_outside (by omega)]

theorem permutations_run (removes : RemovesRange removeRange) {cs : List (SubChange E)} {source cur mid list : List E}
    (h : SourceChange.Permutes cs cur mid) (hlen : list.length = cur.length)
    (inside : ∀ c ∈ cs, c.toIdx ≤ source.length) :
    ∃ next, Outcome.run (replaySubChange removeRange source) cs list = .done next ∧ next.length = mid.length ∧
      ∀ i : Nat, next[i]? = if Permuted cs i then source[i]? else list[i]? := by
  induction cs generalizing cur list with
  | nil =>
    have heq : cur = mid := h
    subst heq
    refine ⟨list, rfl, hlen, ?_⟩
    intro i
    rw [if_neg (by simp [Permuted])]
  | cons c cs ih =>
    obtain ⟨hperm, hvalid, hrest⟩ := h
    obtain ⟨next, hstep, hnext, hget⟩ := replaySubChange_permutation removes hperm (hlen ▸ hvalid)
      (inside c List.mem_cons_self)
    have hmoved : (permuteRange c.fromIdx c.perm cur).length = cur.length :=
      permuteRange_length hvalid.2.2.2 hvalid.1 (hvalid.2.2.1 ▸ hvalid.2.1)
    obtain ⟨last, hrun, hlast, hgets⟩ := ih hrest (hnext.trans (hlen.trans hmoved.symm))
      (fun d hd => inside d (List.mem_cons_of_mem _ hd))
    refine ⟨last, by rw [Outcome.run_cons, hstep, Outcome.bind_done, hrun], hlast, ?_⟩
    intro i
    rw [hgets i, hget i]
    by_cases hc : c.fromIdx ≤ (i : Int) ∧ (i : Int) < c.toIdx
    · have hcov : Permuted (c :: cs) i := ⟨c, List.mem_cons_self, hc⟩
      rw [if_pos hc, ite_self, if_pos hcov]
    · rw [if_neg hc]
      have hiff : Permuted (c :: cs) i ↔ Permuted cs i := by
        simp [Permuted, hc]
      simp only [hiff]

theorem permutations_throw (removes : RemovesRange removeRange) {cs : List (SubChange E)} {source cur mid list : List E}
    (h : SourceChange.Permutes cs cur mid) (hlen : list.length = cur.length)
    (outside : ¬ ∀ c ∈ cs, c.toIdx ≤ source.length) :
    ∃ x next, Outcome.run (replaySubChange removeRange source) cs list = .thrown x next := by
  induction cs generalizing cur list with
  | nil => exact absurd (fun c hc => absurd hc List.not_mem_nil) outside
  | cons c cs ih =>
    obtain ⟨hperm, hvalid, hrest⟩ := h
    by_cases hc : c.toIdx ≤ source.length
    · obtain ⟨next, hstep, hnext, -⟩ := replaySubChange_permutation removes hperm (hlen ▸ hvalid) hc
      have hmoved : (permuteRange c.fromIdx c.perm cur).length = cur.length :=
        permuteRange_length hvalid.2.2.2 hvalid.1 (hvalid.2.2.1 ▸ hvalid.2.1)
      obtain ⟨x, last, hrun⟩ := ih hrest (hnext.trans (hlen.trans hmoved.symm)) (by
        intro hall
        apply outside
        intro d hd
        rcases List.mem_cons.mp hd with rfl | hd
        · exact hc
        · exact hall d hd)
      exact ⟨x, last, by rw [Outcome.run_cons, hstep, Outcome.bind_done, hrun]⟩
    · obtain ⟨x, next, hstep⟩ := replaySubChange_outside removes hperm (hlen ▸ hvalid) (not_le.mp hc)
      exact ⟨x, next, by rw [Outcome.run_cons, hstep, Outcome.bind_thrown]⟩

theorem permutes_outside {cs : List (SubChange E)} {cur mid : List E} (h : SourceChange.Permutes cs cur mid) {i : Nat}
    (hi : ¬ Permuted cs i) : mid[i]? = cur[i]? := by
  induction cs generalizing cur with
  | nil =>
    have heq : cur = mid := h
    rw [heq]
  | cons c cs ih =>
    obtain ⟨-, hvalid, hrest⟩ := h
    have hc : ¬ (c.fromIdx ≤ (i : Int) ∧ (i : Int) < c.toIdx) := fun hin => hi ⟨c, List.mem_cons_self, hin⟩
    have hcs : ¬ Permuted cs i := fun ⟨d, hd, hin⟩ => hi ⟨d, List.mem_cons_of_mem _ hd, hin⟩
    obtain ⟨h0, hto, hlen, hrange⟩ := hvalid
    have hmoved : (permuteRange c.fromIdx c.perm cur).length = cur.length :=
      permuteRange_length hrange h0 (hlen ▸ hto)
    rw [ih hrest hcs]
    by_cases hlt : i < cur.length
    · have hget := getElem?_permuteRange hrange h0 (hlen ▸ hto) i hlt
      rwa [rangeMap_outside (by omega), Int.toNat_natCast] at hget
    · rw [List.getElem?_eq_none (by omega), List.getElem?_eq_none (by omega)]

theorem permutes_length {cs : List (SubChange E)} {cur mid : List E} (h : SourceChange.Permutes cs cur mid) :
    mid.length = cur.length := by
  induction cs generalizing cur with
  | nil =>
    have heq : cur = mid := h
    rw [heq]
  | cons c cs ih =>
    obtain ⟨-, hvalid, hrest⟩ := h
    rw [ih hrest, permuteRange_length hvalid.2.2.2 hvalid.1 (hvalid.2.2.1 ▸ hvalid.2.1)]

end Permutations

/-! ## The whole change -/

section Mirror
variable {E : Type} {removeRange : Int → Int → List E → Outcome Exn (List E)}

def permuted (cs : List (SubChange E)) (old : List E) : List E :=
  cs.foldl (fun list c => permuteRange c.fromIdx c.perm list) old

theorem permutes_eq {cs : List (SubChange E)} {old mid : List E} (h : SourceChange.Permutes cs old mid) :
    permuted cs old = mid := by
  induction cs generalizing old with
  | nil => exact h
  | cons c cs ih => exact ih h.2.2

/-- The permuted ranges lie in the final list, and every permuted position that the
add/remove sub-changes leave has in the final list the element it had after the
permutations. -/
def Undisturbed (old new : List E) (c : SourceChange E) : Prop :=
  (∀ p ∈ c.permutations, p.toIdx ≤ new.length) ∧
    ∀ i ∈ kept 0 c.edits (List.range old.length), Permuted c.permutations i →
      new[i]? = (permuted c.permutations old)[i]?

theorem updates_run {cs : List (SubChange E)} {source list : List E} {n : Nat}
    (h : ∀ u ∈ cs, SourceChange.Updates n u) :
    Outcome.run (replaySubChange removeRange source) cs list = .done list := by
  induction cs with
  | nil => rfl
  | cons u cs ih =>
    obtain ⟨hperm, hupd⟩ := SourceChange.updates_accessors (h u List.mem_cons_self)
    have hremoved : u.wasRemoved = false := by
      rw [SubChange.wasRemoved, (h u List.mem_cons_self).2.2.1]
      rfl
    have hadded : u.wasAdded = false := by
      rw [SubChange.wasAdded, hperm, hupd]
      rfl
    have hstep : replaySubChange removeRange source u list = .done list := by
      rw [replaySubChange, hperm, hremoved, hadded]
      rfl
    rw [Outcome.run_cons, hstep, Outcome.bind_done]
    exact ih (fun d hd => h d (List.mem_cons_of_mem _ hd))

theorem kept_eq_iff {cs : List (SubChange E)} {xs ys : List E} (hlen : xs.length = ys.length) :
    kept 0 cs xs = kept 0 cs ys ↔ ∀ i ∈ kept 0 cs (List.range xs.length), xs[i]? = ys[i]? := by
  have positions : ∀ zs : List E, (kept 0 cs zs).map some = (kept 0 cs (List.range zs.length)).map (fun i => zs[i]?) := by
    intro zs
    rw [map_kept, map_kept]
    congr 1
    apply List.ext_getElem?
    intro i
    by_cases hi : i < zs.length
    · simp [hi]
    · simp [hi]
  constructor
  · intro h
    have hmap := congrArg (List.map some) h
    rw [positions, positions, ← hlen] at hmap
    exact List.map_inj_left.mp hmap
  · intro h
    have hmap := List.map_inj_left.mpr h
    rw [← positions, hlen, ← positions] at hmap
    exact (List.map_inj_right (fun _ _ => Option.some.inj)).mp hmap

/-- Replaying a legal change on a copy of the old list gives the new list exactly when
the rest of the change does not disturb the permuted ranges. -/
theorem replay_iff_undisturbed (removes : RemovesRange removeRange) {old new : List E} {c : SourceChange E}
    (legal : c.Legal old new) :
    Outcome.run (replaySubChange removeRange new) c.change old = .done new ↔ Undisturbed old new c := by
  obtain ⟨mid, hpermutes, hturns⟩ := legal.turns
  have hmid := permutes_length hpermutes
  rw [SourceChange.change, Outcome.run_append]
  by_cases inside : ∀ p ∈ c.permutations, p.toIdx ≤ new.length
  · obtain ⟨next, hrun, hnext, hget⟩ := permutations_run removes hpermutes rfl inside
    obtain ⟨zs, hedits, hiff⟩ := @edits_run E removeRange removes c.edits legal.plain [] [] mid next new rfl hturns hnext
    simp only [List.nil_append, List.length_nil, Nat.cast_zero] at hedits hiff
    rw [hrun, Outcome.bind_done, Outcome.run_append, hedits, Outcome.bind_done, updates_run legal.updates,
      Outcome.done.injEq, hiff, kept_eq_iff hnext, hnext, hmid]
    rw [Undisturbed, permutes_eq hpermutes]
    constructor
    · intro hall
      refine ⟨inside, ?_⟩
      intro i hi hperm
      rw [← hall i hi, hget i, if_pos hperm]
    · intro hcond i hi
      rw [hget i]
      by_cases hperm : Permuted c.permutations i
      · rw [if_pos hperm, hcond.2 i hi hperm]
      · rw [if_neg hperm, permutes_outside hpermutes hperm]
  · obtain ⟨x, next, hrun⟩ := permutations_throw removes hpermutes rfl inside
    rw [hrun, Outcome.bind_thrown]
    constructor
    · intro h
      cases h
    · exact fun h => absurd h.1 inside

/-- Both bindings mirror a legal change exactly when it leaves its permuted ranges
undisturbed. -/
theorem content_binding_mirrors_iff {old new : List E} {c : SourceChange E} (legal : c.Legal old new)
    (registered : Bool) (side : Side) (both : Side → Bool) :
    (ListContentBinding.onChanged new c.change ⟨some old, registered⟩ = .done ⟨some new, registered⟩ ↔
      Undisturbed old new c) ∧
    (BidirectionalListContentBinding.onChanged side c.change
        ⟨fun s => if s = side then some new else some old, both, false⟩ = .done ⟨fun _ => some new, both, false⟩ ↔
      Undisturbed old new c) := by
  constructor
  · rw [← replay_iff_undisturbed clearRange_removes legal, ListContentBinding.onChanged]
    dsimp only
    cases Outcome.run (replaySubChange clearRange new) c.change old with
    | done list => simp
    | thrown x list => simp
  · rw [← replay_iff_undisturbed removeEach_removes legal]
    have hother : side.other ≠ side := by
      cases side with
      | first => exact fun h => nomatch h
      | second => exact fun h => nomatch h
    simp only [BidirectionalListContentBinding.onChanged, Bool.false_eq_true, if_false, if_true, if_neg hother]
    cases Outcome.run (replaySubChange removeEach new) c.change old with
    | thrown x list => simp
    | done list =>
        simp only [Outcome.map_done, Outcome.done.injEq, BidirectionalListContentBinding.mk.injEq, and_true]
        constructor
        · intro h
          have hlist := congrFun h side.other
          rw [Function.update_self] at hlist
          exact Option.some.inj hlist
        · intro h
          subst h
          funext s
          by_cases hs : s = side.other
          · rw [hs, Function.update_self]
          · have hside : s = side := by
              cases s <;> cases side <;> simp_all [Side.other]
            rw [Function.update_of_ne hs, if_pos hside]

/-- The two elements of a list change places, and one is added behind them. -/
def swapAndAppend : SourceChange Nat := ⟨[⟨0, 2, none, [1, 0], false⟩], [⟨2, 3, none, [], false⟩], []⟩

/-- The two elements of a list change places, and one is added in front of them. -/
def swapAndPush : SourceChange Nat := ⟨[⟨0, 2, none, [1, 0], false⟩], [⟨0, 1, none, [], false⟩], []⟩

theorem swapAndAppend_legal : swapAndAppend.Legal [10, 20] [20, 10, 30] where
  plain := by decide
  updates := by decide
  turns := ⟨[20, 10], ⟨by decide, by decide, rfl⟩, [20, 10], [30], [], [], rfl, rfl, rfl, rfl, rfl⟩

theorem swapAndPush_legal : swapAndPush.Legal [10, 20] [30, 20, 10] where
  plain := by decide
  updates := by decide
  turns := ⟨[20, 10], ⟨by decide, by decide, rfl⟩, [], [30], [20, 10], [20, 10], rfl, rfl, rfl, rfl, rfl⟩

theorem content_binding_mirrors_iff_append :
    ListContentBinding.onChanged [20, 10, 30] swapAndAppend.change ⟨some [10, 20], true⟩ =
      .done ⟨some [20, 10, 30], true⟩ :=
  (content_binding_mirrors_iff swapAndAppend_legal true .first (fun _ => true)).1.mpr (by
    unfold Undisturbed
    decide)

/-- The binding reads the permuted range from the final list, where the added element
stands already. -/
theorem permuted_range_is_read_too_late :
    swapAndPush.Legal [10, 20] [30, 20, 10] ∧
    ListContentBinding.onChanged [30, 20, 10] swapAndPush.change ⟨some [10, 20], true⟩ =
      .done ⟨some [30, 30, 20], true⟩ ∧
    (BidirectionalListContentBinding.onChanged .first swapAndPush.change
      ⟨fun s => if s = .first then some [30, 20, 10] else some [10, 20], fun _ => true, false⟩).state.list .second =
        some [30, 30, 20] :=
  ⟨swapAndPush_legal, by decide, by decide⟩

end Mirror

end OpenJfx.Binding
