import OpenJfx.Collections.ListChangeBuilder

/-! # Recording insertions and removals

What `nextAdd` and `nextRemove` do to the recorded add/remove sub-changes, in
terms of the edit script they stand for: if the recorded sub-changes turn the
original list into the current one, then after the call they turn it into the
changed one.  For removals there are two branches of the source on which this
fails; `Misfires` describes them on the state before the call. -/
set_option autoImplicit false
namespace OpenJfx.Collections
open OpenJfx.Lib

namespace ListChangeBuilder
variable {E : Type}

/-! ## The list operations of the builder at a split list -/

section Splits
variable (pre post : List (SubChange E)) (c : SubChange E)

@[simp] theorem getElem?_split : (pre ++ c :: post)[pre.length]? = some c := by
  rw [List.getElem?_append_right le_rfl, Nat.sub_self, List.getElem?_cons_zero]

@[simp] theorem modify_split (f : SubChange E → SubChange E) :
    (pre ++ c :: post).modify pre.length f = pre ++ f c :: post := by
  induction pre with
  | nil => rfl
  | cons d pre ih => simpa [List.modify] using ih

@[simp] theorem set_split (d : SubChange E) :
    (pre ++ c :: post).set pre.length d = pre ++ d :: post := by
  rw [List.set_append_right _ _ le_rfl, Nat.sub_self, List.set_cons_zero]

@[simp] theorem eraseIdx_split : (pre ++ c :: post).eraseIdx pre.length = pre ++ post := by
  rw [List.eraseIdx_append_of_length_le le_rfl, Nat.sub_self, List.eraseIdx_cons_zero]

@[simp] theorem insertIdx_split : (pre ++ post).insertIdx pre.length c = pre ++ c :: post := by
  induction pre with
  | nil => rfl
  | cons d pre ih => simpa using ih

@[simp] theorem shiftFrom_split (d : Int) :
    shiftFrom pre.length d (pre ++ post) = pre ++ post.map (SubChange.shift d) := by
  rw [shiftFrom, List.take_left' rfl, List.drop_left' rfl]

@[simp] theorem shiftFrom_split_succ (d : Int) :
    shiftFrom (pre.length + 1) d (pre ++ c :: post) = pre ++ c :: post.map (SubChange.shift d) := by
  have h := shiftFrom_split (pre ++ [c]) post d
  simpa using h

theorem shiftFrom_past (d : Int) (k : Nat) (h : pre.length ≤ k) : shiftFrom k d pre = pre := by
  rw [shiftFrom, List.take_of_length_le h, List.drop_eq_nil_of_le h, List.map_nil, List.append_nil]

theorem changeRemoved_some (f : List E → List E) {removed : List E} (h : c.removed = some removed) :
    changeRemoved pre.length f (pre ++ c :: post) =
      .done (pre ++ { c with removed := some (f removed) } :: post) := by
  simp [changeRemoved, h]

theorem changeRemoved_none (f : List E → List E) (h : c.removed = none) :
    changeRemoved pre.length f (pre ++ c :: post) = .thrown .nullPointer (pre ++ c :: post) := by
  simp [changeRemoved, h]

theorem getBefore_split : getBefore (pre ++ [c]).length ((pre ++ [c]) ++ post) = some c := by
  simp [getBefore]

end Splits

theorem getBefore_cases (pre post : List (SubChange E)) :
    pre = [] ∧ getBefore pre.length (pre ++ post) = none ∨
      ∃ init c, pre = init ++ [c] ∧ getBefore pre.length (pre ++ post) = some c := by
  rcases List.eq_nil_or_concat' pre with rfl | ⟨init, c, rfl⟩
  · exact Or.inl ⟨rfl, rfl⟩
  · exact Or.inr ⟨init, c, rfl, getBefore_split init post c⟩

theorem ordered_edits {p : Int} {cs : List (SubChange E)} :
    Ordered Edit.lo Edit.hi p (cs.map SubChange.edit) ↔
      Ordered SubChange.fromIdx SubChange.toIdx p cs := by
  induction cs generalizing p with
  | nil => exact Iff.rfl
  | cons c cs ih => simp only [List.map_cons, Ordered, SubChange.edit_lo, SubChange.edit_hi, ih]

theorem lastEnd_edits (p : Int) (cs : List (SubChange E)) :
    lastEnd Edit.hi p (cs.map SubChange.edit) = lastEnd SubChange.toIdx p cs := by
  induction cs generalizing p with
  | nil => rfl
  | cons c cs ih => exact ih _

theorem map_shift_edit (d : Int) (cs : List (SubChange E)) :
    (cs.map (SubChange.shift d)).map SubChange.edit = (cs.map SubChange.edit).map (Edit.shift d) := by
  simp [Function.comp_def]

theorem ordered_before_last {pre : List (SubChange E)} {last : SubChange E} {p : Int}
    (h : Ordered SubChange.fromIdx SubChange.toIdx p (pre ++ [last])) :
    (∀ c ∈ pre, c.toIdx ≤ last.fromIdx) ∧ last.fromIdx ≤ last.toIdx := by
  obtain ⟨hpre, hlast⟩ := ordered_append.mp h
  refine ⟨?_, hlast.2.1⟩
  intro c hc
  exact (hpre.hi_le_lastEnd c hc).trans hlast.1

/-! ## Removals -/

/-- The sub-change whose `removed` list `nextRemove` stores into. -/
def removedTarget (idx : Int) (list : List (SubChange E)) : Option (SubChange E) :=
  match list.getLast? with
  | none => none
  | some last =>
      if last.toIdx = idx ∨ last.fromIdx = idx + 1 then some last
      else
        match findSubChange idx list with
        | .negSucc k =>
            if (getBefore k list).any (fun change => change.toIdx == idx) then getBefore k list
            else if (list[k]?).any (fun change => change.fromIdx == idx + 1) then list[k]?
            else none
        | .ofNat _ => none

/-- The removal would store into a null `removed` list. -/
def HitsNull (idx : Int) (list : List (SubChange E)) : Prop :=
  ∃ c ∈ removedTarget idx list, c.removed = none

/-- The two branches of `nextRemove` that lose track of the list.  Either the
element stands directly before the last sub-change and an earlier sub-change
ends where the last one starts: the fast path then moves the last sub-change
across the earlier one.  Or the element is the only one of an added range that
replaced nothing and is not the last sub-change: the range is deleted, and the
sub-change behind it is not moved. -/
def Misfires (idx : Int) (list : List (SubChange E)) : Prop :=
  match list.getLast? with
  | none => False
  | some last =>
      if last.toIdx = idx then False
      else if last.fromIdx = idx + 1 then ∃ c ∈ list.dropLast, c.toIdx = last.fromIdx
      else
        match findSubChange idx list with
        | .ofNat k => k + 1 < list.length ∧
            ∃ c ∈ list[k]?, c.fromIdx = c.toIdx - 1 ∧ c.getRemoved = []
        | .negSucc _ => False

instance (idx : Int) (list : List (SubChange E)) : Decidable (Misfires idx list) := by
  unfold Misfires
  repeat' split
  all_goals infer_instance

/-- No null `removed` list and no sub-change of another kind comes in. -/
def Keeps (cs cs' : List (SubChange E)) : Prop :=
  ((∀ c ∈ cs, c.removed ≠ none) → ∀ c ∈ cs', c.removed ≠ none) ∧
    ((∀ c ∈ cs, c.Plain) → ∀ c ∈ cs', c.Plain)

/-- What a call leaves: a list that turns `original` into `current`. -/
def Leaves (cs : List (SubChange E)) (original current : List E)
    (o : Outcome Exn (List (SubChange E))) : Prop :=
  ∃ cs', o = .done cs' ∧ Turns 0 (cs'.map SubChange.edit) original current ∧ Keeps cs cs'

private theorem all_replace {P : SubChange E → Prop} {pre post : List (SubChange E)}
    {c d : SubChange E} (n : Int) (hd : P c → P d) (hshift : ∀ x, P x → P (x.shift n))
    (h : ∀ x ∈ pre ++ c :: post, P x) : ∀ x ∈ pre ++ d :: post.map (SubChange.shift n), P x := by
  intro x hx
  simp only [List.mem_append, List.mem_cons, List.mem_map] at hx h
  rcases hx with hx | rfl | ⟨y, hy, rfl⟩
  · exact h x (Or.inl hx)
  · exact hd (h c (Or.inr (Or.inl rfl)))
  · exact hshift y (h y (Or.inr (Or.inr hy)))

private theorem keeps_replace {pre post : List (SubChange E)} {c d : SubChange E} (n : Int)
    (hnull : c.removed ≠ none → d.removed ≠ none) (hplain : c.Plain → d.Plain) :
    Keeps (pre ++ c :: post) (pre ++ d :: post.map (SubChange.shift n)) :=
  ⟨all_replace n hnull (fun _ h => h), all_replace n hplain (fun _ h => h)⟩

private theorem all_insert {P : SubChange E → Prop} {pre post : List (SubChange E)}
    {d : SubChange E} (n : Int) (hd : P d) (hshift : ∀ x, P x → P (x.shift n))
    (h : ∀ x ∈ pre ++ post, P x) : ∀ x ∈ pre ++ d :: post.map (SubChange.shift n), P x := by
  intro x hx
  simp only [List.mem_append, List.mem_cons, List.mem_map] at hx h
  rcases hx with hx | rfl | ⟨y, hy, rfl⟩
  · exact h x (Or.inl hx)
  · exact hd
  · exact hshift y (h y (Or.inr hy))

private theorem keeps_insert {pre post : List (SubChange E)} {d : SubChange E} (n : Int)
    (hnull : d.removed ≠ none) (hplain : d.Plain) :
    Keeps (pre ++ post) (pre ++ d :: post.map (SubChange.shift n)) :=
  ⟨all_insert n hnull (fun _ h => h), all_insert n hplain (fun _ h => h)⟩

private theorem cut_edits {pre post : List (SubChange E)} {original front back : List E}
    (h : Turns 0 ((pre ++ post).map SubChange.edit) original (front ++ back))
    (ends : ∀ c ∈ pre, c.toIdx ≤ front.length) :
    ∃ xs₁ xs₂ ys₁ mid q, original = xs₁ ++ xs₂ ∧ front = ys₁ ++ mid ∧ q = (ys₁.length : Int) ∧
      Covers 0 (pre.map SubChange.edit) xs₁ ys₁ q ∧
      Turns q (post.map SubChange.edit) xs₂ (mid ++ back) := by
  rw [List.map_append] at h
  obtain ⟨xs₁, xs₂, ys₁, mid, q, h1, h2, h3, h4, h5⟩ := turns_cut h (by
    intro e he
    obtain ⟨c, hc, rfl⟩ := List.mem_map.mp he
    have := ends c hc
    simp only [SubChange.edit_hi]
    omega)
  exact ⟨xs₁, xs₂, ys₁, mid, q, h1, h2, by omega, h4, h5⟩

private theorem remove_after (pre post : List (SubChange E)) {c : SubChange E} {removed : List E}
    {original front back : List E} {x : E}
    (h : Turns 0 ((pre ++ c :: post).map SubChange.edit) original (front ++ x :: back))
    (ends : ∀ d ∈ pre, d.toIdx ≤ c.fromIdx) (low : c.fromIdx ≤ c.toIdx)
    (atEnd : c.toIdx = front.length) (next : ∀ d ∈ post.head?, c.toIdx < d.fromIdx)
    (hrem : c.removed = some removed) :
    Leaves (pre ++ c :: post) original (front ++ back) (.done
      (pre ++ { c with removed := some (removed ++ [x]) } :: post.map (SubChange.shift (-1)))) := by
  refine ⟨_, rfl, ?_, keeps_replace _ (fun _ => by simp) (fun h => h)⟩
  obtain ⟨xs₁, xs₂, ys₁, mid, q, rfl, rfl, hq, hcov, hturn⟩ := cut_edits h
    (fun d hd => by have := ends d hd; omega)
  rw [List.length_append] at atEnd
  have hgr : c.getRemoved = removed := by rw [SubChange.getRemoved, hrem]; rfl
  have hnew := turns_remove_after hturn (by rw [SubChange.edit_hi]; omega) low (by
    intro f hf
    rw [List.head?_map] at hf
    obtain ⟨d, hd, rfl⟩ := Option.mem_map.mp hf
    exact next d hd)
  rw [List.append_assoc, List.map_append, List.map_cons, map_shift_edit]
  rw [SubChange.edit_old, hgr] at hnew
  exact turns_glue hcov hnew

private theorem remove_before (pre post : List (SubChange E)) {c : SubChange E} {removed : List E}
    {original front back : List E} {x : E}
    (h : Turns 0 ((pre ++ c :: post).map SubChange.edit) original (front ++ x :: back))
    (ends : ∀ d ∈ pre, d.toIdx ≤ front.length) (atStart : c.fromIdx = front.length + 1)
    (hrem : c.removed = some removed) :
    Leaves (pre ++ c :: post) original (front ++ back) (.done
      (pre ++ { (c.shift (-1)) with removed := some (x :: removed) } ::
        post.map (SubChange.shift (-1)))) := by
  refine ⟨_, rfl, ?_, keeps_replace _ (fun _ => by simp) (fun h => h)⟩
  obtain ⟨xs₁, xs₂, ys₁, mid, q, rfl, rfl, hq, hcov, hturn⟩ := cut_edits h ends
  rw [List.length_append] at atStart
  have hgr : c.getRemoved = removed := by rw [SubChange.getRemoved, hrem]; rfl
  have hnew := turns_remove_before hturn (by rw [SubChange.edit_lo]; omega)
  rw [List.append_assoc, List.map_append, List.map_cons, map_shift_edit]
  rw [SubChange.edit_old, hgr] at hnew
  exact turns_glue hcov hnew

private theorem remove_inside (pre post : List (SubChange E)) {c : SubChange E}
    {original front back : List E} {x : E}
    (h : Turns 0 ((pre ++ c :: post).map SubChange.edit) original (front ++ x :: back))
    (ends : ∀ d ∈ pre, d.toIdx ≤ front.length) (left : c.fromIdx ≤ front.length)
    (right : (front.length : Int) < c.toIdx) :
    Turns 0 ((pre ++ { c with toIdx := c.toIdx - 1 } :: post.map (SubChange.shift (-1))).map
      SubChange.edit) original (front ++ back) := by
  obtain ⟨xs₁, xs₂, ys₁, mid, q, rfl, rfl, hq, hcov, hturn⟩ := cut_edits h ends
  rw [List.length_append] at left right
  have hnew := turns_remove_added hturn (by rw [SubChange.edit_lo]; omega)
    (by rw [SubChange.edit_hi]; omega)
  rw [List.append_assoc, List.map_append, List.map_cons, map_shift_edit]
  exact turns_glue hcov hnew

private theorem remove_gap (pre post : List (SubChange E)) {original front back : List E} {x : E}
    (h : Turns 0 ((pre ++ post).map SubChange.edit) original (front ++ x :: back))
    (ends : ∀ d ∈ pre, d.toIdx ≤ front.length)
    (next : ∀ d ∈ post, (front.length : Int) < d.fromIdx) :
    Turns 0 ((pre ++ ⟨front.length, front.length, some [x], [], false⟩ ::
      post.map (SubChange.shift (-1))).map SubChange.edit) original (front ++ back) := by
  obtain ⟨xs₁, xs₂, ys₁, mid, q, rfl, rfl, hq, hcov, hturn⟩ := cut_edits h ends
  rw [List.length_append] at next
  have hnew := turns_remove_kept hturn (by
    intro f hf
    rw [List.head?_map] at hf
    obtain ⟨d, hd, rfl⟩ := Option.mem_map.mp hf
    have := next d (List.mem_of_mem_head? hd)
    rw [SubChange.edit_lo]
    omega)
  have hpos : q + (mid.length : Int) = ((ys₁ ++ mid).length : Nat) := by
    rw [List.length_append]
    omega
  rw [hpos] at hnew
  rw [List.append_assoc, List.map_append, List.map_cons, map_shift_edit]
  exact turns_glue hcov hnew

theorem findSubChange_eq (idx : Int) (list : List (SubChange E)) :
    findSubChange idx list = findRange SubChange.fromIdx SubChange.toIdx idx list := by
  unfold findSubChange findRange
  congr 1
  funext i
  unfold rangeProbe
  cases list[i]? <;> rfl

theorem insertRemoved_leaves {cs : List (SubChange E)} {original front back : List E} {x : E}
    (h : Turns 0 (cs.map SubChange.edit) original (front ++ x :: back))
    (kept : ∀ k c, findSubChange front.length cs = .ofNat k → cs[k]? = some c →
      k + 1 < cs.length → ¬ (c.fromIdx = c.toIdx - 1 ∧ c.getRemoved = []))
    (nonnull : ∀ k, findSubChange front.length cs = .negSucc k →
      (∀ c ∈ getBefore k cs, c.toIdx = front.length → c.removed ≠ none) ∧
      (¬ (getBefore k cs).any (fun c => c.toIdx == (front.length : Int)) →
        ∀ c ∈ cs[k]?, c.fromIdx = front.length + 1 → c.removed ≠ none)) :
    Leaves cs original (front ++ back) (insertRemoved front.length x cs) := by
  have hord := ordered_edits.mp h.ordered.1
  obtain ⟨pre, post, rfl, hpre, hpost, hfind⟩ := findRange_spec hord front.length
  rw [insertRemoved]
  rcases hfind with ⟨c, rest, rfl, hlo, hres⟩ | ⟨hgap, hres⟩
  · -- the element belongs to an added range
    rw [← findSubChange_eq] at hres
    have hin := remove_inside pre rest h hpre hlo (hpost c (List.mem_cons_self ..))
    simp only [hres, getElem?_split]
    split
    · rename_i htriv
      have hrest : rest = [] := by
        by_contra hne
        refine kept pre.length c hres (getElem?_split ..) ?_ htriv
        have := List.length_pos_iff.mpr hne
        simp only [List.length_append, List.length_cons]
        omega
      subst hrest
      refine ⟨pre, ?_, ?_, fun hall d hd => hall d (List.mem_append_left _ hd),
        fun hall d hd => hall d (List.mem_append_left _ hd)⟩
      · rw [eraseIdx_split, List.append_nil, shiftFrom_past _ _ _ (Nat.le_succ _)]
      · rw [List.map_append] at hin
        obtain ⟨xs₁, xs₂, ys₁, ys₂, q, rfl, hys, hcov, hturn⟩ := turns_append.mp hin
        have hdrop := turns_drop_trivial hturn (by simpa using htriv.1) htriv.2
        rw [hys, ← List.append_nil pre, List.map_append]
        exact turns_glue hcov hdrop
    · refine ⟨_, rfl, ?_, ?_⟩
      · simpa using hin
      · rw [set_split, shiftFrom_split_succ]
        exact keeps_replace _ (fun hc => hc) (fun hc => hc)
  · rw [← findSubChange_eq] at hres
    obtain ⟨hbefore, hafter⟩ := nonnull pre.length hres
    simp only [hres]
    split
    · -- it stands directly after a sub-change
      rename_i hany
      rcases getBefore_cases pre post with ⟨-, hnone⟩ | ⟨init, c, rfl, hsome⟩
      · simp [hnone] at hany
      · rw [hsome, Option.any_some, beq_iff_eq] at hany
        obtain ⟨removed, hrem⟩ := Option.ne_none_iff_exists'.mp (hbefore c hsome hany)
        rw [List.append_assoc, List.singleton_append] at h hord ⊢
        have hsplit := ordered_append.mp hord
        have hleaves := remove_after init post h
          (fun d hd => (hsplit.1.hi_le_lastEnd d hd).trans hsplit.2.1) hsplit.2.2.1 hany
          (fun d hd => by have := hgap d (List.mem_of_mem_head? hd); omega) hrem
        simpa [changeRemoved_some _ _ _ _ hrem] using hleaves
    · rename_i hany
      split
      · -- it stands directly before one
        rename_i hnext
        obtain ⟨c, rest, rfl⟩ : ∃ c rest, post = c :: rest := by
          cases post with
          | nil => simp at hnext
          | cons c rest => exact ⟨c, rest, rfl⟩
        rw [getElem?_split, Option.any_some, beq_iff_eq] at hnext
        obtain ⟨removed, hrem⟩ := Option.ne_none_iff_exists'.mp
          (hafter hany c (by simp) hnext)
        have hleaves := remove_before pre rest h hpre hnext hrem
        have hrem' : (c.shift (-1)).removed = some removed := hrem
        simpa [changeRemoved_some _ _ _ _ hrem'] using hleaves
      · refine ⟨_, rfl, ?_, ?_⟩
        · rw [insertIdx_split, shiftFrom_split_succ]
          exact remove_gap pre post h hpre hgap
        · rw [insertIdx_split, shiftFrom_split_succ]
          exact keeps_insert _ (by simp) ⟨rfl, rfl⟩

theorem recordRemove_leaves {cs : List (SubChange E)} {original front back : List E} {x : E}
    (h : Turns 0 (cs.map SubChange.edit) original (front ++ x :: back))
    (clean : ¬ Misfires front.length cs) (nonnull : ¬ HitsNull front.length cs) :
    Leaves cs original (front ++ back) (recordRemove front.length x cs) := by
  rcases List.eq_nil_or_concat' cs with rfl | ⟨pre, last, rfl⟩
  · exact insertRemoved_leaves h (by simp) (by simp [getBefore])
  have hord := ordered_edits.mp h.ordered.1
  obtain ⟨hends, hlow⟩ := ordered_before_last hord
  simp only [Misfires, HitsNull, removedTarget, recordRemove, List.getLast?_concat] at clean nonnull ⊢
  simp only [List.length_append, List.length_singleton, Nat.add_sub_cancel]
  by_cases hto : last.toIdx = front.length
  · -- fast path: directly after the last sub-change
    rw [if_pos hto]
    obtain ⟨removed, hrem⟩ : ∃ removed, last.removed = some removed := by
      rw [if_pos (Or.inl hto)] at nonnull
      exact Option.ne_none_iff_exists'.mp (by simpa using nonnull)
    rw [changeRemoved_some _ _ _ _ hrem]
    exact remove_after pre [] h hends hlow hto (by simp) hrem
  rw [if_neg hto] at clean ⊢
  by_cases hfrom : last.fromIdx = front.length + 1
  · -- fast path: directly before it
    rw [if_pos hfrom] at clean ⊢
    obtain ⟨removed, hrem⟩ : ∃ removed, last.removed = some removed := by
      rw [if_pos (Or.inr hfrom)] at nonnull
      exact Option.ne_none_iff_exists'.mp (by simpa using nonnull)
    have hrem' : (last.shift (-1)).removed = some removed := hrem
    rw [modify_split, changeRemoved_some _ _ _ _ hrem']
    refine remove_before pre [] h ?_ hfrom hrem
    intro d hd
    have hle := hends d hd
    have hne : d.toIdx ≠ last.fromIdx := by
      intro heq
      exact clean ⟨d, by simpa using hd, heq⟩
    omega
  · rw [if_neg hfrom] at clean ⊢
    rw [if_neg (by tauto)] at nonnull
    refine insertRemoved_leaves h ?_ ?_
    · intro k c hk hc hlen htriv
      simp only [hk] at clean
      exact clean ⟨hlen, c, hc, htriv⟩
    · intro k hk
      simp only [hk] at nonnull
      constructor
      · intro c hc hat hnull
        have hany : (getBefore k (pre ++ [last])).any
            (fun change => change.toIdx == (front.length : Int)) := by
          rw [hc]
          simpa using hat
        rw [if_pos hany] at nonnull
        exact nonnull ⟨c, hc, hnull⟩
      · intro hany c hc hat hnull
        have hnext : ((pre ++ [last])[k]?).any
            (fun change => change.fromIdx == (front.length : Int) + 1) := by
          rw [hc]
          simpa using hat
        rw [if_neg hany, if_pos hnext] at nonnull
        exact nonnull ⟨c, hc, hnull⟩

/-! ## Insertions -/

private theorem add_inside (pre post : List (SubChange E)) {c : SubChange E}
    {original front back : List E} (new : List E)
    (h : Turns 0 ((pre ++ c :: post).map SubChange.edit) original (front ++ back))
    (ends : ∀ d ∈ pre, d.toIdx ≤ c.fromIdx) (left : c.fromIdx ≤ front.length)
    (right : (front.length : Int) ≤ c.toIdx) :
    Turns 0 ((pre ++ { c with toIdx := c.toIdx + new.length } ::
      post.map (SubChange.shift new.length)).map SubChange.edit) original
      (front ++ (new ++ back)) := by
  obtain ⟨xs₁, xs₂, ys₁, mid, q, rfl, rfl, hq, hcov, hturn⟩ := cut_edits h
    (fun d hd => (ends d hd).trans left)
  rw [List.length_append] at left right
  have hnew := turns_add_inside new hturn (by rw [SubChange.edit_lo]; omega)
    (by rw [SubChange.edit_hi]; omega)
  rw [List.append_assoc, List.map_append, List.map_cons, map_shift_edit]
  exact turns_glue hcov hnew

private theorem add_gap (pre post : List (SubChange E)) {original front back : List E}
    (new : List E) (h : Turns 0 ((pre ++ post).map SubChange.edit) original (front ++ back))
    (ends : ∀ d ∈ pre, d.toIdx ≤ front.length)
    (next : ∀ d ∈ post, (front.length : Int) ≤ d.fromIdx) :
    Turns 0 ((pre ++ ⟨front.length, front.length + new.length, some [], [], false⟩ ::
      post.map (SubChange.shift new.length)).map SubChange.edit) original
      (front ++ (new ++ back)) := by
  obtain ⟨xs₁, xs₂, ys₁, mid, q, rfl, rfl, hq, hcov, hturn⟩ := cut_edits h ends
  rw [List.length_append] at next
  have hnew := turns_add_kept new hturn (by
    intro f hf
    rw [List.head?_map] at hf
    obtain ⟨d, hd, rfl⟩ := Option.mem_map.mp hf
    have := next d (List.mem_of_mem_head? hd)
    rw [SubChange.edit_lo]
    omega)
  have hpos : q + (mid.length : Int) = ((ys₁ ++ mid).length : Nat) := by
    rw [List.length_append]
    omega
  rw [hpos] at hnew
  rw [List.append_assoc, List.map_append, List.map_cons, map_shift_edit]
  exact turns_glue hcov hnew

theorem insertAdd_leaves {cs : List (SubChange E)} {original front back : List E} (new : List E)
    (h : Turns 0 (cs.map SubChange.edit) original (front ++ back)) :
    Leaves cs original (front ++ (new ++ back))
      (.done (insertAdd front.length (front.length + new.length) cs)) := by
  have hord := ordered_edits.mp h.ordered.1
  have hlen : ((front.length : Int) + new.length) - front.length = new.length := by omega
  obtain ⟨pre, post, rfl, hpre, hpost, hfind⟩ := findRange_spec hord front.length
  refine ⟨_, rfl, ?_⟩
  rw [insertAdd, hlen]
  rcases hfind with ⟨c, rest, rfl, hlo, hres⟩ | ⟨hgap, hres⟩
  · rw [← findSubChange_eq] at hres
    have hsplit := ordered_append.mp hord
    simp only [hres, modify_split, shiftFrom_split_succ]
    exact ⟨add_inside pre rest new h (fun d hd => (hsplit.1.hi_le_lastEnd d hd).trans hsplit.2.1)
      hlo (hpost c (List.mem_cons_self ..)).le, keeps_replace _ (fun hc => hc) (fun hc => hc)⟩
  · rw [← findSubChange_eq] at hres
    simp only [hres]
    split
    · rename_i hany
      rcases getBefore_cases pre post with ⟨-, hnone⟩ | ⟨init, c, rfl, hsome⟩
      · simp [hnone] at hany
      · rw [hsome, Option.any_some, beq_iff_eq] at hany
        rw [List.append_assoc, List.singleton_append] at h hord ⊢
        have hsplit := ordered_append.mp hord
        have hin := add_inside init post new h
          (fun d hd => (hsplit.1.hi_le_lastEnd d hd).trans hsplit.2.1)
          (hsplit.2.2.1.trans hany.le) hany.ge
        rw [hany] at hin
        simp only [List.length_append, List.length_singleton, Nat.add_sub_cancel, modify_split,
          shiftFrom_split_succ]
        exact ⟨hin, keeps_replace _ (fun hc => hc) (fun hc => hc)⟩
    · rw [insertIdx_split, shiftFrom_split_succ]
      exact ⟨add_gap pre post new h hpre (fun d hd => (hgap d hd).le),
        keeps_insert _ (by simp) ⟨rfl, rfl⟩⟩

theorem recordAdd_leaves {cs : List (SubChange E)} {original front back : List E} (new : List E)
    (h : Turns 0 (cs.map SubChange.edit) original (front ++ back)) :
    Leaves cs original (front ++ (new ++ back))
      (.done (recordAdd front.length (front.length + new.length) cs)) := by
  rcases List.eq_nil_or_concat' cs with rfl | ⟨pre, last, rfl⟩
  · exact insertAdd_leaves new h
  have hord := ordered_edits.mp h.ordered.1
  obtain ⟨hends, hlow⟩ := ordered_before_last hord
  have hlen : ((front.length : Int) + new.length) - front.length = new.length := by omega
  simp only [recordAdd, List.getLast?_concat, List.length_append, List.length_singleton,
    Nat.add_sub_cancel, modify_split, hlen]
  split
  · rename_i hto
    refine ⟨_, rfl, ?_, keeps_replace new.length (fun hc => hc) (fun hc => hc)⟩
    have hin := add_inside pre [] new h hends (by omega) (by omega)
    rwa [hto] at hin
  · split
    · rename_i hmid
      exact ⟨_, rfl, add_inside pre [] new h hends hmid.1 hmid.2.le,
        keeps_replace new.length (fun hc => hc) (fun hc => hc)⟩
    · exact insertAdd_leaves new h

end ListChangeBuilder
end OpenJfx.Collections
