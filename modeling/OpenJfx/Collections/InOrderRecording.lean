import OpenJfx.Collections.BuilderRecording

/-! # Recordings that run from left to right

A list that reports its mutations in the order of their positions never removes
in front of a sub-change that is already recorded.  Such a recording takes none
of the misfiring branches of `nextRemove`. -/
set_option autoImplicit false
namespace OpenJfx.Collections
open OpenJfx.Lib

namespace ListChangeBuilder
variable {E : Type}

/-- The recorded add/remove sub-changes end at or before `n`. -/
def EndsBy (n : Int) (cs : List (SubChange E)) : Prop := ∀ c ∈ cs, c.toIdx ≤ n

theorem EndsBy.mono {m n : Int} {cs : List (SubChange E)} (h : EndsBy m cs) (le : m ≤ n) : EndsBy n cs :=
  fun c hc => (h c hc).trans le

theorem endsBy_append {n : Int} {cs ds : List (SubChange E)} :
    EndsBy n (cs ++ ds) ↔ EndsBy n cs ∧ EndsBy n ds := by
  simp only [EndsBy, List.mem_append, or_imp, forall_and]

theorem endsBy_singleton {n : Int} {c : SubChange E} : EndsBy n [c] ↔ c.toIdx ≤ n := by
  simp only [EndsBy, List.mem_singleton, forall_eq]

section Behind
variable {p idx : Int} {cs : List (SubChange E)}

theorem findSubChange_behind (ordered : Ordered SubChange.fromIdx SubChange.toIdx p cs) (h : EndsBy idx cs) :
    findSubChange idx cs = .negSucc cs.length := by
  obtain ⟨pre, post, rfl, -, hpost, hfind⟩ := findRange_spec ordered idx
  have hnil : post = [] := by
    cases post with
    | nil => rfl
    | cons c post =>
      have hlt := hpost c (List.mem_cons_self ..)
      have hle := h c (by simp)
      omega
  subst hnil
  rcases hfind with ⟨c, rest, habs, -⟩ | ⟨-, hres⟩
  · cases habs
  · rw [findSubChange_eq, hres, List.append_nil]

theorem not_misfires_behind (ordered : Ordered SubChange.fromIdx SubChange.toIdx p cs) (h : EndsBy idx cs) :
    ¬ Misfires idx cs := by
  intro hmis
  rw [Misfires, findSubChange_behind ordered h] at hmis
  cases hlast : cs.getLast? with
  | none =>
    rw [hlast] at hmis
    exact hmis
  | some last =>
    have hmem := List.mem_of_getLast? hlast
    have hle := h last hmem
    have hlow := (ordered.lo_ge last hmem).2
    simp only [hlast] at hmis
    split at hmis
    · exact hmis
    · split at hmis
      · omega
      · exact hmis

theorem getBefore_behind {pre : List (SubChange E)} {last : SubChange E} (ne : last.toIdx ≠ idx) :
    (getBefore (pre ++ [last]).length (pre ++ [last])).any (fun change => change.toIdx == idx) = false := by
  have hlast := getBefore_split pre [] last
  rw [List.append_nil] at hlast
  rw [hlast, Option.any_some, beq_eq_false_iff_ne]
  exact ne

theorem recordRemove_behind {x : E} {out : List (SubChange E)}
    (ordered : Ordered SubChange.fromIdx SubChange.toIdx p cs) (h : EndsBy idx cs)
    (run : recordRemove idx x cs = .done out) : EndsBy idx out := by
  have hfind := findSubChange_behind ordered h
  rcases List.eq_nil_or_concat' cs with rfl | ⟨pre, last, rfl⟩
  · cases run
    intro c hc
    rw [List.mem_singleton.mp hc]
  obtain ⟨hpre, hlast⟩ := endsBy_append.mp h
  have hlow := (ordered_before_last ordered).2
  have hle := endsBy_singleton.mp hlast
  rw [recordRemove, List.getLast?_concat] at run
  dsimp only at run
  by_cases hto : last.toIdx = idx
  · rw [if_pos hto, List.length_append, List.length_singleton, Nat.add_sub_cancel] at run
    cases hrem : last.removed with
    | none =>
      rw [changeRemoved_none _ _ _ _ hrem] at run
      cases run
    | some removed =>
      rw [changeRemoved_some _ _ _ _ hrem] at run
      cases run
      exact endsBy_append.mpr ⟨hpre, endsBy_singleton.mpr hle⟩
  · rw [if_neg hto, if_neg (by omega), insertRemoved, hfind] at run
    simp only [getBefore_behind hto, Bool.false_eq_true, if_false, List.getElem?_eq_none le_rfl,
      Option.any_none] at run
    rw [List.insertIdx_length_self, shiftFrom_past _ _ _ (by simp)] at run
    cases run
    exact endsBy_append.mpr ⟨h, endsBy_singleton.mpr le_rfl⟩

theorem recordAdd_behind (n : Nat) (ordered : Ordered SubChange.fromIdx SubChange.toIdx p cs)
    (h : EndsBy idx cs) : EndsBy (idx + n) (recordAdd idx (idx + n) cs) := by
  have hfind := findSubChange_behind ordered h
  rcases List.eq_nil_or_concat' cs with rfl | ⟨pre, last, rfl⟩
  · intro c hc
    rw [List.mem_singleton.mp hc]
  obtain ⟨hpre, hlast⟩ := endsBy_append.mp h
  have hle := endsBy_singleton.mp hlast
  have hgrow : idx ≤ idx + n := by omega
  rw [recordAdd, List.getLast?_concat]
  dsimp only
  by_cases hto : last.toIdx = idx
  · rw [if_pos hto, List.length_append, List.length_singleton, Nat.add_sub_cancel, modify_split]
    exact endsBy_append.mpr ⟨hpre.mono hgrow, endsBy_singleton.mpr le_rfl⟩
  · rw [if_neg hto, if_neg (by omega), insertAdd, hfind]
    simp only [getBefore_behind hto, Bool.false_eq_true, if_false]
    rw [List.insertIdx_length_self, shiftFrom_past _ _ _ (by simp)]
    exact endsBy_append.mpr ⟨h.mono hgrow, endsBy_singleton.mpr le_rfl⟩

end Behind

/-! ## The calls -/

theorem tracks_ordered {original current : List E} {b : ListChangeBuilder E} (h : Tracks original current b) :
    Ordered SubChange.fromIdx SubChange.toIdx 0 b.addRemove :=
  ordered_edits.mp h.turns.ordered.1

theorem nextRemove_addRemove {b b' : ListChangeBuilder E} {idx : Int} {x : E} (lock : b.changeLock ≠ 0)
    (run : nextRemove idx x b = .done b') : recordRemove idx x b.addRemove = .done b'.addRemove := by
  rw [nextRemove, if_neg lock] at run
  cases hrec : recordRemove idx x b.addRemove with
  | done cs =>
    rw [hrec] at run
    cases run
    rfl
  | thrown e cs =>
    rw [hrec] at run
    cases run

theorem removals_behind {original front back : List E} (xs : List E) {b : ListChangeBuilder E}
    (h : Tracks original (front ++ (xs ++ back)) b) (behind : EndsBy front.length b.addRemove) :
    ∃ b', nextRemoveAll front.length xs b = .done b' ∧ Tracks original (front ++ back) b' ∧
      EndsBy front.length b'.addRemove ∧ b'.changeLock = b.changeLock ∧ b'.fired = b.fired := by
  rw [nextRemoveAll, if_neg h.open_block]
  induction xs generalizing b with
  | nil => exact ⟨b, rfl, h, behind, rfl, rfl⟩
  | cons x xs ih =>
    have hclean := not_misfires_behind (tracks_ordered h) behind
    obtain ⟨b₁, hstep, htracks, hlock, hfired⟩ := tracks_nextRemove h hclean
    have hbehind := recordRemove_behind (tracks_ordered h) behind
      (nextRemove_addRemove h.open_block hstep)
    obtain ⟨b₂, hrun, htracks₂, hbehind₂, hlock₂, hfired₂⟩ := ih htracks hbehind
    exact ⟨b₂, by rw [Outcome.run_cons, hstep, Outcome.bind_done, hrun], htracks₂, hbehind₂,
      hlock₂.trans hlock, hfired₂.trans hfired⟩

theorem addition_behind {original front back : List E} (new : List E) {b : ListChangeBuilder E}
    (h : Tracks original (front ++ back) b) (behind : EndsBy front.length b.addRemove) :
    ∃ b', nextAdd front.length (front.length + new.length) b = .done b' ∧
      Tracks original (front ++ (new ++ back)) b' ∧
      EndsBy (front.length + new.length) b'.addRemove ∧ b'.changeLock = b.changeLock ∧
      b'.fired = b.fired := by
  obtain ⟨b', hadd, htracks, hlock, hfired⟩ := tracks_nextAdd new h
  refine ⟨b', hadd, htracks, ?_, hlock, hfired⟩
  rw [nextAdd_eq h.open_block] at hadd
  cases hadd
  exact recordAdd_behind new.length (tracks_ordered h) behind

theorem replacement_behind {original front back : List E} (xs new : List E) {b : ListChangeBuilder E}
    (h : Tracks original (front ++ (xs ++ back)) b) (behind : EndsBy front.length b.addRemove) :
    ∃ b', nextReplace front.length (front.length + new.length) xs b = .done b' ∧
      Tracks original (front ++ (new ++ back)) b' ∧
      EndsBy (front.length + new.length) b'.addRemove ∧ b'.changeLock = b.changeLock ∧
      b'.fired = b.fired := by
  obtain ⟨b₁, hremove, htracks, hbehind, hlock, hfired⟩ := removals_behind xs h behind
  obtain ⟨b₂, hadd, htracks₂, hbehind₂, hlock₂, hfired₂⟩ := addition_behind new htracks hbehind
  exact ⟨b₂, by rw [nextReplace, hremove, Outcome.bind_done, hadd], htracks₂, hbehind₂,
    hlock₂.trans hlock, hfired₂.trans hfired⟩

end ListChangeBuilder
end OpenJfx.Collections
