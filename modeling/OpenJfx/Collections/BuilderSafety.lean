import Mathlib
import OpenJfx.Collections.BuilderKinds
import OpenJfx.Lib.Arrays

/-! # Which recordings return normally

Three things make a recording throw: a removal that is stored into the null
`removed` list of a sub-change, a permutation of a list for which the recorded
positions are out of place, and the commit of a chain of touching sub-changes in
which a null `removed` list follows one that is not null.  A recording that
avoids them never throws, whatever else is reported. -/
set_option autoImplicit false
namespace OpenJfx.Collections
open OpenJfx.Lib

namespace ListChangeBuilder
variable {E : Type}

/-! ## Removals -/

theorem changeRemoved_total {i : Nat} {f : List E → List E} {cs : List (SubChange E)}
    {c : SubChange E} (hget : cs[i]? = some c) (hnull : c.removed ≠ none) :
    ∃ cs', changeRemoved i f cs = .done cs' := by
  obtain ⟨removed, hremoved⟩ := Option.ne_none_iff_exists'.mp hnull
  exact ⟨_, by simp only [changeRemoved, hget, hremoved]; rfl⟩

theorem getElem?_modify_self {i : Nat} {f : SubChange E → SubChange E} {cs : List (SubChange E)}
    {c : SubChange E} (hget : cs[i]? = some c) : (cs.modify i f)[i]? = some (f c) := by
  rw [List.getElem?_modify, hget]
  simp

theorem getBefore_eq_some {k : Nat} {cs : List (SubChange E)} {c : SubChange E}
    (h : getBefore k cs = some c) : cs[k - 1]? = some c := by
  rw [getBefore] at h
  split at h
  · exact h
  · cases h

theorem exists_of_any {o : Option (SubChange E)} {q : SubChange E → Bool} (h : o.any q = true) :
    ∃ c, o = some c ∧ q c = true := by
  cases o with
  | none => cases h
  | some c => exact ⟨c, rfl, h⟩

theorem not_null_of_target {idx : Int} {cs : List (SubChange E)} {c : SubChange E}
    (h : ¬ HitsNull idx cs) (htarget : removedTarget idx cs = some c) : c.removed ≠ none :=
  fun hnull => h ⟨c, htarget, hnull⟩

theorem insertRemoved_total {idx : Int} {cs : List (SubChange E)} (x : E)
    (h : ∀ k, findSubChange idx cs = .negSucc k →
      (∀ c, getBefore k cs = some c → c.toIdx = idx → c.removed ≠ none) ∧
        ∀ c, ¬ ((getBefore k cs).any fun c => c.toIdx == idx) = true → cs[k]? = some c →
          c.fromIdx = idx + 1 → c.removed ≠ none) :
    ∃ cs', insertRemoved idx x cs = .done cs' := by
  rw [insertRemoved]
  split
  · rename_i k hfind
    obtain ⟨hbefore, hat⟩ := h k hfind
    split
    · rename_i hany
      obtain ⟨c, hc, hto⟩ := exists_of_any hany
      obtain ⟨cs', hcs⟩ := @changeRemoved_total E (k - 1) (fun r => r ++ [x]) cs c (getBefore_eq_some hc)
        (hbefore c hc (beq_iff_eq.mp hto))
      exact ⟨_, by rw [hcs, Outcome.map_done]⟩
    · rename_i hno
      split
      · rename_i hany
        obtain ⟨c, hc, hfrom⟩ := exists_of_any hany
        obtain ⟨cs', hcs⟩ := @changeRemoved_total E k (fun r => x :: r) (cs.modify k (SubChange.shift (-1)))
          (c.shift (-1)) (getElem?_modify_self hc) (hat c hno hc (beq_iff_eq.mp hfrom))
        exact ⟨_, by rw [hcs, Outcome.bind_done]⟩
      · exact ⟨_, rfl⟩
  · rename_i k hfind
    have hk : k < cs.length := (bisect_hit _ _ _ hfind).1
    rw [List.getElem?_eq_getElem hk]
    dsimp only
    split
    · exact ⟨_, rfl⟩
    · exact ⟨_, rfl⟩

theorem recordRemove_total {idx : Int} {cs : List (SubChange E)} (x : E) (h : ¬ HitsNull idx cs) :
    ∃ cs', recordRemove idx x cs = .done cs' := by
  rw [recordRemove]
  cases hlast : cs.getLast? with
  | none =>
    rw [List.getLast?_eq_none_iff.mp hlast]
    exact ⟨_, rfl⟩
  | some last =>
    have hget : cs[cs.length - 1]? = some last := by
      rw [← List.getLast?_eq_getElem?]
      exact hlast
    dsimp only
    split
    · rename_i hto
      apply changeRemoved_total hget
      apply not_null_of_target h
      rw [removedTarget, hlast]
      dsimp only
      rw [if_pos (Or.inl hto)]
    · rename_i hto
      split
      · rename_i hfrom
        apply changeRemoved_total (getElem?_modify_self hget)
        have hnull : last.removed ≠ none := by
          apply not_null_of_target h
          rw [removedTarget, hlast]
          dsimp only
          rw [if_pos (Or.inr hfrom)]
        exact hnull
      · rename_i hfrom
        apply insertRemoved_total
        intro k hfind
        have htarget : removedTarget idx cs =
            if ((getBefore k cs).any fun c => c.toIdx == idx) = true then getBefore k cs
            else if (cs[k]?.any fun c => c.fromIdx == idx + 1) = true then cs[k]? else none := by
          rw [removedTarget, hlast]
          dsimp only
          rw [if_neg (not_or.mpr ⟨hto, hfrom⟩), hfind]
        constructor
        · intro c hc hcto
          apply not_null_of_target h
          rw [htarget, hc, if_pos (by simp [hcto])]
        · intro c hno hc hcfrom
          apply not_null_of_target h
          rw [htarget, if_neg hno, hc, if_pos (by simp [hcfrom])]

theorem nextRemove_total {b : ListChangeBuilder E} {idx : Int} (x : E) (lock : b.changeLock ≠ 0)
    (h : ¬ HitsNull idx b.addRemove) : ∃ b', nextRemove idx x b = .done b' := by
  obtain ⟨cs, hcs⟩ := recordRemove_total x h
  exact ⟨_, nextRemove_eq lock hcs⟩

/-! ## Permutations -/

/-- A permutation that starts at the front; what `nextPermutation` keeps when
every permutation is one of the whole list. -/
def FromFront (c : SubChange E) : Prop :=
  c.fromIdx = 0 ∧ c.toIdx = c.perm.length ∧ ∀ p ∈ c.perm, 0 ≤ p ∧ p < c.toIdx

theorem mergePermutation_total {n : Nat} {prePerm : List Int} {p : Option (SubChange E)}
    (hpre : IsRangePerm 0 prePerm) (hlen : prePerm.length = n) (hp : ∀ c ∈ p, FromFront c) :
    ∃ c, mergePermutation 0 n prePerm p = .done (some c) ∧ FromFront c := by
  have hinside : ∀ v ∈ prePerm, 0 ≤ v ∧ v < n := by
    intro v hv
    have := (hpre.mem_iff v).mp hv
    omega
  have hread : ∀ i : Int, 0 ≤ i → i < n → ∃ v, readAt prePerm (i - 0) = .ok v ∧ 0 ≤ v ∧ v < n := by
    intro i h0 hi
    obtain ⟨v, hv, hok⟩ := @readAt_inside _ prePerm i h0 (by omega)
    exact ⟨v, by rw [Int.sub_zero]; exact hok, hinside v hv⟩
  cases p with
  | none => exact ⟨_, rfl, rfl, by dsimp only; omega, hinside⟩
  | some c =>
    obtain ⟨hfrom, hto, hvalues⟩ := hp c rfl
    rw [mergePermutation]
    by_cases hsame : (0 : Int) = c.fromIdx ∧ (n : Int) = c.toIdx
    · rw [if_pos hsame]
      choose! g hg using hread
      have hbounds : ∀ v ∈ c.perm, 0 ≤ v ∧ v < n := by
        intro v hv
        have := hvalues v hv
        omega
      have hloop := @composeLoop_spec 0 prePerm c.perm g
        (fun v hv => (hg v (hbounds v hv).1 (hbounds v hv).2).1)
      have hcount : prePerm.length = c.perm.length := by omega
      rw [hcount, hloop, Outcome.map_done]
      refine ⟨_, rfl, hfrom, ?_, ?_⟩
      · dsimp only
        rw [List.length_map]
        exact hto
      · intro v hv
        obtain ⟨w, hw, rfl⟩ := List.mem_map.mp hv
        have := (hg w (hbounds w hw).1 (hbounds w hw).2).2
        dsimp only
        omega
    · rw [if_neg hsame]
      dsimp only
      rw [hfrom, Int.min_self]
      -- every entry can be computed and stays in the longer of the two ranges
      have hentry : ∀ i : Int, i ∈ intRange 0 (max c.toIdx n) →
          ∃ v, composeAt c 0 n prePerm i = .ok v ∧ 0 ≤ v ∧ v < max c.toIdx n := by
        intro i hi
        rw [mem_intRange] at hi
        rw [composeAt, hfrom]
        split
        · rename_i hout
          obtain ⟨v, hok, hv⟩ := hread i hi.1 (by omega)
          exact ⟨v, hok, by omega⟩
        · rename_i hin
          obtain ⟨w, hw, hok⟩ := @readAt_inside _ c.perm (i - 0) (by omega) (by omega)
          have hwb := hvalues w hw
          rw [hok]
          change ∃ v, (if w < 0 ∨ w ≥ (n : Int) then Except.ok w else readAt prePerm (w - 0)) = .ok v ∧ _
          split
          · exact ⟨w, rfl, by omega⟩
          · obtain ⟨v, hok', hv⟩ := hread w (by omega) (by omega)
            exact ⟨v, hok', by omega⟩
      choose! f hf using hentry
      rw [mapM_ok (fun i hi => (hf i hi).1), Outcome.ofExcept_ok]
      refine ⟨_, rfl, rfl, ?_, ?_⟩
      · dsimp only
        rw [List.length_map, intRange_length]
        omega
      · intro v hv
        obtain ⟨i, hi, rfl⟩ := List.mem_map.mp hv
        exact (hf i hi).2

/-- The recorded sub-changes lie in order inside a list of length `n`. -/
def InPlace (n : Nat) (cs : List (SubChange E)) : Prop :=
  Ordered SubChange.fromIdx SubChange.toIdx 0 cs ∧ lastEnd SubChange.toIdx 0 cs ≤ n

instance (n : Nat) (cs : List (SubChange E)) : Decidable (InPlace n cs) :=
  inferInstanceAs (Decidable (_ ∧ _))

theorem nextPermutation_total {b : ListChangeBuilder E} {perm : List Int} {n : Nat}
    (lock : b.changeLock ≠ 0) (place : InPlace n b.addRemove)
    (hfront : ∀ c ∈ b.permutationChange, FromFront c) (hperm : IsRangePerm 0 perm)
    (hlen : perm.length = n) (current : List E) (hn : current.length = n) :
    ∃ b', nextPermutation 0 n perm n b = .done b' ∧ ∀ c ∈ b'.permutationChange, FromFront c := by
  subst hn
  have hend : lastEnd Edit.hi 0 (b.addRemove.map SubChange.edit) ≤ 0 + current.length := by
    rw [lastEnd_edits, Int.zero_add]
    exact place.2
  obtain ⟨previous, hturns⟩ := exists_turns (ordered_edits.mpr place.1) hend
  obtain ⟨prePerm, out, hpre, hprelen, -, -, -, hnext⟩ := nextPermutation_eq lock hturns hperm hlen
  obtain ⟨c, hmerge, hc⟩ := mergePermutation_total hpre hprelen hfront
  refine ⟨_, hnext _ hmerge, ?_⟩
  intro d hd
  cases hd
  exact hc

/-! ## The commit -/

theorem not_nullBehind_of_none {cs : List (SubChange E)} (h : ∀ c ∈ cs, c.removed = none)
    (stop : Int) : ¬ NullBehind false stop cs := by
  induction cs generalizing stop with
  | nil => exact fun h => h
  | cons cur rest ih =>
    have hcur : cur.removed.isSome = false := by rw [h cur (List.mem_cons_self ..)]; rfl
    have hrest := ih (fun c hc => h c (List.mem_cons_of_mem _ hc))
    rw [NullBehind, hcur]
    split
    · rintro (⟨hseen, -⟩ | hbehind)
      · cases hseen
      · exact hrest _ hbehind
    · exact hrest _

theorem compress_updates_total {us : List (SubChange E)} (h : ∀ u ∈ us, IsUpdate u) :
    ∃ out, compress us = .ok out := by
  have hnull : ¬ CompressHitsNull us := by
    cases us with
    | nil => exact fun h => h
    | cons u us =>
      have hu : u.removed.isSome = false := by rw [(h u (List.mem_cons_self ..)).1]; rfl
      rw [CompressHitsNull, hu]
      apply not_nullBehind_of_none
      intro c hc
      exact (h c (List.mem_cons_of_mem _ hc)).1
  obtain ⟨out, hout, -⟩ := compress_spec hnull
  exact ⟨out, hout⟩

/-- The commit dereferences no null list: a single sub-change is fired as it is,
and several are compressed. -/
def CommitSafe (b : ListChangeBuilder E) : Prop :=
  b.updates.length + b.addRemove.length + b.permutationChange.toList.length = 1 ∨
    ¬ CompressHitsNull b.addRemove

theorem commitChange_total {b : ListChangeBuilder E} (kinds : Kinds b) (safe : CommitSafe b) :
    ∃ change, commitChange b = .ok change := by
  rw [commitChange]
  split
  · exact ⟨_, rfl⟩
  · rename_i hmany
    obtain ⟨us, hus⟩ := compress_updates_total kinds.updates
    obtain ⟨cs, hcs, -⟩ := compress_spec (safe.resolve_left hmany)
    rw [hus, hcs]
    exact ⟨_, rfl⟩

theorem endChange_total {b : ListChangeBuilder E} (kinds : Kinds b) (lock : b.changeLock ≠ 0)
    (safe : CommitSafe b) : ∃ b', b.endChange = .done b' := by
  rw [endChange, if_neg lock, commit]
  split
  · obtain ⟨change, hchange⟩ := @commitChange_total E { b with changeLock := b.changeLock - 1 }
      ⟨kinds.addRemove, kinds.updates, kinds.permutation⟩ safe
    rw [hchange]
    exact ⟨_, rfl⟩
  · exact ⟨_, rfl⟩

/-! ## Runs -/

/-- What no report breaks: the block stays open, and the recorded permutation
starts at the front. -/
structure Sound (b : ListChangeBuilder E) : Prop where
  open_block : b.changeLock ≠ 0
  kinds : Kinds b
  permutation : ∀ c ∈ b.permutationChange, FromFront c

section Steps
variable {b b' : ListChangeBuilder E} (h : Sound b)
include h

theorem sound_nextRemove {idx : Int} (x : E) (hnull : ¬ HitsNull idx b.addRemove) :
    ∃ b', nextRemove idx x b = .done b' ∧ Sound b' := by
  obtain ⟨b', hb'⟩ := nextRemove_total x h.open_block hnull
  have hkinds := kinds_nextRemove h.kinds hb'
  obtain ⟨-, cs, -, rfl⟩ := nextRemove_done hb'
  exact ⟨_, hb', h.open_block, hkinds, h.permutation⟩

theorem sound_removals {idx : Int} (xs : List E)
    (hnull : Outcome.Along (fun _ b => ¬ HitsNull idx b.addRemove) (fun e b => nextRemove idx e b) xs b) :
    ∃ b', Outcome.run (fun e b => nextRemove idx e b) xs b = .done b' ∧ Sound b' := by
  apply Outcome.run_total Sound (fun _ b => ¬ HitsNull idx b.addRemove) _ ?_ xs b h hnull
  intro x c hc hno
  exact sound_nextRemove hc x hno

theorem sound_nextAdd (i j : Int) : ∃ b', nextAdd i j b = .done b' ∧ Sound b' := by
  have hb' := @nextAdd_eq E b i j h.open_block
  exact ⟨_, hb', h.open_block, kinds_nextAdd h.kinds hb', h.permutation⟩

theorem sound_nextUpdate (i : Int) : ∃ b', nextUpdate i b = .done b' ∧ Sound b' := by
  have hb' : nextUpdate i b = .done { b with updateChanges := some (recordUpdate i b.updates) } := by
    rw [nextUpdate, if_neg h.open_block]
  exact ⟨_, hb', h.open_block, kinds_nextUpdate h.kinds hb', h.permutation⟩

theorem sound_nextPermutation {perm : List Int} {current : List E} (hperm : IsRangePerm 0 perm)
    (hlen : perm.length = current.length) (place : InPlace current.length b.addRemove) :
    ∃ b', nextPermutation 0 (0 + perm.length) perm current.length b = .done b' ∧ Sound b' := by
  obtain ⟨b', hb', hfront⟩ := nextPermutation_total h.open_block place h.permutation hperm hlen current rfl
  rw [← hlen, ← Int.zero_add (perm.length : Int)] at hb'
  obtain ⟨-, hlock, -⟩ := nextPermutation_done hb'
  refine ⟨b', by rw [← hlen]; exact hb', ?_, kinds_nextPermutation h.kinds hb', hfront⟩
  rw [hlock]
  exact h.open_block

end Steps

end ListChangeBuilder

namespace Report
variable {E : Type}
open ListChangeBuilder

/-- None of the removals of the report is stored into a null `removed` list. -/
def AvoidsNull (r : Report E) (s : Recording E) : Prop :=
  Outcome.Along (fun _ b => ¬ HitsNull r.removeIndex b.addRemove)
    (fun e b => nextRemove r.removeIndex e b) (r.removed s.current) s.builder

instance (r : Report E) (s : Recording E) : Decidable (r.AvoidsNull s) := by
  unfold AvoidsNull HitsNull
  infer_instance

def FullRange (r : Report E) (s : Recording E) : Prop :=
  match r with
  | .permute lo perm => lo = 0 ∧ perm.length = s.current.length
  | _ => True

/-- At a permutation the recorded sub-changes lie in the list. -/
def Placed (r : Report E) (s : Recording E) : Prop :=
  match r with
  | .permute _ _ => InPlace s.current.length s.builder.addRemove
  | _ => True

instance (r : Report E) (s : Recording E) : Decidable (r.FullRange s) := match r with
  | .permute lo perm => inferInstanceAs (Decidable (lo = 0 ∧ perm.length = s.current.length))
  | .add _ _ | .remove _ | .removeAll _ _ | .set _ _ | .replace _ _ _ | .update _ | .beginChange | .endChange => isTrue trivial

instance (r : Report E) (s : Recording E) : Decidable (r.Placed s) := match r with
  | .permute _ _ => inferInstanceAs (Decidable (InPlace s.current.length s.builder.addRemove))
  | .add _ _ | .remove _ | .removeAll _ _ | .set _ _ | .replace _ _ _ | .update _ | .beginChange | .endChange => isTrue trivial

theorem call_sound {s : Recording E} {r : Report E} (h : Sound s.builder) (inRange : r.InRange s)
    (full : r.FullRange s) (hnull : r.AvoidsNull s) (placed : r.Placed s) :
    ∃ b, r.call s.current s.builder = .done b ∧ Sound b := by
  cases r with
  | add i new => exact sound_nextAdd h _ _
  | remove i => exact sound_removals h _ hnull
  | removeAll i n =>
    obtain ⟨b, hrun, hb⟩ := sound_removals h _ hnull
    refine ⟨b, ?_, hb⟩
    rw [call, nextRemoveAll, if_neg h.open_block]
    exact hrun
  | set i new =>
    obtain ⟨x, hx, -⟩ := split_one inRange
    obtain ⟨b₁, hremove, h₁⟩ := sound_removals h _ hnull
    obtain ⟨b₂, hadd, h₂⟩ := sound_nextAdd h₁ i (i + 1)
    refine ⟨b₂, ?_, h₂⟩
    simp only [call, removed, removeIndex, hx, Outcome.run_cons, nextSet] at hremove ⊢
    obtain ⟨b, hb, hdone⟩ := Outcome.bind_eq_done hremove
    cases hdone
    rw [hb, Outcome.bind_done, hadd, Outcome.bind_done, Outcome.run_nil]
  | replace i n new =>
    obtain ⟨b₁, hremove, h₁⟩ := sound_removals h _ hnull
    obtain ⟨b₂, hadd, h₂⟩ := sound_nextAdd h₁ i (i + new.length)
    refine ⟨b₂, ?_, h₂⟩
    rw [call, nextReplace, nextRemoveAll, if_neg h.open_block]
    rw [removeIndex] at hremove
    rw [hremove, Outcome.bind_done, hadd]
  | update i => exact sound_nextUpdate h i
  | permute lo perm =>
    obtain ⟨rfl, hlen⟩ := full
    exact sound_nextPermutation h inRange.2 hlen placed
  | beginChange =>
    exact ⟨_, rfl, Nat.succ_ne_zero _, ⟨h.kinds.addRemove, h.kinds.updates, h.kinds.permutation⟩,
      h.permutation⟩
  | endChange =>
    have hinner : 2 ≤ s.builder.changeLock := inRange
    refine ⟨_, endChange_inner hinner, ?_, ⟨h.kinds.addRemove, h.kinds.updates, h.kinds.permutation⟩,
      h.permutation⟩
    dsimp only
    omega

end Report

namespace Recording
variable {E : Type}
open ListChangeBuilder

/-- A legal report that avoids a null list and permutes only what is in place. -/
def Safe (r : Report E) (s : Recording E) : Prop :=
  r.InRange s ∧ r.FullRange s ∧ r.AvoidsNull s ∧ r.Placed s

instance (r : Report E) (s : Recording E) : Decidable (Safe r s) :=
  inferInstanceAs (Decidable (_ ∧ _ ∧ _ ∧ _))

theorem sound_beginChange {b : ListChangeBuilder E} (idle : Idle b) : Sound b.beginChange where
  open_block := Nat.succ_ne_zero _
  kinds := kinds_idle idle
  permutation := by
    have hnone : b.beginChange.permutationChange = none := idle.permutation
    simp [hnone]

/-- A block whose reports are all safe is recorded without an exception, and so
is its commit unless it would compress across a null list. -/
theorem recording_returns {b : ListChangeBuilder E} (idle : Idle b) (original : List E)
    (rs : List (Report E)) (safe : Outcome.Along Safe record rs ⟨original, b.beginChange⟩) :
    ∃ s, records rs ⟨original, b.beginChange⟩ = .done s ∧ s.builder.changeLock ≠ 0 ∧
      (CommitSafe s.builder → ∃ b', s.builder.endChange = .done b') := by
  obtain ⟨s, hrun, hsound⟩ := Outcome.run_total (fun s : Recording E => Sound s.builder) Safe record
    (by
      rintro r s hs ⟨hrange, hfull, hnull, hplaced⟩
      obtain ⟨b', hcall, hb'⟩ := Report.call_sound hs hrange hfull hnull hplaced
      exact ⟨_, by rw [record, hcall, Outcome.map_done], hb'⟩)
    rs ⟨original, b.beginChange⟩ (sound_beginChange idle) safe
  refine ⟨s, hrun, hsound.open_block, ?_⟩
  intro hcommit
  exact endChange_total hsound.kinds hsound.open_block hcommit

/-- Inserting two elements, moving one of them to the front and removing the
other. -/
theorem recording_returns_permuted :
    ∃ s b', records [.add 1 [7, 8], .permute 0 [1, 0, 2], .remove 2]
        ⟨[5], (new : ListChangeBuilder Nat).beginChange⟩ = .done s ∧ s.builder.endChange = .done b' := by
  obtain ⟨s, hrun, -, hend⟩ := recording_returns (idle_new : Idle (new : ListChangeBuilder Nat)) [5]
    [.add 1 [7, 8], .permute 0 [1, 0, 2], .remove 2] (by decide)
  have hs : records [.add 1 [7, 8], .permute 0 [1, 0, 2], .remove 2]
      ⟨[5], (new : ListChangeBuilder Nat).beginChange⟩ = .done ⟨[7, 5], ⟨1,
        some [⟨0, 1, some [], [], false⟩], none, some ⟨0, 1, none, [0], false⟩, []⟩⟩ := by
    decide
  cases hrun.symm.trans hs
  obtain ⟨b', hb'⟩ := hend (Or.inr (fun h => h))
  exact ⟨_, b', hrun, hb'⟩

/-- Removing the element between the two after the permutation stores into the
null list that the permutation left. -/
theorem remove_after_permutation_throws :
    Outcome.Along (fun r s => r.InRange s ∧ r.FullRange s) record
        [.add 1 [7, 8], .permute 0 [1, 0, 2], .remove 1]
        (⟨[5], (new : ListChangeBuilder Nat).beginChange⟩ : Recording Nat) ∧
      ∃ s, records [.add 1 [7, 8], .permute 0 [1, 0, 2], .remove 1]
        (⟨[5], (new : ListChangeBuilder Nat).beginChange⟩ : Recording Nat) = .thrown .nullPointer s := by
  refine ⟨by decide, ⟨[7, 8], ⟨1, some [⟨0, 1, some [], [], false⟩, ⟨1, 2, none, [], false⟩], none,
    some ⟨0, 1, none, [0], false⟩, []⟩⟩, ?_⟩
  decide

end Recording
end OpenJfx.Collections
