import OpenJfx.Collections.BuilderAddRemove

/-! # Recordings: a list under change and the builder it reports to

Inside `beginChange`/`endChange` a list is mutated step by step, and every step
is reported to the builder with the indices that are valid at that moment.
`Report` lists the reporting calls together with the mutation each describes.
The result at the end of the module is the replay law for recordings without
permutations. -/
set_option autoImplicit false
namespace OpenJfx.Collections
open OpenJfx.Lib

/-- A mutation of the list and the call that reports it; `update` and the
nested `beginChange`/`endChange` leave the list alone. -/
inductive Report (E : Type) where
  | add (i : Nat) (new : List E)
  | remove (i : Nat)
  | removeAll (i n : Nat)
  | set (i : Nat) (new : E)
  | replace (i n : Nat) (new : List E)
  | update (i : Nat)
  | permute (lo : Nat) (perm : List Int)
  | beginChange
  | endChange
deriving DecidableEq, Repr

structure Recording (E : Type) where
  current : List E
  builder : ListChangeBuilder E
deriving DecidableEq, Repr

namespace Report
variable {E : Type}
open ListChangeBuilder

/-- The elements that the mutation takes out of the list, at one index. -/
def removed (r : Report E) (current : List E) : List E :=
  match r with
  | .remove i => (current.drop i).take 1
  | .removeAll i n => (current.drop i).take n
  | .set i _ => (current.drop i).take 1
  | .replace i n _ => (current.drop i).take n
  | _ => []

def apply (r : Report E) (current : List E) : List E :=
  match r with
  | .add i new => current.take i ++ (new ++ current.drop i)
  | .remove i => current.take i ++ current.drop (i + 1)
  | .removeAll i n => current.take i ++ current.drop (i + n)
  | .set i new => current.take i ++ ([new] ++ current.drop (i + 1))
  | .replace i n new => current.take i ++ (new ++ current.drop (i + n))
  | .permute lo perm => permuteRange lo perm current
  | _ => current

/-- The call that reports the mutation; `current` is the list before it. -/
def call (r : Report E) (current : List E) (b : ListChangeBuilder E) :
    Outcome Exn (ListChangeBuilder E) :=
  match r with
  | .add i new => nextAdd i (i + new.length) b
  | .remove i => Outcome.run (fun e b => nextRemove i e b) (r.removed current) b
  | .removeAll i _ => nextRemoveAll i (r.removed current) b
  | .set i _ => Outcome.run (fun e b => nextSet i e b) (r.removed current) b
  | .replace i _ new => nextReplace i (i + new.length) (r.removed current) b
  | .update i => nextUpdate i b
  | .permute lo perm => nextPermutation lo (lo + perm.length) perm current.length b
  | .beginChange => .done b.beginChange
  | .endChange => b.endChange

/-- The mutation is one of the current list; an inner `endChange` closes an
inner block. -/
def InRange (r : Report E) (s : Recording E) : Prop :=
  match r with
  | .add i _ => i ≤ s.current.length
  | .remove i => i < s.current.length
  | .removeAll i n => i + n ≤ s.current.length
  | .set i _ => i < s.current.length
  | .replace i n _ => i + n ≤ s.current.length
  | .update i => i < s.current.length
  | .permute lo perm => lo + perm.length ≤ s.current.length ∧ IsRangePerm lo perm
  | .beginChange => True
  | .endChange => 2 ≤ s.builder.changeLock

instance (r : Report E) (s : Recording E) : Decidable (r.InRange s) := by
  unfold InRange
  split
  all_goals infer_instance

def removeIndex : Report E → Nat
  | .remove i => i
  | .removeAll i _ => i
  | .set i _ => i
  | .replace i _ _ => i
  | _ => 0

/-- None of the removals of the report takes a misfiring branch. -/
def Clean (r : Report E) (s : Recording E) : Prop :=
  Outcome.Along (fun _ b => ¬ Misfires r.removeIndex b.addRemove)
    (fun e b => nextRemove r.removeIndex e b) (r.removed s.current) s.builder

instance (r : Report E) (s : Recording E) : Decidable (r.Clean s) :=
  inferInstanceAs (Decidable (Outcome.Along _ _ _ _))

/-- A mutation of the list other than a permutation, or a nested block. -/
def isEdit : Report E → Bool
  | .update _ => false
  | .permute _ _ => false
  | _ => true

end Report

namespace Recording
variable {E : Type}
open ListChangeBuilder

def record (r : Report E) (s : Recording E) : Outcome Exn (Recording E) :=
  (r.call s.current s.builder).map (fun b => ⟨r.apply s.current, b⟩)

def records (rs : List (Report E)) (s : Recording E) : Outcome Exn (Recording E) :=
  Outcome.run record rs s

end Recording

namespace ListChangeBuilder
variable {E : Type}

structure Idle (b : ListChangeBuilder E) : Prop where
  lock : b.changeLock = 0
  addRemove : b.addRemove = []
  updates : b.updates = []
  permutation : b.permutationChange = none

theorem idle_new : Idle (new : ListChangeBuilder E) := ⟨rfl, rfl, rfl, rfl⟩

theorem fired_nothing {b : ListChangeBuilder E} (idle : Idle b) : b.beginChange.endChange = .done b := by
  obtain ⟨lock, addRemoveChanges, updateChanges, permutationChange, fired⟩ := b
  obtain ⟨rfl, hadd, hupd, rfl⟩ := idle
  simp only [addRemove, updates] at hadd hupd
  simp [beginChange, endChange, commit, addRemove, updates, hadd, hupd]

/-! ## Invariant of a recording without permutations and updates -/

/-- The add/remove sub-changes of an open block turn `original` into `current`. -/
structure Tracks (original current : List E) (b : ListChangeBuilder E) : Prop where
  open_block : b.changeLock ≠ 0
  turns : Turns 0 (b.addRemove.map SubChange.edit) original current
  nonnull : ∀ c ∈ b.addRemove, c.removed ≠ none
  plain : ∀ c ∈ b.addRemove, c.Plain
  updates : b.updates = []
  permutation : b.permutationChange = none

theorem not_hitsNull {idx : Int} {cs : List (SubChange E)} (h : ∀ c ∈ cs, c.removed ≠ none) :
    ¬ HitsNull idx cs := by
  rintro ⟨c, hc, hnull⟩
  refine h c ?_ hnull
  rw [removedTarget] at hc
  split at hc
  · cases hc
  · rename_i last hlast
    split at hc
    · cases hc
      exact List.mem_of_getLast? hlast
    · split at hc
      · rename_i k _
        split at hc
        · rw [getBefore] at hc
          split at hc
          · exact List.mem_of_getElem? hc
          · cases hc
        · split at hc
          · exact List.mem_of_getElem? hc
          · cases hc
      · cases hc

theorem nextRemove_eq {b : ListChangeBuilder E} {idx : Int} {x : E} {cs : List (SubChange E)}
    (lock : b.changeLock ≠ 0) (h : recordRemove idx x b.addRemove = .done cs) :
    nextRemove idx x b = .done { b with
      addRemoveChanges := some cs
      updateChanges := b.updateChanges.map (removeFromUpdates idx) } := by
  rw [nextRemove, if_neg lock, h]
  rfl

theorem updates_map {b : ListChangeBuilder E} {f : List (SubChange E) → List (SubChange E)}
    (h : b.updates = []) (hf : f [] = []) : (b.updateChanges.map f).getD [] = [] := by
  rw [updates] at h
  cases hb : b.updateChanges with
  | none => rfl
  | some l =>
    rw [hb, Option.getD_some] at h
    rw [h, Option.map_some, hf, Option.getD_some]

theorem tracks_nextRemove {original front back : List E} {x : E} {b : ListChangeBuilder E}
    (h : Tracks original (front ++ x :: back) b)
    (clean : ¬ Misfires front.length b.addRemove) :
    ∃ b', nextRemove front.length x b = .done b' ∧ Tracks original (front ++ back) b' ∧
      b'.changeLock = b.changeLock ∧ b'.fired = b.fired := by
  obtain ⟨cs, hcs, hturn, hnull, hplain⟩ :=
    recordRemove_leaves h.turns clean (not_hitsNull h.nonnull)
  refine ⟨_, nextRemove_eq h.open_block hcs, ?_, rfl, rfl⟩
  exact ⟨h.open_block, hturn, hnull h.nonnull, hplain h.plain, updates_map h.updates rfl, h.permutation⟩

theorem tracks_removals {original front back : List E} (xs : List E) {b : ListChangeBuilder E}
    (h : Tracks original (front ++ (xs ++ back)) b)
    (clean : Outcome.Along (fun _ b => ¬ Misfires front.length b.addRemove)
      (fun e b => nextRemove front.length e b) xs b) :
    ∃ b', Outcome.run (fun e b => nextRemove (front.length : Int) e b) xs b = .done b' ∧
      Tracks original (front ++ back) b' ∧ b'.changeLock = b.changeLock ∧ b'.fired = b.fired := by
  induction xs generalizing b with
  | nil => exact ⟨b, rfl, h, rfl, rfl⟩
  | cons x xs ih =>
    obtain ⟨b₁, hstep, htracks, hlock, hfired⟩ := tracks_nextRemove h clean.1
    obtain ⟨b₂, hrun, htracks₂, hlock₂, hfired₂⟩ := ih htracks (clean.2 b₁ hstep)
    exact ⟨b₂, by rw [Outcome.run_cons, hstep, Outcome.bind_done, hrun], htracks₂,
      hlock₂.trans hlock, hfired₂.trans hfired⟩

theorem nextAdd_eq {b : ListChangeBuilder E} {i j : Int} (lock : b.changeLock ≠ 0) :
    nextAdd i j b = .done { b with
      addRemoveChanges := some (recordAdd i j b.addRemove)
      updateChanges := b.updateChanges.map (addToUpdates i j) } := by
  rw [nextAdd, if_neg lock]

theorem tracks_nextAdd {original front back : List E} (new : List E) {b : ListChangeBuilder E}
    (h : Tracks original (front ++ back) b) :
    ∃ b', nextAdd front.length (front.length + new.length) b = .done b' ∧
      Tracks original (front ++ (new ++ back)) b' ∧ b'.changeLock = b.changeLock ∧
      b'.fired = b.fired := by
  obtain ⟨cs, hcs, hturn, hnull, hplain⟩ := recordAdd_leaves new h.turns
  refine ⟨_, nextAdd_eq h.open_block, ?_, rfl, rfl⟩
  rw [Outcome.done.inj hcs]
  exact ⟨h.open_block, hturn, hnull h.nonnull, hplain h.plain, updates_map h.updates rfl, h.permutation⟩

theorem endChange_inner {b : ListChangeBuilder E} (h : 2 ≤ b.changeLock) :
    b.endChange = .done { b with changeLock := b.changeLock - 1 } := by
  rw [endChange, if_neg (by omega), commit, if_neg]
  rintro ⟨hlock, -⟩
  dsimp only at hlock
  omega

/-! ## The commit -/

/-- Somewhere in a chain of touching sub-changes a null `removed` list follows
one that is not null; `seen` says that the sub-change before has one. -/
def NullBehind (seen : Bool) (stop : Int) : List (SubChange E) → Prop
  | [] => False
  | cur :: rest =>
      if stop = cur.fromIdx then
        seen = true ∧ cur.removed = none ∨ NullBehind (seen || cur.removed.isSome) cur.toIdx rest
      else NullBehind cur.removed.isSome cur.toIdx rest

/-- `compress` on this list dereferences a null `removed` list. -/
def CompressHitsNull : List (SubChange E) → Prop
  | [] => False
  | prev :: rest => NullBehind prev.removed.isSome prev.toIdx rest

private theorem compressFrom_spec {prev : SubChange E} {rest : List (SubChange E)}
    (h : ¬ NullBehind prev.removed.isSome prev.toIdx rest) :
    ∃ out, compressFrom prev rest = .ok out ∧
      (∀ p original current, Turns p ((prev :: rest).map SubChange.edit) original current →
        Turns p (out.map SubChange.edit) original current) ∧
      ((∀ c ∈ prev :: rest, c.Plain) → ∀ c ∈ out, c.Plain) ∧ out ≠ [] := by
  induction rest generalizing prev with
  | nil => exact ⟨[prev], rfl, fun _ _ _ h => h, fun h => h, by simp⟩
  | cons cur rest ih =>
    rw [NullBehind] at h
    rw [compressFrom]
    split
    · rename_i htouch
      rw [if_pos htouch, not_or] at h
      -- joining the two, whatever their removed lists are
      have join : ∀ d : SubChange E, d.fromIdx = prev.fromIdx → d.toIdx = cur.toIdx →
          d.getRemoved = prev.getRemoved ++ cur.getRemoved → d.perm = prev.perm →
          d.updated = prev.updated → ¬ NullBehind d.removed.isSome d.toIdx rest →
          ∃ out, compressFrom d rest = .ok out ∧
            (∀ p original current,
              Turns p ((prev :: cur :: rest).map SubChange.edit) original current →
              Turns p (out.map SubChange.edit) original current) ∧
            ((∀ c ∈ prev :: cur :: rest, c.Plain) → ∀ c ∈ out, c.Plain) ∧ out ≠ [] := by
        intro d hfrom hto hrem hperm hupd hnull
        obtain ⟨out, hout, hturn, hplain, hne⟩ := ih hnull
        refine ⟨out, hout, ?_, ?_, hne⟩
        · intro p original current ht
          apply hturn
          have hd : d.edit = ⟨prev.edit.lo, cur.edit.hi, prev.edit.old ++ cur.edit.old⟩ := by
            simp only [SubChange.edit, hfrom, hto, hrem]
          rw [List.map_cons, hd]
          exact turns_join ht htouch
        · intro hall
          apply hplain
          intro c hc
          rcases List.mem_cons.mp hc with rfl | hc
          · obtain ⟨h1, h2⟩ := hall prev (List.mem_cons_self ..)
            exact ⟨hperm.trans h1, hupd.trans h2⟩
          · exact hall c (List.mem_cons_of_mem _ (List.mem_cons_of_mem _ hc))
      cases hp : prev.removed with
      | none =>
        cases hc : cur.removed with
        | none =>
          refine join _ rfl rfl ?_ rfl rfl ?_
          · simp [SubChange.getRemoved, hp, hc]
          · simpa [hp, hc] using h.2
        | some added =>
          refine join _ rfl rfl ?_ rfl rfl ?_
          · simp [SubChange.getRemoved, hp, hc]
          · simpa [hp, hc] using h.2
      | some removed =>
        cases hc : cur.removed with
        | none => exact absurd ⟨by rw [hp]; rfl, hc⟩ h.1
        | some added =>
          refine join _ rfl rfl ?_ rfl rfl ?_
          · simp [SubChange.getRemoved, hp, hc]
          · simpa [hp, hc] using h.2
    · rename_i htouch
      rw [if_neg htouch] at h
      obtain ⟨out, hout, hturn, hplain, -⟩ := ih h
      refine ⟨prev :: out, by rw [hout]; rfl, ?_, ?_, by simp⟩
      · rintro p original current ⟨kept, added, xs', ys', hx, hy, hlo, hhi, hrest⟩
        exact ⟨kept, added, xs', ys', hx, hy, hlo, hhi, hturn _ _ _ hrest⟩
      · intro hall c hc
        rcases List.mem_cons.mp hc with rfl | hc
        · exact hall c (List.mem_cons_self ..)
        · exact hplain (fun d hd => hall d (List.mem_cons_of_mem _ hd)) c hc

theorem compress_spec {cs : List (SubChange E)} (h : ¬ CompressHitsNull cs) :
    ∃ out, compress cs = .ok out ∧
      (∀ p original current, Turns p (cs.map SubChange.edit) original current →
        Turns p (out.map SubChange.edit) original current) ∧
      ((∀ c ∈ cs, c.Plain) → ∀ c ∈ out, c.Plain) := by
  cases cs with
  | nil => exact ⟨[], rfl, fun _ _ _ h => h, fun h => h⟩
  | cons prev rest =>
    obtain ⟨out, hout, hturn, hplain, -⟩ := compressFrom_spec h
    exact ⟨out, hout, hturn, hplain⟩

theorem not_compressHitsNull {cs : List (SubChange E)} (h : ∀ c ∈ cs, c.removed ≠ none) :
    ¬ CompressHitsNull cs := by
  have general : ∀ (rest : List (SubChange E)) (stop : Int) (seen : Bool),
      (∀ c ∈ rest, c.removed ≠ none) → ¬ NullBehind seen stop rest := by
    intro rest
    induction rest with
    | nil => intro _ _ _ h; exact h
    | cons cur rest ih =>
      intro stop seen hall
      have htail : ∀ c ∈ rest, c.removed ≠ none := fun c hc => hall c (List.mem_cons_of_mem _ hc)
      rw [NullBehind]
      split
      · rintro (⟨-, hnull⟩ | hrest)
        · exact hall cur (List.mem_cons_self ..) hnull
        · exact ih _ _ htail hrest
      · exact ih _ _ htail
  cases cs with
  | nil => exact fun h => h
  | cons prev rest => exact general rest _ _ (fun c hc => h c (List.mem_cons_of_mem _ hc))

@[simp] theorem finalizeSubChange_edit (c : SubChange E) : (finalizeSubChange c).edit = c.edit := rfl

theorem map_finalize_edit (cs : List (SubChange E)) :
    (cs.map finalizeSubChange).map SubChange.edit = cs.map SubChange.edit := by
  rw [List.map_map]
  rfl

/-- What the outermost `endChange` fires for a recording without permutations
and updates: nothing if nothing is recorded, else add/remove sub-changes that
turn `original` into `current`. -/
theorem tracks_endChange {original current : List E} {b : ListChangeBuilder E}
    (h : Tracks original current b) (outermost : b.changeLock = 1) :
    ∃ b', b.endChange = .done b' ∧ Idle b' ∧
      (b'.fired = b.fired ∧ original = current ∨
        ∃ change : List (SubChange E), b'.fired = b.fired ++ [change] ∧ (∀ c ∈ change, c.Plain) ∧
          Turns 0 (change.map SubChange.edit) original current) := by
  rw [endChange, if_neg (by omega), outermost, commit]
  by_cases hnil : b.addRemove = []
  · rw [if_neg]
    · refine ⟨_, rfl, ⟨rfl, hnil, h.updates, h.permutation⟩, Or.inl ⟨rfl, ?_⟩⟩
      have hturn := h.turns
      rw [hnil] at hturn
      exact hturn
    · rintro ⟨-, hne | hne | hne⟩
      · exact hne hnil
      · exact hne h.updates
      · rw [h.permutation] at hne
        cases hne
  · rw [if_pos ⟨rfl, Or.inl hnil⟩]
    have hup : (updates { b with changeLock := 1 - 1 } : List (SubChange E)) = [] := h.updates
    have har : (addRemove { b with changeLock := 1 - 1 } : List (SubChange E)) = b.addRemove := rfl
    obtain ⟨out, hout, hturn, hplain⟩ := compress_spec (not_compressHitsNull h.nonnull)
    obtain ⟨change, hchange, hcplain, hcturn⟩ : ∃ change,
        commitChange { b with changeLock := 1 - 1 } = .ok change ∧ (∀ c ∈ change, c.Plain) ∧
          Turns 0 (change.map SubChange.edit) original current := by
      rw [commitChange, hup, har, h.permutation]
      split
      · refine ⟨_, rfl, ?_, ?_⟩
        · intro c hc
          simp only [Option.toList_none, List.nil_append, List.append_nil, List.mem_map] at hc
          obtain ⟨d, hd, rfl⟩ := hc
          exact h.plain d hd
        · rw [map_finalize_edit]
          simpa using h.turns
      · refine ⟨out.map finalizeSubChange, by rw [hout, compress]; simp [bind, Except.bind], ?_, ?_⟩
        · intro c hc
          obtain ⟨d, hd, rfl⟩ := List.mem_map.mp hc
          exact hplain h.plain d hd
        · rw [map_finalize_edit]
          exact hturn _ _ _ h.turns
    rw [hchange]
    refine ⟨_, rfl, ⟨rfl, ?_, ?_, rfl⟩, Or.inr ⟨change, rfl, hcplain, hcturn⟩⟩
    · simp only [addRemove]
      cases b.addRemoveChanges <;> rfl
    · simp only [updates]
      cases b.updateChanges <;> rfl

end ListChangeBuilder

namespace Report
variable {E : Type}
open ListChangeBuilder

theorem split_removed {i n : Nat} {current : List E} (h : i + n ≤ current.length) :
    current = current.take i ++ ((current.drop i).take n ++ current.drop (i + n)) ∧
      (current.take i).length = i := by
  refine ⟨?_, by rw [List.length_take]; omega⟩
  rw [← List.drop_drop, List.take_append_drop, List.take_append_drop]

theorem split_one {i : Nat} {current : List E} (h : i < current.length) :
    ∃ x, (current.drop i).take 1 = [x] ∧ current = current.take i ++ x :: current.drop (i + 1) := by
  refine ⟨current.get ⟨i, h⟩, ?_, ?_⟩
  · rw [List.drop_eq_getElem_cons h]
    rfl
  · simp

theorem call_tracks {original : List E} {s : Recording E} {r : Report E}
    (h : Tracks original s.current s.builder) (edit : r.isEdit = true) (inRange : r.InRange s)
    (clean : r.Clean s) :
    ∃ b, r.call s.current s.builder = .done b ∧ Tracks original (r.apply s.current) b ∧
      b.fired = s.builder.fired := by
  have removals : ∀ i n, i + n ≤ s.current.length →
      Outcome.Along (fun _ b => ¬ Misfires i b.addRemove) (fun e b => nextRemove i e b)
        ((s.current.drop i).take n) s.builder →
      ∃ b, Outcome.run (fun e b => nextRemove (i : Int) e b) ((s.current.drop i).take n) s.builder
          = .done b ∧
        Tracks original (s.current.take i ++ s.current.drop (i + n)) b ∧
        b.fired = s.builder.fired := by
    intro i n hle hclean
    obtain ⟨hsplit, hlen⟩ := split_removed hle
    rw [hsplit] at h
    obtain ⟨b, hrun, htracks, -, hfired⟩ := tracks_removals _ h (by rw [hlen]; exact hclean)
    rw [hlen] at hrun
    exact ⟨b, hrun, htracks, hfired⟩
  have additions : ∀ (i : Nat) (new back : List E) (b : ListChangeBuilder E),
      i ≤ s.current.length → Tracks original (s.current.take i ++ back) b →
      ∃ b', nextAdd i (i + new.length) b = .done b' ∧
        Tracks original (s.current.take i ++ (new ++ back)) b' ∧ b'.fired = b.fired := by
    intro i new back b hle hb
    obtain ⟨b', hadd, htracks, -, hfired⟩ := tracks_nextAdd new hb
    rw [List.length_take, Nat.min_eq_left hle] at hadd
    exact ⟨b', hadd, htracks, hfired⟩
  cases r with
  | add i new =>
    rw [← List.take_append_drop i s.current] at h
    exact additions i new _ _ inRange h
  | remove i => exact removals i 1 inRange clean
  | removeAll i n =>
    obtain ⟨b, hrun, htracks, hfired⟩ := removals i n inRange clean
    refine ⟨b, ?_, htracks, hfired⟩
    simpa only [call, removed, nextRemoveAll, if_neg h.open_block] using hrun
  | set i new =>
    obtain ⟨b, hrun, htracks, hfired⟩ := removals i 1 inRange clean
    obtain ⟨b', hadd, htracks', hfired'⟩ := additions i [new] _ b (Nat.le_of_lt inRange) htracks
    refine ⟨b', ?_, htracks', hfired'.trans hfired⟩
    obtain ⟨x, hx, -⟩ := split_one inRange
    simp only [call, removed, hx, Outcome.run_cons, nextSet] at hrun ⊢
    obtain ⟨b₁, hb₁, hdone⟩ := Outcome.bind_eq_done hrun
    cases hdone
    rw [List.length_singleton, Nat.cast_one] at hadd
    rw [hb₁, Outcome.bind_done, hadd, Outcome.bind_done, Outcome.run_nil]
  | replace i n new =>
    obtain ⟨b, hrun, htracks, hfired⟩ := removals i n inRange clean
    have hle : i ≤ s.current.length := Nat.le_trans (Nat.le_add_right i n) inRange
    obtain ⟨b', hadd, htracks', hfired'⟩ := additions i new _ b hle htracks
    refine ⟨b', ?_, htracks', hfired'.trans hfired⟩
    rw [call, nextReplace, nextRemoveAll, if_neg h.open_block, removed, hrun, Outcome.bind_done, hadd]
  | update i => cases edit
  | permute lo perm => cases edit
  | beginChange =>
    exact ⟨_, rfl, ⟨Nat.succ_ne_zero _, h.turns, h.nonnull, h.plain, h.updates, h.permutation⟩, rfl⟩
  | endChange =>
    refine ⟨_, endChange_inner inRange, ?_, rfl⟩
    have hopen : s.builder.changeLock - 1 ≠ 0 := by
      have : 2 ≤ s.builder.changeLock := inRange
      omega
    exact ⟨hopen, h.turns, h.nonnull, h.plain, h.updates, h.permutation⟩

end Report

namespace Recording
variable {E : Type}
open ListChangeBuilder

/-- A report that is an edit of the current list and takes no misfiring branch. -/
def Edits (r : Report E) (s : Recording E) : Prop :=
  r.isEdit = true ∧ r.InRange s ∧ r.Clean s

instance (r : Report E) (s : Recording E) : Decidable (Edits r s) :=
  inferInstanceAs (Decidable (_ ∧ _ ∧ _))

theorem records_tracks {original : List E} (rs : List (Report E)) {s : Recording E}
    (h : Tracks original s.current s.builder) (edits : Outcome.Along Edits record rs s) :
    ∃ t, records rs s = .done t ∧ Tracks original t.current t.builder ∧
      t.builder.fired = s.builder.fired := by
  refine Outcome.run_total
    (fun t => Tracks original t.current t.builder ∧ t.builder.fired = s.builder.fired)
    Edits record ?_ rs s ⟨h, rfl⟩ edits
  rintro r t ⟨ht, hfired⟩ ⟨hedit, hrange, hclean⟩
  obtain ⟨b, hcall, htracks, hb⟩ := Report.call_tracks ht hedit hrange hclean
  exact ⟨_, by rw [record, hcall, Outcome.map_done], htracks, hb.trans hfired⟩

theorem tracks_beginChange {b : ListChangeBuilder E} (idle : Idle b) (original : List E) :
    Tracks original original b.beginChange where
  open_block := Nat.succ_ne_zero _
  turns := by
    have h : b.beginChange.addRemove = [] := idle.addRemove
    rw [h]
    rfl
  nonnull := by
    have h : b.beginChange.addRemove = [] := idle.addRemove
    simp [h]
  plain := by
    have h : b.beginChange.addRemove = [] := idle.addRemove
    simp [h]
  updates := idle.updates
  permutation := idle.permutation

variable [DecidableEq E]

/-- The replay law.  A block without permutations and updates, none of whose
removals misfires, is recorded without an exception, and what the outermost
`endChange` fires leads from the list at `beginChange` to the current one; when
nothing is fired the two are equal. -/
theorem fired_change_replays {b : ListChangeBuilder E} (idle : Idle b) (original : List E)
    (rs : List (Report E)) (edits : Outcome.Along Edits record rs ⟨original, b.beginChange⟩) :
    ∃ s, records rs ⟨original, b.beginChange⟩ = .done s ∧
      (s.builder.changeLock = 1 → ∃ b', s.builder.endChange = .done b' ∧ Idle b' ∧
        (b'.fired = b.fired ∧ original = s.current ∨
          ∃ change, b'.fired = b.fired ++ [change] ∧
            Change.replay s.current change original = some s.current ∧
            change.Pairwise (fun c d => c.fromIdx ≤ d.fromIdx ∧ c.toIdx ≤ d.fromIdx))) := by
  obtain ⟨s, hrun, htracks, hfired⟩ := records_tracks rs (tracks_beginChange idle original) edits
  refine ⟨s, hrun, ?_⟩
  intro outermost
  obtain ⟨b', hend, hidle, hcases⟩ := tracks_endChange htracks outermost
  refine ⟨b', hend, hidle, ?_⟩
  rw [hfired] at hcases
  rcases hcases with hsame | ⟨change, hchange, hplain, hturn⟩
  · exact Or.inl hsame
  · refine Or.inr ⟨change, hchange, ?_, ?_⟩
    · rw [Change.replay_plain _ hplain]
      exact (replay_turns_zero.mpr hturn).2
    · exact (ordered_edits.mp hturn.ordered.1).pairwise

/-- Inserting in front of `1`, replacing `2` in an inner block and removing `1`. -/
theorem fired_change_replays_nested :
    ∃ s, records [.add 0 [7], .beginChange, .set 2 8, .endChange, .remove 1]
        ⟨[1, 2, 3], (new : ListChangeBuilder Nat).beginChange⟩ = .done s ∧
      (s.builder.changeLock = 1 → ∃ b', s.builder.endChange = .done b' ∧ Idle b' ∧
        (b'.fired = [] ∧ [1, 2, 3] = s.current ∨
          ∃ change, b'.fired = [] ++ [change] ∧
            Change.replay s.current change [1, 2, 3] = some s.current ∧
            change.Pairwise (fun c d => c.fromIdx ≤ d.fromIdx ∧ c.toIdx ≤ d.fromIdx))) :=
  fired_change_replays idle_new [1, 2, 3] _ (by decide)

/-- Without the condition on removals: `7` and `8` are inserted around `5`, then
`5` and `7` are removed.  The second removal carries the sub-change of `8` across
that of `7`, and the fired change says that `7` was in the list at the start. -/
theorem crossed_removal_not_replayable :
    Outcome.Along (fun r s => r.isEdit = true ∧ r.InRange s) record
        [.add 0 [7], .add 2 [8], .remove 1, .remove 0]
        (⟨[5], (new : ListChangeBuilder Nat).beginChange⟩ : Recording Nat) ∧
      ∃ b change, records [.add 0 [7], .add 2 [8], .remove 1, .remove 0]
          (⟨[5], (new : ListChangeBuilder Nat).beginChange⟩ : Recording Nat) = .done ⟨[8], b⟩ ∧
        b.endChange = .done { (new : ListChangeBuilder Nat) with
          addRemoveChanges := some [], fired := [change] } ∧
        Change.replay [8] change [5] ≠ some [8] ∧
        ¬ change.Pairwise (fun c d => c.fromIdx ≤ d.fromIdx ∧ c.toIdx ≤ d.fromIdx) := by
  refine ⟨by decide, ⟨1, some [⟨0, 1, some [], [], false⟩, ⟨0, 1, some [7, 5], [], false⟩],
    none, none, []⟩, [⟨0, 1, some [], [], false⟩, ⟨0, 1, some [7, 5], [], false⟩], ?_⟩
  decide

end Recording
end OpenJfx.Collections
