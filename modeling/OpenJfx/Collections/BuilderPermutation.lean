import OpenJfx.Collections.PermutationReconstruct
import OpenJfx.Collections.BuilderRecording

/-! # Permutations after insertions and removals

`nextPermutation` renews three things: the permutation of the original list, the
add/remove sub-changes and the update sub-changes.  The module describes the new
values and derives when the new permutation and the new add/remove sub-changes
still lead from the original list to the permuted current one. -/
set_option autoImplicit false
namespace OpenJfx.Collections
open OpenJfx.Lib

namespace ListChangeBuilder
variable {E : Type}

/-! ## Grouping positions into ranges -/

/-- `gs` are the maximal ranges of the positions `as`; each takes over what
stands in `r` at its positions. -/
structure Groups (updated : Bool) (r : Int → List E) (as : List Int) (gs : List (SubChange E)) :
    Prop where
  ordered : Ordered SubChange.fromIdx SubChange.toIdx 0 gs
  nonempty : ∀ g ∈ gs, g.fromIdx < g.toIdx
  covers : ∀ z, (∃ g ∈ gs, g.fromIdx ≤ z ∧ z < g.toIdx) ↔ z ∈ as
  kind : ∀ g ∈ gs, g.perm = [] ∧ g.updated = updated
  removed : ∀ g ∈ gs, g.getRemoved = (intRange g.fromIdx g.toIdx).flatMap r

theorem groupStep_new (updated : Bool) (m : List (Int × List E)) {cs : List (SubChange E)} {i : Int}
    (h : ∀ last ∈ cs.getLast?, last.toIdx ≠ i) :
    groupStep updated m cs i = cs ++ [⟨i, i + 1, mapGet i m, [], updated⟩] := by
  rcases List.eq_nil_or_concat' cs with rfl | ⟨init, last, rfl⟩
  · rw [groupStep]
    cases hm : mapGet i m with
    | none => simp
    | some r => simp [List.modify, SubChange.getRemoved]
  · have hne := h last (by simp)
    have hmod := modify_split (init ++ [last]) [] (⟨i, i + 1, none, [], updated⟩ : SubChange E)
    rw [groupStep]
    simp only [List.getLast?_concat, ne_eq, hne, not_false_eq_true, if_true]
    cases hm : mapGet i m with
    | none => rfl
    | some r =>
      simp only [List.length_append, List.length_singleton, Nat.add_sub_cancel] at hmod ⊢
      rw [hmod]
      rfl

theorem groupStep_extend (updated : Bool) (m : List (Int × List E)) {init : List (SubChange E)}
    {last : SubChange E} {i : Int} (h : last.toIdx = i) :
    ∃ g : SubChange E, groupStep updated m (init ++ [last]) i = init ++ [g] ∧
      g.fromIdx = last.fromIdx ∧ g.toIdx = i + 1 ∧ g.perm = last.perm ∧ g.updated = last.updated ∧
      g.getRemoved = last.getRemoved ++ (mapGet i m).getD [] := by
  have hmod := fun (c : SubChange E) f => modify_split init [] c f
  rw [groupStep]
  simp only [List.getLast?_concat, h, ne_eq, not_true_eq_false, if_false, List.length_append,
    List.length_singleton, Nat.add_sub_cancel, hmod]
  cases hm : mapGet i m with
  | none => exact ⟨_, rfl, rfl, rfl, rfl, rfl, by simp [SubChange.getRemoved]⟩
  | some r => exact ⟨_, rfl, rfl, rfl, rfl, rfl, by simp [SubChange.getRemoved]⟩

private theorem Groups.end_le {updated : Bool} {r : Int → List E} {as : List Int}
    {gs : List (SubChange E)} (h : Groups updated r as gs) {a : Int} (ha : ∀ z ∈ as, z < a) :
    ∀ g ∈ gs, g.toIdx ≤ a := by
  intro g hg
  have hlt := h.nonempty g hg
  have := ha (g.toIdx - 1) ((h.covers _).mp ⟨g, hg, by omega, by omega⟩)
  omega

theorem groups_fold (updated : Bool) (m : List (Int × List E)) {as : List Int}
    (sorted : as.Pairwise (· < ·)) (nonneg : ∀ a ∈ as, 0 ≤ a) :
    Groups updated (fun j => (mapGet j m).getD []) as (as.foldl (groupStep updated m) []) := by
  induction as using List.reverseRecOn with
  | nil => exact ⟨trivial, by simp, by simp, by simp, by simp⟩
  | append_singleton as a ih =>
    obtain ⟨hsorted, -, hlast⟩ := List.pairwise_append.mp sorted
    have hbelow : ∀ z ∈ as, z < a := fun z hz => hlast z hz a (List.mem_singleton_self a)
    have hg := ih hsorted (fun z hz => nonneg z (List.mem_append_left _ hz))
    have hends := hg.end_le hbelow
    have ha0 : 0 ≤ a := nonneg a (List.mem_append_right _ (List.mem_singleton_self a))
    rw [List.foldl_append, List.foldl_cons, List.foldl_nil]
    generalize as.foldl (groupStep updated m) [] = gs at hg hends
    by_cases htouch : ∃ last ∈ gs.getLast?, last.toIdx = a
    · -- the position extends the last range
      obtain ⟨last, hmem, hto⟩ := htouch
      obtain ⟨init, rfl⟩ : ∃ init, gs = init ++ [last] := List.getLast?_eq_some_iff.mp hmem
      obtain ⟨g, hstep, hfrom, hgto, hperm, hupd, hrem⟩ := groupStep_extend updated m hto
      have hlast := hg.nonempty last (by simp)
      obtain ⟨hinit, hlo, -, -⟩ := ordered_append.mp hg.ordered
      rw [hstep]
      refine ⟨ordered_append.mpr ⟨hinit, by omega, by omega, trivial⟩, ?_, ?_, ?_, ?_⟩
      · intro c hc
        rcases List.mem_append.mp hc with hc | hc
        · exact hg.nonempty c (List.mem_append_left _ hc)
        · rw [List.mem_singleton.mp hc]
          omega
      · intro z
        have hcov := hg.covers z
        simp only [List.mem_append, List.mem_singleton, or_and_right, exists_or, exists_eq_left]
          at hcov ⊢
        rw [← hcov, hfrom, hgto]
        constructor
        · rintro (h | h)
          · exact Or.inl (Or.inl h)
          · by_cases hz : z = a
            · exact Or.inr hz
            · exact Or.inl (Or.inr (by omega))
        · rintro ((h | h) | h)
          · exact Or.inl h
          · exact Or.inr (by omega)
          · exact Or.inr (by omega)
      · intro c hc
        rcases List.mem_append.mp hc with hc | hc
        · exact hg.kind c (List.mem_append_left _ hc)
        · rw [List.mem_singleton.mp hc, hperm, hupd]
          exact hg.kind last (by simp)
      · intro c hc
        rcases List.mem_append.mp hc with hc | hc
        · exact hg.removed c (List.mem_append_left _ hc)
        · rw [List.mem_singleton.mp hc, hrem, hg.removed last (by simp), hfrom, hgto, hto,
            intRange_append (by omega : last.fromIdx ≤ a) (by omega : a ≤ a + 1),
            intRange_cons (by omega : a < a + 1), intRange_of_ge le_rfl, List.flatMap_append]
          simp
    · -- it starts a new one
      have hnew : groupStep updated m gs a = _ :=
        groupStep_new updated m (fun last hl heq => htouch ⟨last, hl, heq⟩)
      have hend : lastEnd SubChange.toIdx 0 gs ≤ a := lastEnd_le ha0 hends
      rw [hnew]
      refine ⟨ordered_append.mpr ⟨hg.ordered, hend, ?_, trivial⟩, ?_, ?_, ?_, ?_⟩
      · exact (by omega : a ≤ a + 1)
      · intro c hc
        rcases List.mem_append.mp hc with hc | hc
        · exact hg.nonempty c hc
        · rw [List.mem_singleton.mp hc]
          exact (by omega : a < a + 1)
      · intro z
        have hcov := hg.covers z
        simp only [List.mem_append, List.mem_singleton, or_and_right, exists_or, exists_eq_left]
        rw [← hcov]
        refine or_congr Iff.rfl ?_
        constructor
        · rintro ⟨h1, h2⟩
          omega
        · intro h
          omega
      · intro c hc
        rcases List.mem_append.mp hc with hc | hc
        · exact hg.kind c hc
        · rw [List.mem_singleton.mp hc]
          exact ⟨rfl, rfl⟩
      · intro c hc
        rcases List.mem_append.mp hc with hc | hc
        · exact hg.removed c hc
        · rw [List.mem_singleton.mp hc, intRange_cons (by omega : a < a + 1), intRange_of_ge le_rfl]
          simp [SubChange.getRemoved]

/-! ## Removals away from the added positions -/

/-- The position is in none of the ranges, so a sub-change for it is put between
those that end before it and those that start behind it. -/
theorem insertRemovedAt_spec {cs : List (SubChange E)}
    (ord : Ordered SubChange.fromIdx SubChange.toIdx 0 cs) {key : Int} (h0 : 0 ≤ key) (removed : List E)
    (hout : ¬ ∃ c ∈ cs, c.fromIdx ≤ key ∧ key < c.toIdx) :
    ∃ pre post, cs = pre ++ post ∧
      insertRemovedAt cs (key, removed) = .ok (pre ++ ⟨key, key, some removed, [], false⟩ :: post) ∧
      Ordered SubChange.fromIdx SubChange.toIdx 0
        (pre ++ ⟨key, key, some removed, [], false⟩ :: post) := by
  obtain ⟨pre, post, rfl, hpre, hpost, hfind⟩ := findRange_spec ord key
  rcases hfind with ⟨c, rest, rfl, hlo, -⟩ | ⟨hgap, hres⟩
  · exact absurd ⟨c, by simp, hlo, hpost c (List.mem_cons_self ..)⟩ hout
  · rw [← findSubChange_eq] at hres
    obtain ⟨hordpre, hordpost⟩ := ordered_append.mp ord
    refine ⟨pre, post, rfl, ?_, ordered_append.mpr ⟨hordpre, lastEnd_le h0 hpre, le_rfl, ?_⟩⟩
    · rw [insertRemovedAt]
      simp only [hres, insertIdx_split]
    · cases post with
      | nil => trivial
      | cons c post => exact ⟨(hgap c (List.mem_cons_self ..)).le, hordpost.2⟩

theorem lookup_insert (pre post : List (SubChange E)) (key : Int) (removed : List E)
    (hnone : lookup ((pre ++ post).map SubChange.edit) key = []) (j : Int) :
    lookup ((pre ++ ⟨key, key, some removed, [], false⟩ :: post).map SubChange.edit) j =
      if key = j then removed else lookup ((pre ++ post).map SubChange.edit) j := by
  have happend : ∀ as bs : List (Edit E), lookup (as ++ bs) j = lookup as j ++ lookup bs j := by
    intro as bs
    rw [lookup, List.filter_append, List.flatMap_append, lookup, lookup]
  have hnew : (⟨key, key, some removed, [], false⟩ : SubChange E).edit = ⟨key, key, removed⟩ := rfl
  rw [List.map_append, List.map_append, List.map_cons, happend, happend, lookup_cons, hnew]
  by_cases hj : key = j
  · subst hj
    rw [List.map_append, happend, List.append_eq_nil_iff] at hnone
    rw [hnone.1, hnone.2, if_pos rfl, if_pos rfl, List.append_nil, List.nil_append]
  · rw [if_neg hj, if_neg hj, List.nil_append]

theorem insertRest_spec {n : Int} {added : Int → Prop} {rest : List (Int × List E)}
    {cs : List (SubChange E)} (ord : Ordered SubChange.fromIdx SubChange.toIdx 0 cs)
    (hend : ∀ c ∈ cs, c.toIdx ≤ n)
    (covers : ∀ z, (∃ c ∈ cs, c.fromIdx ≤ z ∧ z < c.toIdx) ↔ added z)
    (plain : ∀ c ∈ cs, c.Plain) (hkeys : (rest.map Prod.fst).Nodup)
    (hrest : ∀ e ∈ rest, ¬ added e.1 ∧ 0 ≤ e.1 ∧ e.1 ≤ n ∧ lookup (cs.map SubChange.edit) e.1 = []) :
    ∃ out, rest.foldlM insertRemovedAt cs = .ok out ∧
      Ordered SubChange.fromIdx SubChange.toIdx 0 out ∧ (∀ c ∈ out, c.toIdx ≤ n) ∧
      (∀ z, (∃ c ∈ out, c.fromIdx ≤ z ∧ z < c.toIdx) ↔ added z) ∧ (∀ c ∈ out, c.Plain) ∧
      ∀ j, lookup (out.map SubChange.edit) j =
        lookup (cs.map SubChange.edit) j ++ (mapGet j rest).getD [] := by
  induction rest generalizing cs with
  | nil => exact ⟨cs, rfl, ord, hend, covers, plain, by simp [mapGet]⟩
  | cons e rest ih =>
    obtain ⟨key, removed⟩ := e
    obtain ⟨hkey, hkeys'⟩ := List.nodup_cons.mp hkeys
    obtain ⟨hout, h0, hn, hnone⟩ := hrest (key, removed) (List.mem_cons_self ..)
    obtain ⟨pre, post, rfl, hinsert, hord⟩ := insertRemovedAt_spec ord h0 removed
      (fun h => hout ((covers key).mp h))
    have hlookup := lookup_insert pre post key removed hnone
    have hmem : ∀ c, c ∈ pre ++ ⟨key, key, some removed, [], false⟩ :: post ↔
        c = ⟨key, key, some removed, [], false⟩ ∨ c ∈ pre ++ post := by
      intro c
      simp only [List.mem_append, List.mem_cons]
      tauto
    obtain ⟨out, hfold, h1, h2, h3, h4, h5⟩ := ih hord
      (by
        intro c hc
        rcases (hmem c).mp hc with rfl | hc
        · exact hn
        · exact hend c hc)
      (by
        intro z
        rw [← covers z]
        constructor
        · rintro ⟨c, hc, hz1, hz2⟩
          rcases (hmem c).mp hc with rfl | hc
          · exact absurd hz1 (Int.not_le.mpr hz2)
          · exact ⟨c, hc, hz1, hz2⟩
        · rintro ⟨c, hc, hz⟩
          exact ⟨c, (hmem c).mpr (Or.inr hc), hz⟩)
      (by
        intro c hc
        rcases (hmem c).mp hc with rfl | hc
        · exact ⟨rfl, rfl⟩
        · exact plain c hc) hkeys'
      (by
        intro e he
        obtain ⟨he1, he2, he3, he4⟩ := hrest e (List.mem_cons_of_mem _ he)
        refine ⟨he1, he2, he3, ?_⟩
        have hne : key ≠ e.1 := fun heq => hkey (List.mem_map.mpr ⟨e, he, heq.symm⟩)
        rw [hlookup, if_neg hne, he4])
    refine ⟨out, ?_, h1, h2, h3, h4, ?_⟩
    · rw [List.foldlM_cons, hinsert]
      exact hfold
    · intro j
      rw [h5, hlookup, mapGet]
      by_cases hj : key = j
      · subst hj
        have hget : mapGet key rest = none := by
          rw [← Option.not_isSome_iff_eq_none, mapGet_isSome_iff]
          exact hkey
        rw [if_pos rfl, if_pos rfl, hnone, hget]
        simp
      · rw [if_neg hj, if_neg hj]

/-- Sub-changes rebuilt from the added positions and the removed lists undo `ys`
to the list in which every removed list is put back at its position. -/
theorem regroup_spec {newAdded : List Int} {newRemoved : List (Int × List E)} {ys : List E}
    {added : Int → Bool} (sorted : newAdded.Pairwise (· < ·))
    (hbounds : ∀ z ∈ newAdded, 0 ≤ z ∧ z < ys.length) (hadded : ∀ z, added z = true ↔ z ∈ newAdded)
    (hnodup : (newRemoved.map Prod.fst).Nodup) (hkeys : ∀ e ∈ newRemoved, 0 ≤ e.1 ∧ e.1 ≤ ys.length) :
    ∃ out, (newRemoved.filter (fun e => !newAdded.contains e.1)).foldlM insertRemovedAt
        (newAdded.foldl (groupStep false newRemoved) []) = .ok out ∧ (∀ c ∈ out, c.Plain) ∧
      Turns 0 (out.map SubChange.edit)
        (restore (fun j => (mapGet j newRemoved).getD []) added 0 ys) ys := by
  have groups := groups_fold false newRemoved sorted (fun z hz => (hbounds z hz).1)
  generalize newAdded.foldl (groupStep false newRemoved) [] = gs at groups
  have hends : ∀ g ∈ gs, g.toIdx ≤ ys.length := groups.end_le (fun z hz => (hbounds z hz).2)
  have hmarks : Marks added 0 (gs.map SubChange.edit) := by
    intro z _
    rw [hadded, ← groups.covers]
    simp
  -- removals at added positions went to the ranges, the others get a sub-change each
  have hrest : ∀ e ∈ newRemoved.filter (fun e => !newAdded.contains e.1),
      ¬ added e.1 = true ∧ 0 ≤ e.1 ∧ e.1 ≤ ys.length ∧ lookup (gs.map SubChange.edit) e.1 = [] := by
    intro e he
    obtain ⟨hmem, hnot⟩ := List.mem_filter.mp he
    have hout : e.1 ∉ newAdded := by simpa using hnot
    refine ⟨fun h => hout ((hadded _).mp h), (hkeys e hmem).1, (hkeys e hmem).2, ?_⟩
    rw [lookup, List.filter_eq_nil_iff.mpr, List.flatMap_nil]
    intro f hf heq
    obtain ⟨g, hg, rfl⟩ := List.mem_map.mp hf
    rw [SubChange.edit_lo, decide_eq_true_eq] at heq
    exact hout ((groups.covers _).mp ⟨g, hg, heq.le, heq ▸ groups.nonempty g hg⟩)
  obtain ⟨out, hfold, hord, houtend, hcovers, hplain, hlookup⟩ := insertRest_spec groups.ordered hends
    (fun z => (groups.covers z).trans (hadded z).symm) groups.kind
    ((List.filter_sublist.map Prod.fst).nodup hnodup) hrest
  refine ⟨out, hfold, hplain, ?_⟩
  obtain ⟨xs, hxs⟩ := exists_turns (ordered_edits.mpr hord) (by
    rw [lastEnd_edits, Int.zero_add]
    exact lastEnd_le (by omega) houtend)
  have houtmarks : Marks added 0 (out.map SubChange.edit) := by
    intro z _
    rw [← hcovers z]
    simp
  have hgather := @restore_gather E 0 (gs.map SubChange.edit) ys added
    (fun j => (mapGet j newRemoved).getD []) (ordered_edits.mpr groups.ordered)
    (by
      rw [lastEnd_edits, Int.zero_add]
      exact lastEnd_le (by omega) hends) hmarks
    (by
      intro e he
      obtain ⟨g, hg, rfl⟩ := List.mem_map.mp he
      exact ⟨groups.nonempty g hg, groups.removed g hg⟩)
  have hsame : xs = restore (fun j => (mapGet j newRemoved).getD []) added 0 ys := by
    rw [hxs.eq_restore houtmarks, ← hgather]
    refine restore_congr ?_ ys
    intro j _
    rw [hlookup, mapGet_filter j (fun i => !newAdded.contains i)]
    congr 1
    by_cases hj : j ∈ newAdded
    · simp [hj, (hadded j).mpr hj]
    · have hfalse : added j = false := by
        rw [Bool.eq_false_iff, ne_eq, hadded]
        exact hj
      simp [hj, hfalse]
  rwa [hsame] at hxs

/-! ## The renewed add/remove sub-changes -/

/-- `newRemoved.put` for one sub-change. -/
def putRemoved (target : Int → Int) (m : List (Int × List E)) (c : SubChange E) : List (Int × List E) :=
  match c.removed with
  | some removed => mapPut (target c.fromIdx) removed m
  | none => m

theorem newPositions_eq (lo : Int) (perm : List Int) (cs : List (SubChange E)) :
    newPositions lo (lo + perm.length) perm cs =
      .ok (cs.flatMap (fun c => (intRange c.fromIdx c.toIdx).map (rangeMap lo perm)),
        cs.foldl (putRemoved (rangeMap lo perm)) []) := by
  have hfold : ∀ (cs : List (SubChange E)) (added : List Int) (m : List (Int × List E)),
      cs.foldl (fun acc c => (acc.1 ++ (intRange c.fromIdx c.toIdx).map (rangeMap lo perm),
        putRemoved (rangeMap lo perm) acc.2 c)) (added, m) =
      (added ++ cs.flatMap (fun c => (intRange c.fromIdx c.toIdx).map (rangeMap lo perm)),
        cs.foldl (putRemoved (rangeMap lo perm)) m) := by
    intro cs
    induction cs with
    | nil => simp
    | cons c cs ih =>
      intro added m
      rw [List.foldl_cons, ih, List.flatMap_cons, List.append_assoc, List.foldl_cons]
  rw [newPositions, foldlM_ok (f := fun acc c =>
    (acc.1 ++ (intRange c.fromIdx c.toIdx).map (rangeMap lo perm),
      putRemoved (rangeMap lo perm) acc.2 c)), hfold, List.nil_append]
  intro acc c
  rw [permuted_eq, mapM_ok (fun _ _ => rfl)]
  cases hr : c.removed with
  | none => simp [bind, Except.bind, putRemoved, hr]
  | some removed => simp [bind, Except.bind, putRemoved, hr]

theorem putRemoved_keys {target : Int → Int} {cs : List (SubChange E)} :
    ((cs.foldl (putRemoved target) []).map Prod.fst).Nodup ∧
      ∀ j, (mapGet j (cs.foldl (putRemoved target) [])).isSome →
        ∃ c ∈ cs, target c.fromIdx = j := by
  induction cs using List.reverseRecOn with
  | nil => exact ⟨by simp, by simp [mapGet]⟩
  | append_singleton cs c ih =>
    rw [List.foldl_append, List.foldl_cons, List.foldl_nil, putRemoved]
    obtain ⟨hnodup, hkeys⟩ := ih
    cases hr : c.removed with
    | none =>
      refine ⟨hnodup, ?_⟩
      intro j hj
      obtain ⟨d, hd, htarget⟩ := hkeys j hj
      exact ⟨d, List.mem_append_left _ hd, htarget⟩
    | some removed =>
      refine ⟨mapPut_keys_nodup hnodup, ?_⟩
      intro j hj
      rw [mapGet_mapPut] at hj
      by_cases hcj : target c.fromIdx = j
      · exact ⟨c, by simp, hcj⟩
      · rw [if_neg hcj] at hj
        obtain ⟨d, hd, htarget⟩ := hkeys j hj
        exact ⟨d, List.mem_append_left _ hd, htarget⟩

/-- What `newRemoved` holds for position `j`. -/
def removedThere (lo : Int) (perm : List Int) (cs : List (SubChange E)) (j : Int) : List E :=
  (mapGet j (cs.foldl (putRemoved (rangeMap lo perm)) [])).getD []

/-- The renewed sub-changes undo the permuted list to the one in which every
removed list is put back at the new position of its sub-change. -/
theorem permuteAddRemove_spec {cs : List (SubChange E)} {original current : List E} {lo : Int}
    {perm : List Int} {added' : Int → Bool} (h : Turns 0 (cs.map SubChange.edit) original current)
    (hperm : IsRangePerm lo perm) (h0 : 0 ≤ lo) (hn : lo + perm.length ≤ current.length)
    (marks : ∀ z, added' z = true ↔
      ∃ c ∈ cs, ∃ j, (c.fromIdx ≤ j ∧ j < c.toIdx) ∧ rangeMap lo perm j = z) :
    ∃ out, permuteAddRemove lo (lo + perm.length) perm cs = .ok out ∧ (∀ c ∈ out, c.Plain) ∧
      Turns 0 (out.map SubChange.edit)
        (restore (removedThere lo perm cs) added' 0 (permuteRange lo perm current))
        (permuteRange lo perm current) := by
  obtain ⟨ord, hend⟩ := h.ordered
  rw [ordered_edits] at ord
  rw [lastEnd_edits, Int.zero_add] at hend
  have hlen := permuteRange_length hperm h0 hn
  have hrange : ∀ c ∈ cs, 0 ≤ c.fromIdx ∧ c.fromIdx ≤ c.toIdx ∧ c.toIdx ≤ current.length := by
    intro c hc
    obtain ⟨h1, h2⟩ := ord.lo_ge c hc
    exact ⟨h1, h2, (ord.hi_le_lastEnd c hc).trans hend⟩
  obtain ⟨hsorted, hmem⟩ := treeSet_spec
    (cs.flatMap (fun c => (intRange c.fromIdx c.toIdx).map (rangeMap lo perm)))
  have hadded : ∀ z, added' z = true ↔ z ∈ treeSet (cs.flatMap
      (fun c => (intRange c.fromIdx c.toIdx).map (rangeMap lo perm))) := by
    intro z
    rw [hmem, marks]
    simp only [List.mem_flatMap, List.mem_map, mem_intRange]
  have hbounds : ∀ z ∈ treeSet (cs.flatMap
      (fun c => (intRange c.fromIdx c.toIdx).map (rangeMap lo perm))),
      0 ≤ z ∧ z < (permuteRange lo perm current).length := by
    intro z hz
    obtain ⟨c, hc, j, ⟨hj1, hj2⟩, rfl⟩ := (marks z).mp ((hadded z).mpr hz)
    obtain ⟨h1, h2, h3⟩ := hrange c hc
    rw [hlen]
    exact (hperm.rangeMap_bounds h0 hn).mp ⟨by omega, by omega⟩
  obtain ⟨hnodup, hkeys⟩ := @putRemoved_keys E (rangeMap lo perm) cs
  have hkeyBounds : ∀ e ∈ cs.foldl (putRemoved (rangeMap lo perm)) [],
      0 ≤ e.1 ∧ e.1 ≤ (permuteRange lo perm current).length := by
    intro e he
    obtain ⟨c, hc, hkey⟩ := hkeys e.1 (mapGet_isSome_iff.mpr (List.mem_map_of_mem he))
    obtain ⟨h1, h2, h3⟩ := hrange c hc
    rw [hlen, ← hkey]
    by_cases hlast : c.fromIdx < current.length
    · have := (hperm.rangeMap_bounds h0 hn).mp ⟨h1, hlast⟩
      omega
    · -- the end of the list is not moved
      rw [rangeMap, if_pos (by omega)]
      omega
  obtain ⟨out, hout, hplain, hturns⟩ := regroup_spec hsorted hbounds hadded hnodup hkeyBounds
  refine ⟨out, ?_, hplain, hturns⟩
  rw [permuteAddRemove, newPositions_eq]
  exact hout

/-! ## The renewed permutation -/

theorem composeLoop_spec {prePermFrom : Int} {prePerm perm : List Int} {f : Int → Int}
    (hf : ∀ p ∈ perm, readAt prePerm (p - prePermFrom) = .ok (f p)) :
    composeLoop prePermFrom prePerm (List.range perm.length) perm = .done (perm.map f) := by
  have general : ∀ todo finished : List Int, (∀ p ∈ todo, readAt prePerm (p - prePermFrom) = .ok (f p)) →
      composeLoop prePermFrom prePerm (List.range' finished.length todo.length) (finished ++ todo) =
        .done (finished ++ todo.map f) := by
    intro todo
    induction todo with
    | nil => intro finished _; rfl
    | cons p todo ih =>
      intro finished hf
      have hread : readAt (finished ++ p :: todo) finished.length = .ok p := by
        rw [readAt_natCast _ _ (by simp)]
        simp
      have hset : (finished ++ p :: todo).set finished.length (f p) = (finished ++ [f p]) ++ todo := by
        rw [List.set_append_right _ _ le_rfl, Nat.sub_self, List.set_cons_zero]
        simp
      have hrest := ih (finished ++ [f p]) (fun q hq => hf q (List.mem_cons_of_mem _ hq))
      rw [List.length_append, List.length_singleton] at hrest
      rw [List.length_cons, List.range'_succ, composeLoop, hread]
      simp only [bind, Except.bind, hf p (List.mem_cons_self ..), hset]
      rw [hrest, List.append_assoc]
      rfl
  have h := general perm [] hf
  rwa [List.nil_append, List.length_nil, ← List.range_eq_range'] at h

/-- The list that the recorded permutation makes of the original one. -/
def permutedBy (p : Option (SubChange E)) (xs : List E) : List E :=
  match p with
  | some c => permuteRange c.fromIdx c.perm xs
  | none => xs

theorem mergePermutation_spec {prePerm : List Int} {p : Option (SubChange E)} {xs : List E}
    (hpre : IsRangePerm 0 prePerm) (hlen : prePerm.length = xs.length)
    (hp : ∀ c ∈ p, c.ValidPermutation xs.length) :
    ∃ c, mergePermutation 0 xs.length prePerm p = .done (some c) ∧ c.ValidPermutation xs.length ∧
      permuteRange c.fromIdx c.perm xs = permuteRange 0 prePerm (permutedBy p xs) := by
  cases p with
  | none => exact ⟨_, rfl, ⟨le_rfl, le_rfl, by simp [hlen], hpre⟩, rfl⟩
  | some c =>
    obtain ⟨hfrom, hto, hrange, hperm⟩ := hp c rfl
    have hinside : ∀ i : Int, 0 ≤ i → i < xs.length →
        0 ≤ rangeMap c.fromIdx c.perm i ∧ rangeMap c.fromIdx c.perm i < xs.length :=
      fun i h1 h2 => (hperm.rangeMap_bounds hfrom (by omega)).mp ⟨h1, h2⟩
    rw [mergePermutation]
    by_cases hsame : (0 : Int) = c.fromIdx ∧ (xs.length : Int) = c.toIdx
    · rw [if_pos hsame]
      have hlen' : c.perm.length = xs.length := by omega
      have hloop := @composeLoop_spec 0 prePerm c.perm (rangeMap 0 prePerm) (by
        intro v hv
        have := (hperm.mem_iff v).mp hv
        exact readAt_rangeMap (by omega) (by omega))
      have hentries : ∀ i : Nat, i < xs.length → (c.perm.map (rangeMap 0 prePerm))[i]? =
          some (rangeMap 0 prePerm (rangeMap c.fromIdx c.perm i)) := by
        intro i hi
        rw [List.getElem?_map, getElem?_eq_rangeMap c.fromIdx (by omega), Option.map_some,
          ← hsame.1, Int.zero_add]
      obtain ⟨hnew, hmoved⟩ := permuteRange_comp hperm hfrom (by omega) hpre hlen
        (by rw [List.length_map, hlen']) hentries
      rw [hlen'] at hloop
      rw [hlen, hloop, Outcome.map_done]
      refine ⟨_, rfl, ⟨hfrom, hto, ?_, ?_⟩, ?_⟩
      · simpa using hrange
      · rw [← hsame.1]
        exact hnew
      · rw [← hsame.1]
        exact hmoved
    · rw [if_neg hsame]
      have hmapM := @mapM_ok _ _ (composeAt c 0 xs.length prePerm)
        (fun i => rangeMap 0 prePerm (rangeMap c.fromIdx c.perm i)) (intRange 0 xs.length) (by
          intro i hi
          obtain ⟨h1, h2⟩ := mem_intRange.mp hi
          have hb := hinside i h1 h2
          rw [composeAt]
          by_cases hout : i < c.fromIdx ∨ i ≥ c.toIdx
          · have hstay : rangeMap c.fromIdx c.perm i = i := rangeMap_outside (by omega)
            rw [if_pos hout, readAt_rangeMap h1 (by omega), hstay]
          · rw [if_neg hout, readAt_rangeMap (by omega) (by omega)]
            simp only [bind, Except.bind]
            rw [if_neg (by omega), readAt_rangeMap hb.1 (by omega)])
      have hto' : max c.toIdx (xs.length : Int) = xs.length := max_eq_right hto
      have hfrom' : min c.fromIdx 0 = 0 := min_eq_right hfrom
      dsimp only
      rw [hto', hfrom', hmapM, Outcome.ofExcept_ok]
      have hcount : (intRange 0 xs.length).length = xs.length := by
        rw [intRange_length]
        omega
      obtain ⟨hnew, hmoved⟩ := permuteRange_comp hperm hfrom (by omega) hpre hlen
        (r := (intRange 0 xs.length).map (fun i => rangeMap 0 prePerm (rangeMap c.fromIdx c.perm i)))
        (by rw [List.length_map, hcount]) (by
          intro i hi
          rw [List.getElem?_map, intRange_zero, List.getElem?_map, List.getElem?_range hi]
          rfl)
      refine ⟨_, rfl, ⟨le_rfl, le_rfl, ?_, hnew⟩, hmoved⟩
      simp [hcount]

/-! ## One call -/

/-- The positions of the update ranges, moved and grouped again. -/
def regroupUpdates (lo : Int) (perm : List Int) (us : List (SubChange E)) : List (SubChange E) :=
  (treeSet ((us.flatMap fun c => intRange c.fromIdx c.toIdx).map (rangeMap lo perm))).foldl
    (groupStep true []) []

theorem permuteUpdates_eq (lo : Int) (perm : List Int) (us : List (SubChange E)) :
    permuteUpdates lo (lo + perm.length) perm us = .ok (regroupUpdates lo perm us) := by
  rw [permuteUpdates, permuted_eq, mapM_ok (fun _ _ => rfl)]
  rfl

theorem renewAddRemove_nil {lo hi : Int} {perm : List Int} {b : ListChangeBuilder E}
    (h : b.addRemove = []) : renewAddRemove lo hi perm b = .done b := by
  rw [renewAddRemove, if_pos h]

theorem renewAddRemove_ok {lo hi : Int} {perm : List Int} {b : ListChangeBuilder E}
    {out : List (SubChange E)} (hne : b.addRemove ≠ [])
    (h : permuteAddRemove lo hi perm b.addRemove = .ok out) :
    renewAddRemove lo hi perm b = .done { b with addRemoveChanges := some out } := by
  rw [renewAddRemove, if_neg hne, h, Outcome.ofExcept_ok]

theorem renewUpdates_eq (lo : Int) (perm : List Int) (b : ListChangeBuilder E) :
    renewUpdates lo (lo + perm.length) perm b = .done { b with
      updateChanges := if b.updates = [] then b.updateChanges
        else some (regroupUpdates lo perm b.updates) } := by
  rw [renewUpdates, permuteUpdates_eq]
  split
  · rfl
  · rfl

/-- The positions in the ranges of some sub-changes. -/
def addedIn (cs : List (SubChange E)) (j : Int) : Bool :=
  cs.any (fun c => decide (c.fromIdx ≤ j) && decide (j < c.toIdx))

def addedAfter (lo : Int) (perm : List Int) (cs : List (SubChange E)) (z : Int) : Bool :=
  cs.any (fun c => (intRange c.fromIdx c.toIdx).any (fun j => rangeMap lo perm j == z))

theorem addedIn_marks (cs : List (SubChange E)) : Marks (addedIn cs) 0 (cs.map SubChange.edit) := by
  intro j _
  simp [addedIn]

theorem addedAfter_iff {lo : Int} {perm : List Int} {cs : List (SubChange E)} {z : Int} :
    addedAfter lo perm cs z = true ↔
      ∃ c ∈ cs, ∃ j, (c.fromIdx ≤ j ∧ j < c.toIdx) ∧ rangeMap lo perm j = z := by
  simp [addedAfter]

theorem addedAfter_rangeMap {lo : Int} {perm : List Int} (hperm : IsRangePerm lo perm)
    (cs : List (SubChange E)) (j : Int) : addedAfter lo perm cs (rangeMap lo perm j) = addedIn cs j := by
  rw [Bool.eq_iff_iff, addedAfter_iff]
  simp only [addedIn, List.any_eq_true, Bool.and_eq_true, decide_eq_true_eq]
  constructor
  · rintro ⟨c, hc, i, hi, heq⟩
    exact ⟨c, hc, hperm.rangeMap_injective heq ▸ hi⟩
  · rintro ⟨c, hc, hj⟩
    exact ⟨c, hc, j, hj, rfl⟩

/-- A permutation of the whole list, up to the merge with an earlier one.
`previous` is the list that the recorded sub-changes start from. -/
theorem nextPermutation_eq {b : ListChangeBuilder E} {previous current : List E} {perm : List Int}
    (lock : b.changeLock ≠ 0) (h : Turns 0 (b.addRemove.map SubChange.edit) previous current)
    (hperm : IsRangePerm 0 perm) (hlen : perm.length = current.length) :
    ∃ prePerm out, IsRangePerm 0 prePerm ∧ prePerm.length = previous.length ∧
      permuteRange 0 prePerm previous = regrow 0 (b.addRemove.map SubChange.edit)
        (keep (addedAfter 0 perm b.addRemove) 0 (permuteRange 0 perm current)) ∧
      ((∀ c ∈ b.addRemove, c.Plain) → ∀ c ∈ out.getD [], c.Plain) ∧
      Turns 0 ((out.getD []).map SubChange.edit)
        (restore (removedThere 0 perm b.addRemove) (addedAfter 0 perm b.addRemove) 0
          (permuteRange 0 perm current)) (permuteRange 0 perm current) ∧
      ∀ p, mergePermutation 0 previous.length prePerm b.permutationChange = .done p →
        nextPermutation 0 current.length perm current.length b = .done { b with
          permutationChange := p
          addRemoveChanges := out
          updateChanges := if b.updates = [] then b.updateChanges
            else some (regroupUpdates 0 perm b.updates) } := by
  have hn : 0 + (perm.length : Int) ≤ current.length := by omega
  have hcast : (current.length : Int) = 0 + perm.length := by omega
  by_cases hnil : b.addRemove = []
  · -- nothing to reconstruct
    have hsame : previous = current := by
      rw [hnil] at h
      exact h
    subst hsame
    refine ⟨perm, b.addRemoveChanges, hperm, hlen, ?_, fun hp => hp, ?_, ?_⟩
    · rw [hnil, List.map_nil, regrow, keep_all]
      intro i _ _
      rfl
    · have hempty : b.addRemoveChanges.getD [] = [] := hnil
      have hturns : Turns 0 ([] : List (Edit E)) (permuteRange 0 perm previous)
        (permuteRange 0 perm previous) := rfl
      have hrestore := hturns.eq_restore (addedIn_marks ([] : List (SubChange E)))
      rw [hempty, hnil, List.map_nil]
      exact hrestore.symm
    · intro p hp
      have hpre : prePermutation 0 previous.length perm previous.length b.addRemove =
          .ok (0, previous.length, perm) := by
        rw [prePermutation, if_pos hnil]
      have hadd : renewAddRemove 0 previous.length perm { b with permutationChange := p } = _ :=
        renewAddRemove_nil hnil
      rw [nextPermutation, if_neg lock, hpre]
      simp only [hp, Outcome.map_done, Outcome.bind_done, hadd]
      rw [hcast, renewUpdates_eq]
      rfl
  · obtain ⟨newPerm, hrec, hnewlen, hnew, hmoved⟩ := reconstruct_spec h hperm le_rfl hn
      (addedIn_marks b.addRemove) (fun j _ => addedAfter_rangeMap hperm b.addRemove j)
    obtain ⟨out, hout, hplain, hturns⟩ := permuteAddRemove_spec h hperm le_rfl hn
      (fun z => addedAfter_iff)
    rw [← hcast] at hrec hout
    refine ⟨newPerm, some out, hnew, hnewlen, hmoved, fun _ => hplain, hturns, ?_⟩
    intro p hp
    have hpre : prePermutation 0 current.length perm current.length b.addRemove =
        .ok (0, previous.length, newPerm) := by
      rw [prePermutation, if_neg hnil, hrec, ← hnewlen]
      rfl
    have hadd : renewAddRemove 0 current.length perm { b with permutationChange := p } = _ :=
      renewAddRemove_ok hnil hout
    rw [nextPermutation, if_neg lock, hpre]
    simp only [hp, Outcome.map_done, Outcome.bind_done, hadd]
    rw [hcast, renewUpdates_eq]
    rfl

end ListChangeBuilder
end OpenJfx.Collections
