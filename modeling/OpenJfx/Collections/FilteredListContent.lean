import OpenJfx.Collections.FilteredList
import OpenJfx.Collections.SortHelperSpec
import OpenJfx.Lib.Positions

/-! # The content of a `FilteredList`

A filtered list is compared with a list of flags, one for each element of the
source: `filtered` holds the positions of the flags that are set.  Every handler
does to the flags what the sub-change does to the source, with the predicate
tested on what is added or updated.  Whether the change builder accepts the
reports plays no role here, so all statements are about calls that return. -/
set_option autoImplicit false
namespace OpenJfx.Collections
open OpenJfx.Lib

namespace FilteredList
variable {E : Type}

structure Shows (flags : List Bool) (s : FilteredList E) : Prop where
  filtered : s.filtered = positions 0 flags
  fits : s.filtered.length ≤ s.capacity

theorem findPosition_split {front back : List Bool} {s : FilteredList E} {p : Int}
    (h : Shows (front ++ back) s) (hp : p = front.length) :
    s.findPosition p = (positions 0 front).length := by
  have hfiltered := h.filtered
  rw [positions_append] at hfiltered
  have hfits := h.fits
  rw [findPosition]
  split
  · rename_i hzero
    rw [hfiltered, List.length_append] at hfits
    omega
  · split
    · rename_i hp0
      have hnil : front = [] := List.eq_nil_of_length_eq_zero (by omega)
      rw [hnil]
      rfl
    · rw [hfiltered]
      apply insertionPoint_search
      · rw [← positions_append]
        exact positions_increasing _ _
      · intro i hi
        have := positions_bounds hi
        omega
      · intro i hi
        have := positions_bounds hi
        omega

theorem report_ends (call : ListChangeBuilder E → Outcome Exn (ListChangeBuilder E)) (s : FilteredList E) :
    Outcome.Ends True (fun t => t.filtered = s.filtered ∧ t.capacity = s.capacity) (report call s) := by
  rw [report]
  apply Outcome.Ends.map
  cases call s.builder with
  | done b => exact ⟨rfl, rfl⟩
  | thrown x b => trivial

theorem ensureSize_shows {flags : List Bool} {s : FilteredList E} (h : Shows flags s) (n : Nat) :
    Shows flags (s.ensureSize n) := by
  rw [ensureSize]
  split
  · refine ⟨h.filtered, ?_⟩
    have := h.fits
    dsimp only
    omega
  · exact h

/-! ## Permutations -/

theorem permutate_parts {flags : List Bool} {c : SubChange E} {s : FilteredList E} (h : Shows flags s)
    (hc : c.wasPermutated = true) (valid : c.ValidPermutation flags.length) :
    ∃ front mid back : List Bool, flags = front ++ (mid ++ back) ∧ c.fromIdx = front.length ∧
      c.perm.length = mid.length ∧
      s.filtered = positions 0 front ++ (positions c.fromIdx mid ++ positions (c.fromIdx + mid.length) back) ∧
      s.findPosition c.fromIdx = (positions 0 front).length ∧
      s.findPosition c.toIdx = (positions 0 front).length + (positions c.fromIdx mid).length ∧
      (positions c.fromIdx mid ≠ [] → ∃ ys r,
        SortHelper.sortInts (positions 0 front ++ ((positions c.fromIdx mid).map (rangeMap c.fromIdx c.perm) ++
            positions (c.fromIdx + mid.length) back)) (positions 0 front).length
          ((positions 0 front).length + (positions c.fromIdx mid).length : Nat) =
          .ok (positions 0 front ++ (ys ++ positions (c.fromIdx + mid.length) back), r) ∧
        ys.Perm ((positions c.fromIdx mid).map (rangeMap c.fromIdx c.perm)) ∧ compareInts.Sorted ys ∧
        permutate c s = report (ListChangeBuilder.nextPermutation (positions 0 front).length
          ((positions 0 front).length + (positions c.fromIdx mid).length : Nat) r s.size)
            { s with filtered := positions 0 front ++ (ys ++ positions (c.fromIdx + mid.length) back) }) ∧
      (positions c.fromIdx mid = [] → permutate c s = .done s) := by
  obtain ⟨h0, hn, hto, hperm⟩ := valid
  obtain ⟨lo, hlo⟩ : ∃ lo : Nat, c.fromIdx = lo := ⟨c.fromIdx.toNat, by omega⟩
  obtain ⟨front, mid, back, rfl, hfront, hmid⟩ :=
    @SortHelper.exists_part _ flags lo c.perm.length (by omega)
  have hstart := @findPosition_split E front (mid ++ back) s c.fromIdx h (by omega)
  have hstop := @findPosition_split E (front ++ mid) back s c.toIdx (by rw [List.append_assoc]; exact h) (by
    rw [List.length_append]
    omega)
  have hfiltered := h.filtered
  rw [positions_append, positions_append, Int.zero_add, show (front.length : Int) = c.fromIdx by omega] at hfiltered
  rw [positions_append, List.length_append, Int.zero_add, show (front.length : Int) = c.fromIdx by omega] at hstop
  refine ⟨front, mid, back, rfl, by omega, by omega, hfiltered, hstart, hstop, ?_, ?_⟩
  · intro hne
    have hlt : (positions 0 front).length + (positions c.fromIdx mid).length > (positions 0 front).length := by
      have := List.length_pos_of_ne_nil hne
      omega
    have hpart : (s.filtered.take ((positions 0 front).length + (positions c.fromIdx mid).length)).drop
        (positions 0 front).length = positions c.fromIdx mid := by
      rw [hfiltered, ← List.append_assoc, List.take_left' (by rw [List.length_append]), List.drop_left' rfl]
    have hbefore : s.filtered.take (positions 0 front).length = positions 0 front := by
      rw [hfiltered, List.take_left' rfl]
    have hbehind : s.filtered.drop ((positions 0 front).length + (positions c.fromIdx mid).length) =
        positions (c.fromIdx + mid.length) back := by
      rw [hfiltered, ← List.append_assoc, List.drop_left' (by rw [List.length_append])]
    have hmap : (positions c.fromIdx mid).mapM c.getPermutation =
        .ok ((positions c.fromIdx mid).map (rangeMap c.fromIdx c.perm)) := by
      apply mapM_ok
      intro i hi
      have := positions_bounds hi
      rw [SubChange.getPermutation, if_pos hc]
      exact readAt_rangeMap this.1 (by omega)
    obtain ⟨ys, r, hsort, hys, hsorted, -⟩ := SortHelper.sort_spec compareInts (positions 0 front)
      ((positions c.fromIdx mid).map (rangeMap c.fromIdx c.perm)) (positions (c.fromIdx + mid.length) back)
    rw [List.length_map, ← SortHelper.sortInts, ← Nat.cast_add] at hsort
    refine ⟨ys, r, hsort, hys, hsorted, ?_⟩
    rw [permutate, hstart, hstop, if_pos hlt, hpart, hbefore, hbehind, hmap]
    dsimp only
    rw [hsort]
  · intro hnil
    rw [permutate, hstart, hstop, if_neg (by
      rw [hnil, List.length_nil]
      omega)]

theorem permutate_shows {flags : List Bool} {c : SubChange E} {s : FilteredList E} (h : Shows flags s)
    (hc : c.wasPermutated = true) (valid : c.ValidPermutation flags.length) :
    Outcome.Ends True (Shows (permuteRange c.fromIdx c.perm flags)) (permutate c s) := by
  obtain ⟨front, mid, back, rfl, hfront, hmid, hfiltered, -, -, hsome, hnone⟩ := permutate_parts h hc valid
  -- the new content in terms of the moved positions
  have result : ∀ ys : List Int, ys.Perm ((positions c.fromIdx mid).map (rangeMap c.fromIdx c.perm)) →
      compareInts.Sorted ys → Shows (permuteRange c.fromIdx c.perm (front ++ (mid ++ back)))
        { s with filtered := positions 0 front ++ (ys ++ positions (c.fromIdx + mid.length) back) } := by
    intro ys hys sorted
    refine ⟨positions_permuted hfront hmid valid.2.2.2 hys sorted, ?_⟩
    have hfits := h.fits
    have hlen := hys.length_eq
    rw [List.length_map] at hlen
    rw [hfiltered] at hfits
    simp only [List.length_append] at hfits ⊢
    omega
  by_cases hnil : positions c.fromIdx mid = []
  · rw [hnone hnil]
    have hresult := result [] (by rw [hnil]; exact List.Perm.refl _) List.Pairwise.nil
    rw [List.nil_append, ← List.nil_append (positions (c.fromIdx + mid.length) back), ← hnil, ← hfiltered] at hresult
    exact hresult
  · obtain ⟨ys, r, -, hys, hsorted, heq⟩ := hsome hnil
    rw [heq]
    apply (report_ends _ _).mono
    rintro t ⟨hft, hct⟩
    have hresult := result ys hys hsorted
    refine ⟨hft.trans hresult.filtered, ?_⟩
    rw [hft, hct]
    exact hresult.fits

/-! ## Additions and removals -/

theorem reportRemoved_ends (c : SubChange E) (start : Nat) (indexes : List Int) (s : FilteredList E) :
    Outcome.Ends True (fun t => t.filtered = s.filtered ∧ t.capacity = s.capacity)
      (reportRemoved c start indexes s) := by
  rw [reportRemoved]
  apply Outcome.Ends.run ?_ ⟨rfl, rfl⟩
  intro i _ t ht
  split
  · apply (report_ends _ t).mono
    rintro u ⟨h1, h2⟩
    exact ⟨h1.trans ht.1, h2.trans ht.2⟩
  · trivial

/-- What the first loop has done when it stops: it has tested `used` of what is
to be added, and the slots `junk` are not reused. -/
def Replaced (pred : E → Bool) (stop : Nat) (behind before : List Int) (todo : List E) (k k' : Cursor E) : Prop :=
  k'.list.capacity = k.list.capacity ∧ ∃ used left junk,
    todo = used ++ left ∧ k'.next = k.next + used.length ∧
    k'.list.filtered = before ++ (positions k.next (used.map pred) ++ (junk ++ behind)) ∧
    k'.fpos = before.length + (positions k.next (used.map pred)).length ∧
    stop = k'.fpos + junk.length ∧ (left = [] ∨ junk = [])

theorem replaceLoop_finished {pred : E → Bool} {stop : Nat} {toIdx : Int} {behind : List Int} {todo : List E}
    {k : Cursor E} {before junk : List Int} (rest : List E)
    (hfiltered : k.list.filtered = before ++ (junk ++ behind)) (hfpos : k.fpos = before.length)
    (hstop : stop = before.length + junk.length) (hnext : toIdx = k.next + todo.length)
    (hend : todo = [] ∨ junk = []) :
    Outcome.Ends True (Replaced pred stop behind before todo k) (replaceLoop pred stop toIdx rest k) := by
  have hno : ¬ (k.fpos < stop ∧ k.next < toIdx) := by
    rintro ⟨h1, h2⟩
    rcases hend with rfl | rfl
    · rw [List.length_nil] at hnext
      omega
    · rw [List.length_nil] at hstop
      omega
  have hdone : replaceLoop pred stop toIdx rest k = .done k := by
    cases rest with
    | nil => rw [replaceLoop, if_neg hno]
    | cons x rest => rw [replaceLoop, if_neg hno]
  rw [hdone]
  exact ⟨rfl, [], todo, junk, rfl, by simp, hfiltered, by simp [positions, hfpos], by omega, hend⟩

theorem replaceLoop_ends {pred : E → Bool} {stop : Nat} {toIdx : Int} {back : List E} {behind : List Int}
    (todo : List E) {k : Cursor E} {before junk : List Int}
    (hfiltered : k.list.filtered = before ++ (junk ++ behind)) (hfpos : k.fpos = before.length)
    (hstop : stop = before.length + junk.length) (hnext : toIdx = k.next + todo.length) :
    Outcome.Ends True (Replaced pred stop behind before todo k)
      (replaceLoop pred stop toIdx (todo ++ back) k) := by
  induction todo generalizing k before junk with
  | nil => exact replaceLoop_finished _ hfiltered hfpos hstop hnext (Or.inl rfl)
  | cons x todo ih =>
    cases junk with
    | nil => exact replaceLoop_finished _ hfiltered hfpos hstop hnext (Or.inr rfl)
    | cons j junk =>
      have hnext' : toIdx = (k.next + 1) + todo.length := by
        rw [List.length_cons] at hnext
        omega
      rw [List.cons_append, replaceLoop, if_pos (by
        rw [List.length_cons] at hstop hnext
        omega)]
      split
      · rename_i hx
        apply Outcome.Ends.bind
        apply Outcome.Ends.map
        apply (report_ends _ _).mono
        rintro t ⟨hft, hct⟩
        have hset : t.filtered = (before ++ [k.next]) ++ (junk ++ behind) := by
          rw [hft]
          dsimp only
          rw [hfiltered, hfpos, List.set_append_right _ _ le_rfl, Nat.sub_self, List.cons_append,
            List.set_cons_zero, List.append_assoc, List.singleton_append]
        have hstop' : stop = (before ++ [k.next]).length + junk.length := by
          rw [List.length_cons] at hstop
          rw [List.length_append, List.length_singleton]
          omega
        have hfpos' : k.fpos + 1 = (before ++ [k.next]).length := by
          rw [List.length_append, List.length_singleton]
          omega
        apply (@ih ⟨t, k.fpos + 1, k.next + 1⟩ (before ++ [k.next]) junk hset hfpos' hstop' hnext').mono
        rintro k' ⟨hcap, used, left, junk', htodo, hn, hfil, hfp, hst, hend⟩
        have hpos : positions k.next ((x :: used).map pred) =
            k.next :: positions (k.next + 1) (used.map pred) := by
          rw [List.map_cons, positions, if_pos hx]
        refine ⟨hcap.trans hct, x :: used, left, junk', by rw [htodo, List.cons_append], ?_, ?_, ?_, hst, hend⟩
        · rw [hn, List.length_cons]
          dsimp only
          omega
        · rw [hfil, hpos, List.append_assoc, List.singleton_append, List.cons_append]
        · rw [hfp, hpos, List.length_append, List.length_singleton, List.length_cons]
          dsimp only
          omega
      · rename_i hx
        apply (@ih { k with next := k.next + 1 } before (j :: junk) hfiltered hfpos hstop hnext').mono
        rintro k' ⟨hcap, used, left, junk', htodo, hn, hfil, hfp, hst, hend⟩
        have hpos : positions k.next ((x :: used).map pred) = positions (k.next + 1) (used.map pred) := by
          rw [List.map_cons, positions, if_neg hx]
        refine ⟨hcap, x :: used, left, junk', by rw [htodo, List.cons_append], ?_, ?_, ?_, hst, hend⟩
        · rw [hn, List.length_cons]
          dsimp only
          omega
        · rw [hfil, hpos]
        · rw [hfp, hpos]

theorem insertLoop_ends {pred : E → Bool} {toIdx : Int} {back : List E} {behind : List Int}
    (todo : List E) {k : Cursor E} {before : List Int}
    (hfiltered : k.list.filtered = before ++ behind) (hfpos : k.fpos = before.length)
    (hnext : toIdx = k.next + todo.length) (hfits : k.list.filtered.length ≤ k.list.capacity) :
    Outcome.Ends True (fun k' => k'.list.filtered.length ≤ k'.list.capacity ∧
        k'.list.filtered = before ++ (positions k.next (todo.map pred) ++ behind))
      (insertLoop pred toIdx (todo ++ back) k) := by
  induction todo generalizing k before with
  | nil =>
    have hno : ¬ k.next < toIdx := by
      rw [List.length_nil] at hnext
      omega
    have hdone : insertLoop pred toIdx ([] ++ back) k = .done k := by
      cases back with
      | nil => rw [List.nil_append, insertLoop, if_neg hno]
      | cons x back => rw [List.nil_append, insertLoop, if_neg hno]
    rw [hdone]
    exact ⟨hfits, hfiltered⟩
  | cons x todo ih =>
    have hnext' : toIdx = (k.next + 1) + todo.length := by
      rw [List.length_cons] at hnext
      omega
    rw [List.cons_append, insertLoop, if_pos (by
      rw [List.length_cons] at hnext
      omega)]
    split
    · rename_i hx
      split
      · trivial
      · rename_i hroom
        apply Outcome.Ends.bind
        apply Outcome.Ends.map
        apply (report_ends _ _).mono
        rintro t ⟨hft, hct⟩
        have hset : t.filtered = (before ++ [k.next]) ++ behind := by
          rw [hft]
          dsimp only
          rw [hfiltered, hfpos, insertIdx_split rfl, List.append_assoc, List.singleton_append]
        have hfits' : t.filtered.length ≤ t.capacity := by
          rw [hset, hct]
          rw [size, hfiltered, List.length_append] at hroom
          rw [List.length_append, List.length_append, List.length_singleton]
          dsimp only
          omega
        have hfpos' : k.fpos + 1 = (before ++ [k.next]).length := by
          rw [List.length_append, List.length_singleton]
          omega
        apply (@ih ⟨t, k.fpos + 1, k.next + 1⟩ (before ++ [k.next]) hset hfpos' hnext' hfits').mono
        rintro k' ⟨hfit, hfil⟩
        refine ⟨hfit, ?_⟩
        rw [hfil, List.map_cons, positions, if_pos hx, List.append_assoc, List.singleton_append, List.cons_append]
    · rename_i hx
      apply (@ih { k with next := k.next + 1 } before hfiltered hfpos hnext' hfits).mono
      rintro k' ⟨hfit, hfil⟩
      refine ⟨hfit, ?_⟩
      rw [hfil, List.map_cons, positions, if_neg hx]

@[simp] theorem ensureSize_builder (n : Nat) (s : FilteredList E) : (s.ensureSize n).builder = s.builder := by
  rw [ensureSize]
  split
  · rfl
  · rfl

/-- The number of slots in front of the indices that `addRemove` shifts. -/
def keptAndGone (flags₁ gone : List Bool) (lo : Int) : Nat := (positions 0 flags₁).length + (positions lo gone).length

theorem addRemove_parts {flags₁ gone flags₂ : List Bool} {front added back : List E} {c : SubChange E}
    {s : FilteredList E} (pred : E → Bool) (h : Shows (flags₁ ++ (gone ++ flags₂)) s)
    (hfront : front.length = flags₁.length) (hfrom : c.fromIdx = flags₁.length)
    (hgone : c.getRemovedSize = gone.length) :
    addRemove (front ++ (added ++ back)) pred c s =
      (reportRemoved c (positions 0 flags₁).length (positions c.fromIdx gone)
        (s.ensureSize (front ++ (added ++ back)).length)).bind fun t =>
        ((replaceLoop pred (keptAndGone flags₁ gone c.fromIdx) c.toIdx (added ++ back)
          ⟨t.updateIndexes (keptAndGone flags₁ gone c.fromIdx) (c.getAddedSize - c.getRemovedSize),
            (positions 0 flags₁).length, c.fromIdx⟩).bind fun k =>
          if k.fpos < keptAndGone flags₁ gone c.fromIdx then
            .done { k with list := { k.list with
              filtered := k.list.filtered.take k.fpos ++ k.list.filtered.drop (keptAndGone flags₁ gone c.fromIdx) } }
          else insertLoop pred c.toIdx ((front ++ (added ++ back)).drop k.next.toNat) k).map Cursor.list := by
  have hshows := ensureSize_shows h (front ++ (added ++ back)).length
  have hstart := @findPosition_split E flags₁ (gone ++ flags₂) _ c.fromIdx hshows hfrom
  have hstop := @findPosition_split E (flags₁ ++ gone) flags₂ _ (c.fromIdx + c.getRemovedSize) (by
    rw [List.append_assoc]
    exact hshows) (by
    rw [List.length_append]
    omega)
  have hslots : (positions 0 (flags₁ ++ gone)).length = keptAndGone flags₁ gone c.fromIdx := by
    rw [positions_append, List.length_append, Int.zero_add, ← hfrom, keptAndGone]
  rw [hslots] at hstop
  have hpart : ((s.ensureSize (front ++ (added ++ back)).length).filtered.take (keptAndGone flags₁ gone c.fromIdx)).drop
      (positions 0 flags₁).length = positions c.fromIdx gone := by
    rw [hshows.filtered, positions_append, positions_append, Int.zero_add, ← hfrom, keptAndGone, ← List.append_assoc,
      List.take_left' (by rw [List.length_append]), List.drop_left' rfl]
  have hsource : (front ++ (added ++ back)).drop c.fromIdx.toNat = added ++ back := by
    rw [List.drop_left' (by omega)]
  have hinside : ¬ (c.fromIdx < 0 ∨ c.fromIdx > (front ++ (added ++ back)).length) := by
    simp only [List.length_append]
    omega
  rw [addRemove]
  dsimp only
  rw [hstart, hstop, hpart, hsource]
  simp only [if_neg hinside]

theorem updateIndexes_shows {flags₁ gone flags₂ : List Bool} {added : List E} {c : SubChange E} {s t : FilteredList E}
    (h : Shows (flags₁ ++ (gone ++ flags₂)) s) (hc : c.Plain) (hfrom : c.fromIdx = flags₁.length)
    (hgone : c.getRemovedSize = gone.length) (hto : c.toIdx = c.fromIdx + added.length) (ht : t.filtered = s.filtered) :
    (t.updateIndexes (keptAndGone flags₁ gone c.fromIdx) (c.getAddedSize - c.getRemovedSize)).filtered =
      positions 0 flags₁ ++ (positions c.fromIdx gone ++ positions (c.fromIdx + added.length) flags₂) := by
  have hadded : c.getAddedSize = added.length := by
    obtain ⟨hperm, hupdated⟩ := SourceChange.plain_accessors hc
    rw [SubChange.getAddedSize, SubChange.wasAdded, hperm, hupdated]
    split
    · omega
    · rename_i hno
      simp at hno
      omega
  have hfiltered := h.filtered
  rw [positions_append, positions_append, Int.zero_add, ← hfrom] at hfiltered
  rw [updateIndexes]
  dsimp only
  rw [ht, hfiltered, keptAndGone, ← List.append_assoc, List.take_left' (by rw [List.length_append]),
    List.drop_left' (by rw [List.length_append]), positions_shift, List.append_assoc]
  congr 3
  omega

theorem addRemove_shows {flags₁ gone flags₂ : List Bool} {front added back : List E} {pred : E → Bool}
    {c : SubChange E} {s : FilteredList E} (h : Shows (flags₁ ++ (gone ++ flags₂)) s) (hc : c.Plain)
    (hfront : front.length = flags₁.length) (hfrom : c.fromIdx = flags₁.length)
    (hgone : c.getRemovedSize = gone.length) (hto : c.toIdx = c.fromIdx + added.length) :
    Outcome.Ends True (Shows (flags₁ ++ (added.map pred ++ flags₂)))
      (addRemove (front ++ (added ++ back)) pred c s) := by
  have hshows := ensureSize_shows h (front ++ (added ++ back)).length
  rw [addRemove_parts pred h hfront hfrom hgone]
  generalize s.ensureSize (front ++ (added ++ back)).length = s at hshows
  apply Outcome.Ends.bind
  apply (reportRemoved_ends c _ _ s).mono
  rintro t ⟨hft, hct⟩
  apply Outcome.Ends.map
  apply Outcome.Ends.bind
  have hshifted := updateIndexes_shows hshows hc hfrom hgone hto hft
  have hfits := hshows.fits
  rw [hshows.filtered, positions_append, positions_append, Int.zero_add, ← hfrom] at hfits
  simp only [List.length_append] at hfits
  have hlen₂ : (positions (c.fromIdx + added.length) flags₂).length =
      (positions (c.fromIdx + gone.length) flags₂).length := by
    rw [show c.fromIdx + (added.length : Int) = c.fromIdx + gone.length + (added.length - gone.length) by omega,
      ← positions_shift, List.length_map]
  apply (replaceLoop_ends added hshifted rfl rfl hto).mono
  rintro k ⟨hcap, used, left, junk, rfl, hnext, hfil, hfpos, hstop', hend⟩
  have hcap' : k.list.capacity = s.capacity := hcap.trans hct
  have hslots : keptAndGone flags₁ gone c.fromIdx = (positions 0 flags₁).length + (positions c.fromIdx gone).length := rfl
  dsimp only at hnext hfil hfpos
  split
  · rename_i hlt
    have hleft : left = [] := by
      rcases hend with hend | rfl
      · exact hend
      · rw [List.length_nil] at hstop'
        omega
    subst hleft
    rw [List.append_nil] at hfil ⊢
    have hkept : k.list.filtered.take k.fpos ++ k.list.filtered.drop (keptAndGone flags₁ gone c.fromIdx) =
        positions 0 (flags₁ ++ (used.map pred ++ flags₂)) := by
      rw [positions_append, positions_append, Int.zero_add, ← hfrom, List.length_map, hfil, hfpos,
        ← List.append_assoc, List.take_left' (by rw [List.length_append]), ← List.append_assoc,
        List.drop_left' (by
          simp only [List.length_append]
          omega), List.append_assoc]
    refine ⟨hkept, ?_⟩
    rw [hkept, positions_append, positions_append, Int.zero_add, ← hfrom, List.length_map]
    rw [List.append_nil] at hlen₂
    simp only [List.length_append]
    omega
  · rename_i hge
    have hjunk : junk = [] := List.eq_nil_of_length_eq_zero (by omega)
    subst hjunk
    have hrest : (front ++ ((used ++ left) ++ back)).drop k.next.toNat = left ++ back := by
      rw [← List.append_assoc, ← List.append_assoc, List.append_assoc, List.drop_left' (by
        rw [List.length_append]
        omega)]
    rw [List.nil_append, ← List.append_assoc] at hfil
    rw [hrest]
    have hfits' : k.list.filtered.length ≤ k.list.capacity := by
      rw [List.length_nil] at hstop'
      rw [hfil, hcap', List.length_append, List.length_append]
      omega
    rw [List.length_append] at hto
    apply (insertLoop_ends left hfil (by
      rw [List.length_append]
      exact hfpos) (by omega) hfits').mono
    rintro k' ⟨hfit, hfil'⟩
    refine ⟨?_, hfit⟩
    rw [hfil', hnext, positions_append, positions_append, List.length_map, List.map_append, positions_append,
      Int.zero_add, ← hfrom, List.length_map]
    simp only [List.append_assoc]

/-! ## Updates -/

theorem updateStep_ends {pred : E → Bool} {el : E} {flag : Bool} {flags : List Bool} {k : UpdateCursor E}
    {before : List Int} (hfiltered : k.list.filtered = before ++ positions k.index (flag :: flags))
    (hpos : k.pos = before.length) (hfits : k.list.filtered.length ≤ k.list.capacity) :
    Outcome.Ends True (fun k' => k'.list.filtered.length ≤ k'.list.capacity ∧ k'.index = k.index + 1 ∧
        k'.list.filtered = (before ++ positions k.index [pred el]) ++ positions (k.index + 1) flags ∧
        k'.pos = (before ++ positions k.index [pred el]).length ∧
        k'.filterTo - k'.pos = k.filterTo - k.pos - (positions k.index [flag]).length)
      (updateStep pred el k) := by
  have hbehind : ∀ j ∈ positions (k.index + 1) flags, k.index < j := by
    intro j hj
    have := positions_bounds hj
    omega
  rw [updateStep]
  cases flag with
  | true =>
    rw [positions, if_pos rfl] at hfiltered
    have hget : k.list.filtered[k.pos]? = some k.index := by
      rw [hfiltered, hpos, List.getElem?_append_right le_rfl, Nat.sub_self, List.getElem?_cons_zero]
    rw [if_pos hget]
    cases hel : pred el with
    | false =>
      apply Outcome.Ends.map
      apply (report_ends _ k.list).mono
      rintro t ⟨hft, hct⟩
      have herased : t.filtered.eraseIdx k.pos = before ++ positions (k.index + 1) flags := by
        rw [hft, hfiltered, hpos, List.eraseIdx_append_of_length_le le_rfl, Nat.sub_self, List.eraseIdx_cons_zero]
      have hno : positions k.index [false] = [] := rfl
      rw [hno, List.append_nil]
      refine ⟨?_, rfl, herased, hpos, ?_⟩
      · rw [herased, hct]
        rw [hfiltered, List.length_append, List.length_cons] at hfits
        rw [List.length_append]
        omega
      · change k.filterTo - 1 - k.pos = k.filterTo - k.pos - 1
        omega
    | true =>
      apply Outcome.Ends.map
      apply (report_ends _ k.list).mono
      rintro t ⟨hft, hct⟩
      have hone : positions k.index [true] = [k.index] := rfl
      rw [hone, List.append_assoc, List.singleton_append, List.length_append, List.length_singleton]
      refine ⟨?_, rfl, hft.trans hfiltered, by rw [hpos], ?_⟩
      · rw [hft, hct]
        exact hfits
      · push_cast
        omega
  | false =>
    rw [positions, if_neg (by decide)] at hfiltered
    have hget : ¬ k.list.filtered[k.pos]? = some k.index := by
      intro hget
      rw [hfiltered, hpos, List.getElem?_append_right le_rfl] at hget
      have := hbehind _ (List.mem_of_getElem? hget)
      omega
    have hnone : positions k.index [false] = [] := rfl
    rw [if_neg hget, hnone]
    split
    · rename_i hel
      have hone : positions k.index [true] = [k.index] := rfl
      rw [hel, hone]
      apply Outcome.Ends.bind
      apply Outcome.Ends.map
      apply (report_ends _ k.list).mono
      rintro t ⟨hft, hct⟩
      split
      · trivial
      · rename_i hroom
        have hinserted : t.filtered.insertIdx k.pos k.index =
            (before ++ [k.index]) ++ positions (k.index + 1) flags := by
          rw [hft, hfiltered, insertIdx_split hpos, List.append_assoc, List.singleton_append]
        refine ⟨?_, rfl, hinserted, ?_, ?_⟩
        · rw [hinserted]
          rw [size, hft, hfiltered, List.length_append] at hroom
          rw [List.length_append, List.length_append, List.length_singleton]
          dsimp only at hroom ⊢
          omega
        · rw [List.length_append, List.length_singleton]
          dsimp only
          omega
        · rw [List.length_nil]
          push_cast
          omega
    · rename_i hel
      rw [Bool.eq_false_of_not_eq_true hel, hnone, List.append_nil]
      refine ⟨hfits, rfl, hfiltered, hpos, ?_⟩
      rw [List.length_nil]
      dsimp only
      omega

theorem updateLoop_ends {pred : E → Bool} {sourceTo : Int} {back : List E} {flags₂ : List Bool}
    (todo : List E) {flags : List Bool} {k : UpdateCursor E} {before : List Int}
    (hlen : todo.length = flags.length) (hto : sourceTo = k.index + todo.length)
    (hfiltered : k.list.filtered = before ++ positions k.index (flags ++ flags₂)) (hpos : k.pos = before.length)
    (hfilterTo : k.filterTo = k.pos + (positions k.index flags).length)
    (hfits : k.list.filtered.length ≤ k.list.capacity) :
    Outcome.Ends True (fun k' => k'.list.filtered.length ≤ k'.list.capacity ∧
        k'.list.filtered = before ++ positions k.index (todo.map pred ++ flags₂))
      (updateLoop pred sourceTo (todo ++ back) k) := by
  induction todo generalizing flags k before with
  | nil =>
    have hnil : flags = [] := List.eq_nil_of_length_eq_zero hlen.symm
    subst hnil
    have hno : ¬ (k.pos < k.filterTo ∨ k.index < sourceTo) := by
      rw [positions, List.length_nil] at hfilterTo
      rw [List.length_nil] at hto
      omega
    have hdone : updateLoop pred sourceTo ([] ++ back) k = .done k := by
      cases back with
      | nil => rw [List.nil_append, updateLoop, if_neg hno]
      | cons x back => rw [List.nil_append, updateLoop, if_neg hno]
    rw [hdone]
    exact ⟨hfits, hfiltered⟩
  | cons el todo ih =>
    cases flags with
    | nil => cases hlen
    | cons flag flags =>
      rw [List.length_cons] at hto
      rw [List.cons_append, updateLoop, if_pos (by omega)]
      apply Outcome.Ends.bind
      apply (updateStep_ends hfiltered hpos hfits).mono
      rintro k' ⟨hfits', hindex, hfiltered', hpos', hdiff⟩
      rw [← hindex] at hfiltered'
      rw [positions_cons, List.length_append, ← hindex] at hfilterTo
      apply (ih (Nat.succ.inj hlen) (by omega) hfiltered' hpos' (by omega) hfits').mono
      rintro k'' ⟨hfits'', hfil⟩
      refine ⟨hfits'', ?_⟩
      rw [hfil, List.map_cons, List.cons_append, positions_cons k.index _ (todo.map pred ++ flags₂), hindex,
        List.append_assoc]

theorem update_shows {flags₁ flags flags₂ : List Bool} {front part back : List E} {pred : E → Bool}
    {c : SubChange E} {s : FilteredList E} (h : Shows (flags₁ ++ (flags ++ flags₂)) s)
    (hfront : front.length = flags₁.length) (hpart : part.length = flags.length)
    (hfrom : c.fromIdx = flags₁.length) (hto : c.toIdx = c.fromIdx + flags.length) :
    Outcome.Ends True (Shows (flags₁ ++ (part.map pred ++ flags₂)))
      (update (front ++ (part ++ back)) pred c s) := by
  have hshows := ensureSize_shows h (front ++ (part ++ back)).length
  rw [update]
  generalize s.ensureSize (front ++ (part ++ back)).length = s at hshows
  have hstart := @findPosition_split E flags₁ (flags ++ flags₂) s c.fromIdx hshows hfrom
  have hstop := @findPosition_split E (flags₁ ++ flags) flags₂ s c.toIdx (by
    rw [List.append_assoc]
    exact hshows) (by
    rw [List.length_append]
    omega)
  rw [positions_append, List.length_append, Int.zero_add, ← hfrom] at hstop
  have hfiltered := hshows.filtered
  rw [positions_append, Int.zero_add, ← hfrom] at hfiltered
  have hsource : (front ++ (part ++ back)).drop c.fromIdx.toNat = part ++ back := by
    rw [List.drop_left' (by omega)]
  rw [hstart, hstop, if_neg (by
    simp only [List.length_append]
    omega), hsource]
  apply Outcome.Ends.map
  apply (@updateLoop_ends E pred c.toIdx back flags₂ part flags _ (positions 0 flags₁) hpart
    (by dsimp only; omega) hfiltered rfl (by push_cast; rfl) hshows.fits).mono
  rintro k ⟨hfits, hfil⟩
  refine ⟨?_, hfits⟩
  rw [hfil, positions_append 0, Int.zero_add, ← hfrom]

/-! ## Whole changes -/

/-- The flag at place `i` comes from the predicate `pred`, or from its earlier
answers `pred₀` as long as none of `done` reported the place. -/
def Tested (pred₀ pred : E → Bool) (done : List (SubChange E)) (xs : List E) (flags : List Bool) : Prop :=
  flags.length = xs.length ∧ ∀ (i : Nat) (x : E), xs[i]? = some x → flags[i]? = some (pred x) ∨
    (flags[i]? = some (pred₀ x) ∧ ∀ c ∈ done, ¬ (c.fromIdx ≤ i ∧ i < c.toIdx))

theorem edits_tested {pred₀ pred : E → Bool} {c : SourceChange E} {mid new : List E} {s : FilteredList E}
    (plain : ∀ e ∈ c.edits, e.Plain) (turns : Turns 0 (c.edits.map SubChange.edit) mid new)
    (h : Shows (mid.map pred₀) s) :
    Outcome.Ends True (fun t => ∃ flags, Tested pred₀ pred c.edits new flags ∧ Shows flags t)
      (Outcome.run (handle new pred) c.edits s) := by
  -- the final elements in front of the current sub-change are tested, those behind it keep their flags
  have hstep := @SourceChange.edits_end E (FilteredList E) True (handle new pred)
    (fun front rest t => ∃ flags, Tested pred₀ pred c.edits front flags ∧ Shows (flags ++ rest.map pred₀) t)
    c.edits mid new ?_ turns s ⟨[], ⟨rfl, by simp⟩, h⟩
  · apply hstep.mono
    rintro t ⟨front, rest, rfl, ⟨flags, ⟨hlen, hflags⟩, hshows⟩, hbefore⟩
    refine ⟨flags ++ rest.map pred₀, ⟨by simp [hlen], ?_⟩, hshows⟩
    intro i x hx
    rcases Nat.lt_or_ge i front.length with hi | hi
    · rw [List.getElem?_append_left (by omega)]
      rw [List.getElem?_append_left hi] at hx
      exact hflags i x hx
    · rw [List.getElem?_append_right (by omega), hlen, List.getElem?_map]
      rw [List.getElem?_append_right hi] at hx
      rw [hx]
      refine Or.inr ⟨rfl, ?_⟩
      intro e he
      have := hbefore e he
      omega
  · rintro e he front kept added rest back t hnew hfrom hto hclear ⟨flags, ⟨hlen, hflags⟩, hshows⟩
    obtain ⟨hperm, hupdated⟩ := SourceChange.plain_accessors (plain e he)
    rw [handle, hperm, hupdated, hnew, if_neg (by decide), if_neg (by decide)]
    rw [List.map_append, List.map_append, ← List.append_assoc] at hshows
    have hadd := @addRemove_shows E (flags ++ kept.map pred₀) (e.getRemoved.map pred₀) (rest.map pred₀)
      (front ++ kept) added back pred e t hshows (plain e he) (by simp [hlen]) (by simp [hlen, hfrom])
      (by rw [SubChange.getRemovedSize, List.length_map]) hto
    rw [List.append_assoc front] at hadd
    apply hadd.mono
    intro t ht
    refine ⟨flags ++ (kept.map pred₀ ++ added.map pred), ⟨by simp [hlen], ?_⟩, ?_⟩
    · intro i x hx
      rcases Nat.lt_or_ge i front.length with hi | hi
      · rw [List.getElem?_append_left (by omega)]
        rw [List.getElem?_append_left hi] at hx
        exact hflags i x hx
      · rw [List.getElem?_append_right (by omega), hlen]
        rw [List.getElem?_append_right hi] at hx
        rcases Nat.lt_or_ge (i - front.length) kept.length with hk | hk
        · rw [List.getElem?_append_left (by rw [List.length_map]; omega), List.getElem?_map]
          rw [List.getElem?_append_left hk] at hx
          rw [hx]
          refine Or.inr ⟨rfl, ?_⟩
          intro d hd
          exact hclear d hd i (by omega) (by omega)
        · rw [List.getElem?_append_right (by rw [List.length_map]; omega), List.length_map, List.getElem?_map]
          rw [List.getElem?_append_right hk] at hx
          rw [hx]
          exact Or.inl rfl
    · rw [List.append_assoc, List.append_assoc]
      rw [List.append_assoc] at ht
      exact ht

theorem update_tested {pred₀ pred : E → Bool} {new : List E} {done : List (SubChange E)} {u : SubChange E}
    {s : FilteredList E} (hu : SourceChange.Updates new.length u)
    (h : ∃ flags, Tested pred₀ pred done new flags ∧ Shows flags s) :
    Outcome.Ends True (fun t => ∃ flags, Tested pred₀ pred (done ++ [u]) new flags ∧ Shows flags t)
      (handle new pred u s) := by
  obtain ⟨flags, ⟨hlen, hflags⟩, hshows⟩ := h
  obtain ⟨hperm, hupdated⟩ := SourceChange.updates_accessors hu
  obtain ⟨-, -, -, h0, hle, hn⟩ := hu
  obtain ⟨lo, hlo⟩ : ∃ lo : Nat, u.fromIdx = lo := ⟨u.fromIdx.toNat, by omega⟩
  obtain ⟨len, hto⟩ : ∃ len : Nat, u.toIdx = lo + len := ⟨(u.toIdx - u.fromIdx).toNat, by omega⟩
  obtain ⟨front, part, back, hnew, hfront, hpart⟩ := @SortHelper.exists_part _ new lo len (by omega)
  obtain ⟨flags₁, flagsPart, flags₂, rfl, hflags₁, hflagsPart⟩ :=
    @SortHelper.exists_part _ flags lo len (by omega)
  rw [handle, hperm, hupdated, if_neg (by decide), if_pos rfl, hnew]
  apply (update_shows hshows (by omega) (by omega) (by omega) (by omega)).mono
  intro t ht
  refine ⟨_, ⟨?_, ?_⟩, ht⟩
  · rw [← hnew, ← hlen]
    simp only [List.length_append, List.length_map]
    omega
  · intro i x hx
    have hold := hflags i x (by rw [hnew]; exact hx)
    rcases Nat.lt_or_ge i lo with hi | hi
    · rw [List.getElem?_append_left (by omega)] at hold ⊢
      apply hold.imp_right
      rintro ⟨hflag, hdone⟩
      refine ⟨hflag, ?_⟩
      intro c hc
      rcases List.mem_append.mp hc with hc | hc
      · exact hdone c hc
      · rw [List.mem_singleton.mp hc]
        omega
    · rw [List.getElem?_append_right (by omega)] at hold hx ⊢
      rw [hflags₁] at hold ⊢
      rw [hfront] at hx
      rcases Nat.lt_or_ge (i - lo) len with hi' | hi'
      · rw [List.getElem?_append_left (by omega)] at hx
        rw [List.getElem?_append_left (by rw [List.length_map]; omega), List.getElem?_map, hx]
        exact Or.inl rfl
      · rw [List.getElem?_append_right (by omega)] at hold
        rw [List.getElem?_append_right (by rw [List.length_map]; omega), List.length_map, hpart]
        rw [hflagsPart] at hold
        apply hold.imp_right
        rintro ⟨hflag, hdone⟩
        refine ⟨hflag, ?_⟩
        intro c hc
        rcases List.mem_append.mp hc with hc | hc
        · exact hdone c hc
        · rw [List.mem_singleton.mp hc]
          omega

theorem updates_tested {pred₀ pred : E → Bool} {new : List E} {us done : List (SubChange E)}
    {s : FilteredList E} (updates : ∀ u ∈ us, SourceChange.Updates new.length u)
    (h : ∃ flags, Tested pred₀ pred done new flags ∧ Shows flags s) :
    Outcome.Ends True (fun t => ∃ flags, Tested pred₀ pred (done ++ us) new flags ∧ Shows flags t)
      (Outcome.run (handle new pred) us s) := by
  induction us generalizing done s with
  | nil =>
    rw [List.append_nil]
    exact h
  | cons u us ih =>
    apply Outcome.Ends.bind
    apply (update_tested (updates u (by simp)) h).mono
    intro t ht
    have hrest := ih (fun v hv => updates v (by simp [hv])) ht
    rw [List.append_assoc] at hrest
    exact hrest

/-- The predicate has changed its answer only for elements that the change
reports as added or updated. -/
def Stable (pred₀ pred : E → Bool) (new : List E) (c : SourceChange E) : Prop :=
  ∀ (i : Nat) (x : E), new[i]? = some x →
    (∀ d ∈ c.edits ++ c.updates, ¬ (d.fromIdx ≤ i ∧ i < d.toIdx)) → pred₀ x = pred x

theorem sourceChanged_shows {pred₀ pred : E → Bool} {old new : List E} {c : SourceChange E} {s : FilteredList E}
    (legal : c.Legal old new) (stable : Stable pred₀ pred new c) (h : Shows (old.map pred₀) s) :
    Outcome.Ends True (Shows (new.map pred)) (sourceChanged new pred c.change s) := by
  obtain ⟨plain, updates, mid, hperms, hturns⟩ := legal
  have hbegin : Shows (old.map pred₀) { s with builder := s.builder.beginChange } := ⟨h.filtered, h.fits⟩
  rw [sourceChanged, SourceChange.change, Outcome.run_append]
  apply Outcome.Ends.bind
  apply Outcome.Ends.bind
  apply (@SourceChange.permutations_end E _ True (handle new pred) (fun cur => Shows (cur.map pred₀)) ?_
    _ _ _ hperms _ hbegin).mono
  · intro t ht
    rw [Outcome.run_append]
    apply Outcome.Ends.bind
    apply (edits_tested plain hturns ht).mono
    intro u hu
    apply (updates_tested updates hu).mono
    rintro v ⟨flags, ⟨hlen, hflags⟩, hshows⟩
    have heq : flags = new.map pred := by
      apply List.ext_getElem?
      intro i
      rw [List.getElem?_map]
      cases hx : new[i]? with
      | none =>
        rw [List.getElem?_eq_none_iff] at hx
        exact List.getElem?_eq_none (by omega)
      | some x =>
        rcases hflags i x hx with hflag | ⟨hflag, hunreported⟩
        · exact hflag
        · rw [hflag, stable i x hx hunreported]
          rfl
    rw [heq] at hshows
    apply (report_ends _ v).mono
    rintro w ⟨hfw, hcw⟩
    exact ⟨hfw.trans hshows.filtered, by rw [hfw, hcw]; exact hshows.fits⟩
  · intro p cur t hp hvalid ht
    rw [handle, if_pos hp, map_permuteRange]
    exact permutate_shows ht hp (by rw [List.length_map]; exact hvalid)

theorem refilterLoop_positions (pred : E → Bool) (i : Int) (source : List E) (filtered : List Int) :
    refilterLoop pred i source filtered = filtered ++ positions i (source.map pred) := by
  induction source generalizing i filtered with
  | nil =>
    rw [refilterLoop, List.map_nil, positions, List.append_nil]
  | cons x source ih =>
    rw [refilterLoop, ih, List.map_cons, positions]
    split
    · rw [List.append_assoc, List.singleton_append]
    · rfl

theorem refilter_shows (source : List E) (pred : E → Bool) (hasListeners : Bool) (s : FilteredList E) :
    Shows (source.map pred) (refilter source pred hasListeners s) := by
  have hfiltered : refilterLoop pred 0 source [] = positions 0 (source.map pred) := by
    rw [refilterLoop_positions, List.nil_append]
  refine ⟨hfiltered, ?_⟩
  have hle : (positions 0 (source.map pred)).length ≤ source.length := by
    rw [positions_map_length]
    exact List.countP_le_length
  rw [refilter]
  dsimp only
  rw [hfiltered, ensureSize]
  split
  · dsimp only
    omega
  · omega

/-! ## Runs -/

/-- A filtered list with its source and its current predicate. -/
structure System (E : Type) where
  source : List E
  pred : E → Bool
  list : FilteredList E

/-- What happens to a filtered list: its source reports a change, with the
answers that the predicate gives from now on, or another predicate is set. -/
inductive Event (E : Type) where
  | sourceChanged (new : List E) (pred : E → Bool) (change : SourceChange E)
  | setPredicate (pred : E → Bool) (hasListeners : Bool)

def Event.Proper : Event E → System E → Prop
  | .sourceChanged new pred change, s => change.Legal s.source new ∧ Stable s.pred pred new change
  | .setPredicate _ _, _ => True

def System.step : Event E → System E → Outcome Exn (System E)
  | .sourceChanged new pred change, s =>
      (sourceChanged new pred change.change s.list).map (fun list => ⟨new, pred, list⟩)
  | .setPredicate pred hasListeners, s =>
      .done ⟨s.source, pred, refilter s.source pred hasListeners s.list⟩

def System.start (source : List E) (pred : E → Bool) : System E := ⟨source, pred, create source pred⟩

theorem System.run_shows {source : List E} {pred : E → Bool} {events : List (Event E)} {t : System E}
    (proper : Outcome.Along Event.Proper System.step events (System.start source pred))
    (h : Outcome.run System.step events (System.start source pred) = .done t) :
    Shows (t.source.map t.pred) t.list := by
  refine Outcome.run_partial (fun s => Shows (s.source.map s.pred) s.list) Event.Proper System.step ?_
    events _ t (refilter_shows _ _ _ _) proper h
  intro e s u hs he hstep
  cases e with
  | sourceChanged new pred change =>
    obtain ⟨list, hlist, rfl⟩ := Outcome.map_eq_done hstep
    exact Outcome.ends_true.mp (sourceChanged_shows he.1 he.2 hs) list hlist
  | setPredicate pred hasListeners =>
    cases hstep
    exact refilter_shows _ _ _ _

/-- A source index is shown when its element satisfies the predicate. -/
def System.Accepts (t : System E) (i : Int) : Prop := 0 ≤ i ∧ ∃ x, t.source[i.toNat]? = some x ∧ t.pred x = true

theorem filtered_exact {source : List E} {pred : E → Bool} {events : List (Event E)} {t : System E}
    (proper : Outcome.Along Event.Proper System.step events (System.start source pred))
    (h : Outcome.run System.step events (System.start source pred) = .done t) :
    t.list.filtered.Pairwise (· < ·) ∧ (∀ i : Int, i ∈ t.list.filtered ↔ t.Accepts i) ∧
      (∀ (i : Int) (k : Nat), getViewIndex i t.list = k ↔ getSourceIndex k t.list = .ok i) ∧
      ∀ i : Int, getViewIndex i t.list < 0 ↔ ¬ t.Accepts i := by
  have hfiltered := (System.run_shows proper h).filtered
  have hincreasing : t.list.filtered.Pairwise (· < ·) := by
    rw [hfiltered]
    exact positions_increasing _ _
  have hmem : ∀ i : Int, i ∈ t.list.filtered ↔ t.Accepts i := by
    intro i
    rw [hfiltered, mem_positions, Int.sub_zero, List.getElem?_map, System.Accepts, Option.map_eq_some_iff]
  refine ⟨hincreasing, hmem, ?_, ?_⟩
  · intro i k
    rw [getViewIndex, (search_iff hincreasing i).1 k, getSourceIndex]
    cases t.list.filtered[k]? with
    | none => simp
    | some j => simp
  · intro i
    rw [getViewIndex, (search_iff hincreasing i).2, hmem]

/-- The first two of `[1, 2, 3, 4]` are exchanged, `3` is replaced by `5, 0`, and
the update of `1` reports that it is accepted now. -/
def exchangedReplacedUpdated : SourceChange Nat :=
  ⟨[⟨0, 2, some [], [1, 0], false⟩], [⟨2, 4, some [3], [], false⟩], [⟨1, 2, some [], [], true⟩]⟩

theorem filtered_exact_composite : ∃ t : System Nat,
    Outcome.run System.step [.sourceChanged [2, 1, 5, 0, 4] (fun x => 1 ≤ x) exchangedReplacedUpdated,
      .setPredicate (fun x => x < 3) true] (System.start [1, 2, 3, 4] (fun x => 2 ≤ x)) = .done t ∧
    (∀ i : Int, i ∈ t.list.filtered ↔ t.Accepts i) ∧ t.list.filtered = [0, 1, 3] := by
  have legal : exchangedReplacedUpdated.Legal [1, 2, 3, 4] [2, 1, 5, 0, 4] :=
    ⟨by decide, by decide, [2, 1, 3, 4], ⟨rfl, by decide, rfl⟩,
      ⟨[2, 1], [5, 0], [4], [4], rfl, rfl, rfl, rfl, rfl⟩⟩
  have stable : Stable (fun x : Nat => decide (2 ≤ x)) (fun x => decide (1 ≤ x)) [2, 1, 5, 0, 4]
      exchangedReplacedUpdated := by
    intro i x hx hunreported
    have hi := (List.getElem?_eq_some_iff.mp hx).1
    match i, hi with
    | 0, _ => cases hx; rfl
    | 1, _ => exact absurd (by decide) (hunreported ⟨1, 2, some [], [], true⟩ (by decide))
    | 2, _ => cases hx; rfl
    | 3, _ => cases hx; rfl
    | 4, _ => cases hx; rfl
  have proper : Outcome.Along Event.Proper System.step
      [.sourceChanged [2, 1, 5, 0, 4] (fun x => 1 ≤ x) exchangedReplacedUpdated, .setPredicate (fun x => x < 3) true]
      (System.start [1, 2, 3, 4] (fun x => 2 ≤ x)) :=
    ⟨⟨legal, stable⟩, fun _ _ => ⟨trivial, fun _ _ => trivial⟩⟩
  exact ⟨_, rfl, (filtered_exact proper rfl).2.1, rfl⟩

end FilteredList
end OpenJfx.Collections
