import Mathlib
import OpenJfx.Geometry.RegionCover
import OpenJfx.Lib.Run

/-! # The pass of `addDirtyRegion`

The loop of `addDirtyRegion` looks at each region in use once.  The new region grows by those
it meets; a region that was passed before is not looked at again, and may meet it by then. -/
set_option autoImplicit false
namespace OpenJfx.Geometry

namespace RectBounds
variable {F : Type} [LinearOrder F] {a b c : RectBounds F}

theorem nonempty_of_intersects (h : a.intersects b = true) : a.isEmpty = false ∧ b.isEmpty = false := by
  unfold intersects at h
  split at h
  case isTrue => cases h
  case isFalse hne =>
    rw [Bool.or_eq_true, not_or, Bool.not_eq_true, Bool.not_eq_true] at hne
    exact ⟨hne.2, hne.1⟩

theorem intersects_iff : a.intersects b = true ↔ (a.isEmpty = false ∧ b.isEmpty = false) ∧
    a.minX ≤ b.maxX ∧ a.minY ≤ b.maxY ∧ b.minX ≤ a.maxX ∧ b.minY ≤ a.maxY := by
  constructor
  · intro h
    have hne := nonempty_of_intersects h
    refine ⟨hne, ?_⟩
    simpa [intersects, hne.1, hne.2, and_assoc] using h
  · rintro ⟨⟨ha, hb⟩, h⟩
    simpa [intersects, ha, hb, and_assoc] using h

theorem intersects_comm (a b : RectBounds F) : a.intersects b = b.intersects a := by
  rw [Bool.eq_iff_iff, intersects_iff, intersects_iff]
  constructor
  · rintro ⟨⟨ha, hb⟩, h1, h2, h3, h4⟩
    exact ⟨⟨hb, ha⟩, h3, h4, h1, h2⟩
  · rintro ⟨⟨hb, ha⟩, h3, h4, h1, h2⟩
    exact ⟨⟨ha, hb⟩, h1, h2, h3, h4⟩

theorem intersects_of_within (h : a.intersects c = true) (hwithin : Within a b) : b.intersects c = true := by
  obtain ⟨⟨ha, hc⟩, h1, h2, h3, h4⟩ := intersects_iff.mp h
  exact intersects_iff.mpr ⟨⟨nonempty_of_within ha hwithin, hc⟩, hwithin.minX.trans h1, hwithin.minY.trans h2,
    h3.trans hwithin.maxX, h4.trans hwithin.maxY⟩

theorem unionWith_of_within (ha : a.isEmpty = false) (hb : b.isEmpty = false) (h : Within b a) : a.unionWith b = a := by
  rw [unionWith, ha, hb, if_neg Bool.false_ne_true, if_neg Bool.false_ne_true, min_eq_left h.minX, min_eq_left h.minY,
    max_eq_left h.maxX, max_eq_left h.maxY]

end RectBounds

namespace DirtyRegionContainer
open RectBounds OpenJfx.Lib
variable {F : Type} [LinearOrder F]

/-! ## The pass over a list -/

section Pass

omit [LinearOrder F] in
/-- The last region takes the place of one that is swallowed. -/
def lastFirst (rest : List (RectBounds F)) : List (RectBounds F) := rest.getLast?.toList ++ rest.dropLast

/-- The region as it is at the end, and the regions it has passed. -/
def pass : Nat → RectBounds F → List (RectBounds F) → List (RectBounds F) → RectBounds F × List (RectBounds F)
  | rounds + 1, region, passed, dr :: rest =>
      if region.intersects dr then pass rounds (region.unionWith dr) passed (lastFirst rest)
      else pass rounds region (passed ++ [dr]) rest
  | _, region, passed, _ => (region, passed)

/-- At a turn of the pass the region that has just grown meets a region it passed before. -/
def Overtakes : Nat → RectBounds F → List (RectBounds F) → List (RectBounds F) → Prop
  | rounds + 1, region, passed, dr :: rest =>
      if region.intersects dr then
        (∃ p ∈ passed, (region.unionWith dr).intersects p = true) ∨
          Overtakes rounds (region.unionWith dr) passed (lastFirst rest)
      else Overtakes rounds region (passed ++ [dr]) rest
  | _, _, _, _ => False

instance decidableOvertakes : (rounds : Nat) → (region : RectBounds F) → (passed ahead : List (RectBounds F)) →
    Decidable (Overtakes rounds region passed ahead)
  | 0, _, _, _ => isFalse id
  | _ + 1, _, _, [] => isFalse id
  | rounds + 1, region, passed, dr :: rest =>
      have := decidableOvertakes rounds (region.unionWith dr) passed (lastFirst rest)
      have := decidableOvertakes rounds region (passed ++ [dr]) rest
      inferInstanceAs (Decidable (if region.intersects dr then _ ∨ _ else _))

omit [LinearOrder F] in
theorem lastFirst_perm (rest : List (RectBounds F)) : (lastFirst rest).Perm rest := by
  rcases List.eq_nil_or_concat' rest with rfl | ⟨front, last, rfl⟩
  · exact List.Perm.refl _
  · rw [lastFirst, List.getLast?_concat, List.dropLast_concat]
    exact (List.perm_append_singleton last front).symm

variable {rounds : Nat} {region : RectBounds F} {passed ahead : List (RectBounds F)}

theorem pass_induction {motive : Nat → RectBounds F → List (RectBounds F) → List (RectBounds F) → Prop}
    (done : ∀ rounds region passed, motive rounds region passed [])
    (swallow : ∀ rounds region passed dr rest, (lastFirst rest).length ≤ rounds → region.intersects dr = true →
      motive rounds (region.unionWith dr) passed (lastFirst rest) → motive (rounds + 1) region passed (dr :: rest))
    (skip : ∀ rounds region passed dr rest, ¬region.intersects dr = true →
      motive rounds region (passed ++ [dr]) rest → motive (rounds + 1) region passed (dr :: rest))
    (hrounds : ahead.length ≤ rounds) : motive rounds region passed ahead := by
  induction rounds generalizing region passed ahead with
  | zero =>
    obtain rfl := List.length_eq_zero_iff.mp (Nat.le_zero.mp hrounds)
    exact done 0 region passed
  | succ rounds ih =>
    cases ahead with
    | nil => exact done _ region passed
    | cons dr rest =>
      have hrest : rest.length ≤ rounds := Nat.le_of_succ_le_succ hrounds
      have hlast : (lastFirst rest).length ≤ rounds := (lastFirst_perm rest).length_eq ▸ hrest
      by_cases hmeets : region.intersects dr = true
      · exact swallow rounds region passed dr rest hlast hmeets (ih hlast)
      · exact skip rounds region passed dr rest hmeets (ih hrest)

theorem pass_swallow {dr : RectBounds F} {rest : List (RectBounds F)} (h : region.intersects dr = true) :
    pass (rounds + 1) region passed (dr :: rest) = pass rounds (region.unionWith dr) passed (lastFirst rest) := by
  rw [pass, if_pos h]

theorem pass_skip {dr : RectBounds F} {rest : List (RectBounds F)} (h : ¬region.intersects dr = true) :
    pass (rounds + 1) region passed (dr :: rest) = pass rounds region (passed ++ [dr]) rest := by
  rw [pass, if_neg h]

theorem pass_nil : pass rounds region passed [] = (region, passed) := by
  cases rounds <;> rfl

/-- What the pass does to the region and to the regions it passes. -/
structure Passes (region : RectBounds F) (passed ahead : List (RectBounds F))
    (result : RectBounds F × List (RectBounds F)) : Prop where
  within : Within region result.1
  swallowed : ∀ b ∈ ahead, region.intersects b = true → Within b result.1
  kept : ∃ behind gone, result.2 = passed ++ behind ∧ (behind ++ gone).Perm ahead ∧
    ((∃ b ∈ ahead, region.intersects b = true) → gone ≠ [])

theorem pass_passes (hrounds : ahead.length ≤ rounds) : Passes region passed ahead (pass rounds region passed ahead) := by
  refine pass_induction (motive := fun rounds region passed ahead =>
    Passes region passed ahead (pass rounds region passed ahead)) ?_ ?_ ?_ hrounds
  · intro rounds region passed
    rw [pass_nil]
    exact ⟨Within.refl region, fun b hb => (nomatch hb),
      ⟨[], [], (List.append_nil passed).symm, List.Perm.refl _, fun ⟨b, hb, _⟩ => nomatch hb⟩⟩
  · intro rounds region passed dr rest _ hmeets ih
    obtain ⟨hregion, hdr⟩ := nonempty_of_intersects hmeets
    obtain ⟨hwithin, hwithinDr, -⟩ := union_spec hregion hdr
    rw [pass_swallow hmeets]
    obtain ⟨behind, gone, hresult, hperm, -⟩ := ih.kept
    refine ⟨hwithin.trans ih.within, fun b hb hb' => ?_, ⟨behind, dr :: gone, hresult, ?_, fun _ => List.cons_ne_nil dr gone⟩⟩
    · rcases List.mem_cons.mp hb with rfl | hb
      · exact hwithinDr.trans ih.within
      · exact ih.swallowed b ((lastFirst_perm rest).mem_iff.mpr hb) (intersects_of_within hb' hwithin)
    · exact List.perm_middle.trans ((hperm.trans (lastFirst_perm rest)).cons dr)
  · intro rounds region passed dr rest hmeets ih
    rw [pass_skip hmeets]
    obtain ⟨behind, gone, hresult, hperm, hgone⟩ := ih.kept
    refine ⟨ih.within, fun b hb hb' => ?_, ⟨dr :: behind, gone, ?_, hperm.cons dr, ?_⟩⟩
    · rcases List.mem_cons.mp hb with rfl | hb
      · exact absurd hb' hmeets
      · exact ih.swallowed b hb hb'
    · rw [hresult, List.append_assoc]
      rfl
    · rintro ⟨b, hb, hb'⟩
      rcases List.mem_cons.mp hb with rfl | hb
      · exact absurd hb' hmeets
      · exact hgone ⟨b, hb, hb'⟩

theorem pass_overtakes (hrounds : ahead.length ≤ rounds) (hpassed : ∀ p ∈ passed, region.intersects p = false) :
    (∀ p ∈ (pass rounds region passed ahead).2, (pass rounds region passed ahead).1.intersects p = false) ↔
      ¬Overtakes rounds region passed ahead := by
  revert hpassed
  refine pass_induction (motive := fun rounds region passed ahead => (∀ p ∈ passed, region.intersects p = false) →
    ((∀ p ∈ (pass rounds region passed ahead).2, (pass rounds region passed ahead).1.intersects p = false) ↔
      ¬Overtakes rounds region passed ahead)) ?_ ?_ ?_ hrounds
  · intro rounds region passed hpassed
    rw [pass_nil]
    refine ⟨fun _ => ?_, fun _ => hpassed⟩
    cases rounds <;> exact id
  · intro rounds region passed dr rest hlast hmeets ih hpassed
    rw [pass_swallow hmeets, Overtakes, if_pos hmeets, not_or]
    by_cases hgrown : ∃ p ∈ passed, (region.unionWith dr).intersects p = true
    · obtain ⟨p, hp, hp'⟩ := hgrown
      have hpasses : Passes (region.unionWith dr) passed _ (pass rounds _ passed (lastFirst rest)) := pass_passes hlast
      obtain ⟨behind, -, hresult, -⟩ := hpasses.kept
      refine ⟨fun h => ?_, fun h => absurd ⟨p, hp, hp'⟩ h.1⟩
      have hmeets' := intersects_of_within hp' hpasses.within
      rw [h p (hresult ▸ List.mem_append_left behind hp)] at hmeets'
      cases hmeets'
    · rw [ih fun p hp => Bool.eq_false_iff.mpr fun hp' => hgrown ⟨p, hp, hp'⟩]
      exact ⟨fun h => ⟨hgrown, h⟩, fun h => h.2⟩
  · intro rounds region passed dr rest hmeets ih hpassed
    rw [pass_skip hmeets, Overtakes, if_neg hmeets]
    refine ih fun p hp => ?_
    rcases List.mem_append.mp hp with hp | hp
    · exact hpassed p hp
    · rw [List.mem_singleton.mp hp]
      exact Bool.eq_false_iff.mpr hmeets

def Apart (bs : List (RectBounds F)) : Prop := bs.Pairwise fun a b => a.intersects b = false

end Pass

/-! ## The loop of `addDirtyRegion` -/

section Absorb

omit [LinearOrder F] in
theorem take_eq_of_lt {l l' : List (RectBounds F)} {n : Nat} (h : ∀ k < n, l[k]? = l'[k]?) : l.take n = l'.take n := by
  apply List.ext_getElem?
  intro k
  rw [List.getElem?_take, List.getElem?_take]
  split
  case isTrue hk => exact h k hk
  case isFalse => rfl

omit [LinearOrder F] in
theorem drop_swapped {dirtyRegions swapped : List (RectBounds F)} {tempIndex emptyIndex : Nat}
    (hlt : tempIndex < emptyIndex) (inside : emptyIndex ≤ dirtyRegions.length)
    (hlen : swapped.length = dirtyRegions.length) (hatTemp : swapped[tempIndex]? = dirtyRegions[emptyIndex - 1]?)
    (hother : ∀ k, k ≠ tempIndex → k ≠ emptyIndex - 1 → swapped[k]? = dirtyRegions[k]?) :
    (swapped.take (emptyIndex - 1)).drop tempIndex = lastFirst ((dirtyRegions.take emptyIndex).drop (tempIndex + 1)) := by
  by_cases hlast : tempIndex = emptyIndex - 1
  · have hnil : (dirtyRegions.take emptyIndex).drop (tempIndex + 1) = [] := by
      rw [List.drop_eq_nil_iff, List.length_take]
      omega
    rw [hnil, List.drop_eq_nil_of_le (by rw [List.length_take]; omega)]
    rfl
  · obtain ⟨last, hget⟩ : ∃ last, dirtyRegions[emptyIndex - 1]? = some last :=
      ⟨_, List.getElem?_eq_getElem (by omega)⟩
    have htake : dirtyRegions.take emptyIndex = dirtyRegions.take (emptyIndex - 1) ++ [last] := by
      have hsucc : dirtyRegions.take (emptyIndex - 1 + 1) = _ := List.take_add_one
      rwa [show emptyIndex - 1 + 1 = emptyIndex by omega, hget] at hsucc
    have hrest : (dirtyRegions.take emptyIndex).drop (tempIndex + 1) =
        (dirtyRegions.take (emptyIndex - 1)).drop (tempIndex + 1) ++ [last] := by
      rw [htake, List.drop_append_of_le_length (by rw [List.length_take]; omega)]
    have hfront : (swapped.take (emptyIndex - 1)).drop tempIndex =
        last :: (swapped.take (emptyIndex - 1)).drop (tempIndex + 1) := by
      have hinside : tempIndex < (swapped.take (emptyIndex - 1)).length := by rw [List.length_take]; omega
      have hhead : (swapped.take (emptyIndex - 1))[tempIndex]? = some last := by
        rw [List.getElem?_take_of_lt (by omega), hatTemp, hget]
      rw [List.drop_eq_getElem_cons hinside, (List.getElem?_eq_some_iff.mp hhead).2]
    rw [hrest, lastFirst, List.getLast?_concat, List.dropLast_concat, hfront]
    refine congrArg (last :: ·) ?_
    change _ = (dirtyRegions.take (emptyIndex - 1)).drop (tempIndex + 1)
    apply List.ext_getElem?
    intro k
    rw [List.getElem?_drop, List.getElem?_drop, List.getElem?_take, List.getElem?_take]
    split
    case isTrue hk => exact hother _ (by omega) (by omega)
    case isFalse => rfl

theorem absorb_eq_pass (rounds tempIndex : Nat) (region : RectBounds F) (dirtyRegions : List (RectBounds F))
    (emptyIndex : Nat) (counted : tempIndex + rounds = emptyIndex) (inside : emptyIndex ≤ dirtyRegions.length)
    {result : RectBounds F × List (RectBounds F)}
    (hresult : pass rounds region (dirtyRegions.take tempIndex) ((dirtyRegions.take emptyIndex).drop tempIndex) = result) :
    ∃ dirtyRegions', absorb rounds tempIndex region dirtyRegions emptyIndex =
        .ok (result.1, dirtyRegions', result.2.length) ∧
      dirtyRegions'.take result.2.length = result.2 ∧ dirtyRegions'.length = dirtyRegions.length ∧
      (result.2.length = emptyIndex → dirtyRegions' = dirtyRegions) := by
  induction rounds generalizing tempIndex region dirtyRegions emptyIndex with
  | zero =>
    have hnil : (dirtyRegions.take emptyIndex).drop tempIndex = [] := by
      rw [List.drop_eq_nil_iff, List.length_take]
      omega
    rw [hnil, pass_nil] at hresult
    have hlength : (dirtyRegions.take tempIndex).length = emptyIndex := by
      rw [List.length_take]
      omega
    subst hresult
    refine ⟨dirtyRegions, ?_, ?_, rfl, fun _ => rfl⟩
    · rw [hlength]
      rfl
    · rw [hlength, show emptyIndex = tempIndex by omega]
  | succ rounds ih =>
    have htemp : tempIndex < dirtyRegions.length := by omega
    obtain ⟨dr, hget⟩ : ∃ dr, dirtyRegions[tempIndex]? = some dr := ⟨_, List.getElem?_eq_getElem htemp⟩
    have hahead : (dirtyRegions.take emptyIndex).drop tempIndex =
        dr :: (dirtyRegions.take emptyIndex).drop (tempIndex + 1) := by
      have hinside : tempIndex < (dirtyRegions.take emptyIndex).length := by rw [List.length_take]; omega
      have hhead : (dirtyRegions.take emptyIndex)[tempIndex]? = some dr := by
        rw [List.getElem?_take_of_lt (by omega), hget]
      rw [List.drop_eq_getElem_cons hinside, (List.getElem?_eq_some_iff.mp hhead).2]
    unfold absorb
    simp only [readSlot_of_getElem? hget, ok_bind]
    by_cases hmeets : region.intersects dr = true
    · obtain ⟨swapped, hswap, hlen, hatTemp, -, hother, -⟩ :=
        @swapSlots_spec _ dirtyRegions tempIndex (emptyIndex - 1) htemp (by omega)
      have hpassed : swapped.take tempIndex = dirtyRegions.take tempIndex :=
        take_eq_of_lt fun k hk => hother k (by omega) (by omega)
      have hrest := drop_swapped (by omega) inside hlen hatTemp hother
      have hsame : pass rounds (region.unionWith dr) (swapped.take tempIndex)
          ((swapped.take (emptyIndex - 1)).drop tempIndex) = result := by
        rw [hpassed, hrest, ← pass_swallow hmeets, ← hahead]
        exact hresult
      obtain ⟨dirtyRegions', habsorb, htake, hlength, -⟩ :=
        ih tempIndex (region.unionWith dr) swapped (emptyIndex - 1) (by omega) (by omega) hsame
      rw [if_pos hmeets, if_neg (by omega)]
      simp only [hswap, ok_bind]
      refine ⟨dirtyRegions', habsorb, htake, hlength.trans hlen, fun heq => ?_⟩
      -- a region was swallowed, so fewer are left
      have hlefts : (swapped.take (emptyIndex - 1)).length = emptyIndex - 1 := by rw [List.length_take]; omega
      have hrounds : ((swapped.take (emptyIndex - 1)).drop tempIndex).length ≤ rounds := by
        rw [List.length_drop, hlefts]
        omega
      obtain ⟨behind, gone, hbehind, hperm, -⟩ := hsame ▸ (pass_passes hrounds).kept
      have hcount := hperm.length_eq
      rw [List.length_append, List.length_drop, hlefts] at hcount
      rw [hbehind, List.length_append, List.length_take] at heq
      omega
    · have hpassed : dirtyRegions.take (tempIndex + 1) = dirtyRegions.take tempIndex ++ [dr] := by
        rw [List.take_add_one, hget]
        rfl
      rw [hahead, pass_skip hmeets, ← hpassed] at hresult
      rw [if_neg hmeets]
      exact ih (tempIndex + 1) region dirtyRegions emptyIndex (by omega) inside hresult

end Absorb

/-! ## Regions apart -/

section Add
variable {unionArea : RectBounds F → Int} {blank region : RectBounds F} {n : Nat} {c c' : DirtyRegionContainer F}

theorem pass_of_apart {rounds : Nat} {passed ahead : List (RectBounds F)} (hrounds : ahead.length ≤ rounds)
    (h : ∀ b ∈ ahead, region.intersects b = false) : pass rounds region passed ahead = (region, passed ++ ahead) := by
  induction ahead generalizing rounds passed with
  | nil => rw [pass_nil, List.append_nil]
  | cons dr rest ih =>
    obtain ⟨rounds, rfl⟩ : ∃ k, rounds = k + 1 := ⟨rounds - 1, by rw [List.length_cons] at hrounds; omega⟩
    have hdr := h dr List.mem_cons_self
    rw [pass_skip (Bool.eq_false_iff.mp hdr), ih (Nat.le_of_succ_le_succ hrounds)
      (fun b hb => h b (List.mem_cons_of_mem dr hb)), List.append_assoc]
    rfl

/-- What the pass of a call of `addDirtyRegion` leaves. -/
def passed (region : RectBounds F) (c : DirtyRegionContainer F) : RectBounds F × List (RectBounds F) :=
  pass c.emptyIndex region [] c.regions

omit [LinearOrder F] in
theorem regions_length (hsize : c.emptyIndex ≤ c.dirtyRegions.length) : c.regions.length = c.emptyIndex := by
  rw [regions, List.length_take, Nat.min_eq_left hsize]

theorem passed_passes (region : RectBounds F) (hsize : c.emptyIndex ≤ c.dirtyRegions.length) :
    Passes region [] c.regions (passed region c) :=
  pass_passes (regions_length hsize).le

theorem absorb_passed (hsize : c.emptyIndex ≤ c.dirtyRegions.length) (region : RectBounds F) :
    ∃ dirtyRegions', absorb c.emptyIndex 0 region c.dirtyRegions c.emptyIndex =
        .ok ((passed region c).1, dirtyRegions', (passed region c).2.length) ∧
      dirtyRegions'.take (passed region c).2.length = (passed region c).2 ∧
      dirtyRegions'.length = c.dirtyRegions.length ∧
      ((passed region c).2.length = c.emptyIndex → dirtyRegions' = c.dirtyRegions) :=
  absorb_eq_pass c.emptyIndex 0 region c.dirtyRegions c.emptyIndex (Nat.zero_add _) hsize rfl

theorem add_of_passed (unionArea : RectBounds F → Int) (blank : RectBounds F) (hsize : c.emptyIndex ≤ c.dirtyRegions.length) (hregion : region.isEmpty = false)
    (space : (passed region c).2.length < c.dirtyRegions.length) (fuel : Nat) :
    ∃ c', addDirtyRegion unionArea blank (fuel + 1) region c = .ok c' ∧
      c'.regions = (passed region c).2 ++ [(passed region c).1] ∧ c'.dirtyRegions.length = c.dirtyRegions.length ∧
      c'.heap = c.heap ∧ c'.entries = c.entries ∧ c'.emptyIndex ≤ c'.dirtyRegions.length := by
  obtain ⟨dirtyRegions', habsorb, htake, hlen, -⟩ := absorb_passed hsize region
  have hgrown : (passed region c).1.isEmpty = false := nonempty_of_within hregion (passed_passes region hsize).within
  have hwrite := writeSlot_eq (by omega : (passed region c).2.length < dirtyRegions'.length) (passed region c).1
  refine ⟨⟨dirtyRegions'.set (passed region c).2.length (passed region c).1, (passed region c).2.length + 1, c.heap,
    c.entries⟩, ?_, ?_, ?_, rfl, rfl, ?_⟩
  · rw [addDirtyRegion, if_neg (by rw [hregion]; exact Bool.false_ne_true)]
    simp only [habsorb, ok_bind]
    rw [if_pos (by omega)]
    simp only [deriveWithNewBounds, hgrown, Bool.false_eq_true, if_false, hwrite, ok_bind, pure_eq_ok]
  · change (dirtyRegions'.set _ _).take _ = _
    have hkept : (dirtyRegions'.set (passed region c).2.length (passed region c).1).take (passed region c).2.length =
        (passed region c).2 := by
      rw [List.take_set_of_le (le_refl _), htake]
    rw [List.take_add_one, hkept, List.getElem?_set_self (by omega)]
    rfl
  · exact List.length_set.trans hlen
  · change (passed region c).2.length + 1 ≤ (dirtyRegions'.set _ _).length
    rw [List.length_set]
    omega

/-- A call that compresses nothing: the region is empty, a slot is free or becomes free, or
there is a single slot. -/
def Fits (region : RectBounds F) (c : DirtyRegionContainer F) : Prop :=
  region.isEmpty = true ∨ c.emptyIndex < c.dirtyRegions.length ∨ c.dirtyRegions.length = 1 ∨
    ∃ b ∈ c.regions, region.intersects b = true

/-- The pass of the call makes the region grow onto one that it has passed. -/
def GrowsOnto (region : RectBounds F) (c : DirtyRegionContainer F) : Prop := Overtakes c.emptyIndex region [] c.regions

instance (region : RectBounds F) (c : DirtyRegionContainer F) : Decidable (Fits region c) :=
  inferInstanceAs (Decidable (_ ∨ _ ∨ _ ∨ ∃ b ∈ c.regions, region.intersects b = true))

instance (region : RectBounds F) (c : DirtyRegionContainer F) : Decidable (GrowsOnto region c) :=
  decidableOvertakes c.emptyIndex region [] c.regions

theorem Apart.of_perm {bs bs' : List (RectBounds F)} (h : Apart bs) (hperm : bs.Perm bs') : Apart bs' :=
  (List.Perm.pairwise_iff (fun {a b} hab => (intersects_comm b a).trans hab) hperm).mp h

theorem apart_append_singleton {bs : List (RectBounds F)} {b : RectBounds F} (h : Apart bs) :
    Apart (bs ++ [b]) ↔ ∀ p ∈ bs, b.intersects p = false := by
  rw [Apart, List.pairwise_append]
  constructor
  · intro hall p hp
    rw [intersects_comm]
    exact hall.2.2 p hp b (List.mem_singleton_self b)
  · intro hall
    refine ⟨h, List.pairwise_singleton _ _, fun p hp b' hb' => ?_⟩
    rw [List.mem_singleton.mp hb', intersects_comm]
    exact hall p hp

theorem add_apart_iff (unionArea : RectBounds F → Int) (blank : RectBounds F) (h : Kept n c) (hfits : Fits region c) (hapart : Apart c.regions) :
    ∃ c', addDirtyRegion unionArea blank 2 region c = .ok c' ∧ Kept n c' ∧
      (Apart c'.regions ↔ ¬GrowsOnto region c) := by
  have hsize : c.emptyIndex ≤ c.dirtyRegions.length := h.capacity ▸ h.size
  have hmeets : (∀ p ∈ (passed region c).2, (passed region c).1.intersects p = false) ↔ ¬GrowsOnto region c :=
    pass_overtakes (regions_length hsize).le (fun p hp => by cases hp)
  obtain ⟨behind, gone, hbehind, hperm, hgone⟩ := (passed_passes region hsize).kept
  rw [List.nil_append] at hbehind
  rw [← hbehind] at hperm
  have hcount := hperm.length_eq
  rw [List.length_append, regions_length hsize] at hcount
  cases hempty : region.isEmpty with
  | true =>
    have hnone : ∀ b, region.intersects b = false := fun b => by
      rw [intersects, hempty, Bool.or_true, if_pos rfl]
    refine ⟨c, by rw [addDirtyRegion, if_pos hempty]; rfl, h, ⟨fun _ => hmeets.mp ?_, fun _ => hapart⟩⟩
    have hsame : (passed region c).1 = region :=
      congrArg Prod.fst (pass_of_apart (regions_length hsize).le fun b _ => hnone b)
    rw [hsame]
    exact fun p _ => hnone p
  | false =>
    have large : 1 ≤ n := by
      rw [← h.capacity]
      rcases hfits with hfalse | hfree | hone | ⟨b, hb, -⟩
      · rw [hempty] at hfalse
        cases hfalse
      · omega
      · omega
      · exact List.length_pos_of_mem (List.mem_of_mem_take hb)
    by_cases space : (passed region c).2.length < c.dirtyRegions.length
    · obtain ⟨c', hadd, hregions, -⟩ := add_of_passed unionArea blank hsize hempty space 1
      obtain ⟨c'', hadd', hkept, -⟩ := @addDirtyRegion_spec F _ unionArea n c blank region large h hempty
      cases hadd.symm.trans hadd'
      refine ⟨c', hadd, hkept, ?_⟩
      have hleft : Apart (passed region c).2 := (List.pairwise_append.mp (hapart.of_perm hperm.symm)).1
      rw [hregions, apart_append_singleton hleft, hmeets]
    · -- nothing was swallowed, so there is a single slot
      have hnone : ¬∃ b ∈ c.regions, region.intersects b = true := by
        intro hsome
        have hlost := List.length_pos_iff.mpr (hgone hsome)
        omega
      have hone : c.dirtyRegions.length = 1 := by
        rcases hfits with hfalse | hfree | hone | hsome
        · rw [hempty] at hfalse
          cases hfalse
        · omega
        · exact hone
        · exact absurd hsome hnone
      obtain ⟨c', hadd, hkept, -⟩ := @addDirtyRegion_spec F _ unionArea n c blank region large h hempty
      refine ⟨c', hadd, hkept, ⟨fun _ => hmeets.mp ?_, fun _ => ?_⟩⟩
      · have happend : ∀ b ∈ c.regions, region.intersects b = false := fun b hb =>
          Bool.eq_false_iff.mpr fun hb' => hnone ⟨b, hb, hb'⟩
        have hsame : passed region c = (region, c.regions) :=
          pass_of_apart (regions_length hsize).le happend
        rw [hsame]
        exact happend
      · have hshort : c'.regions.length ≤ 1 := by
          rw [regions, List.length_take]
          have hcapacity := hkept.capacity
          have hcapacity₀ := h.capacity
          omega
        rcases hregions : c'.regions with _ | ⟨b, _ | ⟨b', rest⟩⟩
        · exact List.Pairwise.nil
        · exact List.pairwise_singleton _ b
        · rw [hregions] at hshort
          simp at hshort

/-! ## Runs without a compression -/

def add? (unionArea : RectBounds F → Int) (blank : RectBounds F) (region : RectBounds F) (c : DirtyRegionContainer F) :
    Option (DirtyRegionContainer F) :=
  (addDirtyRegion unionArea blank 2 region c).toOption

def StaysApart (unionArea : RectBounds F → Int) (blank : RectBounds F) (added : List (RectBounds F))
    (c : DirtyRegionContainer F) : Prop :=
  ∀ before c', before <+: added → execute (add? unionArea blank) before c = some c' → Apart c'.regions

theorem staysApart_cons {added : List (RectBounds F)} {c₁ : DirtyRegionContainer F}
    (hstep : add? unionArea blank region c = some c₁) (hapart : Apart c.regions) :
    StaysApart unionArea blank (region :: added) c ↔ StaysApart unionArea blank added c₁ := by
  constructor
  · intro h before c' hbefore hrun
    refine h (region :: before) c' (List.cons_prefix_cons.mpr ⟨rfl, hbefore⟩) ?_
    exact execute_cons.mpr ⟨c₁, hstep, hrun⟩
  · intro h before c' hbefore hrun
    rcases List.prefix_cons_iff.mp hbefore with rfl | ⟨rest, rfl, hrest⟩
    · cases hrun
      exact hapart
    · obtain ⟨c₂, hstep', hrun'⟩ := execute_cons.mp hrun
      cases hstep.symm.trans hstep'
      exact h rest c' hrest hrun'

theorem staysApart_iff_of_kept (added : List (RectBounds F)) (h : Kept n c) (hapart : Apart c.regions)
    (hfits : Abides Fits (add? unionArea blank) added c) :
    StaysApart unionArea blank added c ↔ Abides (fun region c => ¬GrowsOnto region c) (add? unionArea blank) added c := by
  induction added generalizing c with
  | nil =>
    refine ⟨fun _ => trivial, fun _ before c' hbefore hrun => ?_⟩
    obtain rfl := List.prefix_nil.mp hbefore
    cases hrun
    exact hapart
  | cons region added ih =>
    obtain ⟨c₁, hadd, hkept, hstep⟩ := add_apart_iff unionArea blank h hfits.1 hapart
    have hstep₁ : add? unionArea blank region c = some c₁ := by
      rw [add?, hadd]
      rfl
    rw [staysApart_cons hstep₁ hapart]
    by_cases hgrows : GrowsOnto region c
    · refine ⟨fun hstays => ?_, fun habides => absurd hgrows habides.1⟩
      exact absurd hgrows (hstep.mp (hstays [] c₁ (List.nil_prefix) rfl))
    · have hrest := ih hkept (hstep.mpr hgrows) (hfits.2 c₁ hstep₁)
      rw [hrest]
      refine ⟨fun habides => ⟨hgrows, fun c₂ hc₂ => ?_⟩, fun habides => habides.2 c₁ hstep₁⟩
      cases hstep₁.symm.trans hc₂
      exact habides

/-- While no call compresses, the regions of a container are apart after each call if and
only if no call lets the new region grow onto one it has passed. -/
theorem regions_stay_apart_iff (unionArea : RectBounds F → Int) (blank : RectBounds F) (n : Nat)
    (added : List (RectBounds F)) (hfits : Abides Fits (add? unionArea blank) added (create blank n)) :
    StaysApart unionArea blank added (create blank n) ↔
      Abides (fun region c => ¬GrowsOnto region c) (add? unionArea blank) added (create blank n) := by
  refine staysApart_iff_of_kept added (kept_create blank n) ?_ hfits
  rw [regions, create, List.take_zero]
  exact List.Pairwise.nil

/-- Two regions in a container for four. -/
theorem regions_stay_apart_iff_two : StaysApart (fun b : RectBounds Int => (b.maxX - b.minX) * (b.maxY - b.minY))
    ⟨0, 0, -1, -1⟩ [⟨0, 0, 1, 1⟩, ⟨0, 3, 10, 4⟩] (create ⟨0, 0, -1, -1⟩ 4) :=
  (regions_stay_apart_iff _ _ 4 _ (by decide +kernel)).mpr (by decide +kernel)

/-- A third region passes the first, grows by the second and meets the first then. -/
theorem not_regions_stay_apart : ¬∀ (unionArea : RectBounds Int → Int) (n : Nat) (added : List (RectBounds Int)),
    Abides Fits (add? unionArea ⟨0, 0, -1, -1⟩) added (create ⟨0, 0, -1, -1⟩ n) →
      StaysApart unionArea ⟨0, 0, -1, -1⟩ added (create ⟨0, 0, -1, -1⟩ n) := by
  intro h
  have hapart := h (fun b => (b.maxX - b.minX) * (b.maxY - b.minY)) 4
    [⟨0, 0, 1, 1⟩, ⟨0, 3, 10, 4⟩, ⟨9, -1, 12, 5⟩] (by decide +kernel) _
    ⟨[⟨0, 0, 1, 1⟩, ⟨0, -1, 12, 5⟩, ⟨0, 0, -1, -1⟩, ⟨0, 0, -1, -1⟩], 2, none, []⟩ (List.prefix_refl _) (by decide +kernel)
  exact absurd (List.rel_of_pairwise_cons hapart List.mem_cons_self) (by decide +kernel)

end Add

end DirtyRegionContainer
end OpenJfx.Geometry
