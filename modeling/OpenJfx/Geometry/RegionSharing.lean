import OpenJfx.Geometry.RegionPass

/-! # Regions that callers hand in

`addDirtyRegion` unites into the rectangle of its caller, and `merge` hands in the regions of
the other container; the heap has the size the container had at the first compression. -/
set_option autoImplicit false
namespace OpenJfx.Geometry.DirtyRegionContainer

open RectBounds OpenJfx.Lib

section Calls
variable {F : Type} [LinearOrder F] (unionArea : RectBounds F → Int) (blank : RectBounds F)

/-- `addDirtyRegion` with the rectangle of the caller as the call leaves it. -/
def addRegion : Nat → RectBounds F → DirtyRegionContainer F → Except Fault (RectBounds F × DirtyRegionContainer F)
  | 0, _, _ => .error .outOfFuel
  | fuel + 1, region, c =>
      if region.isEmpty then return (region, c)
      else do
        let (region, dirtyRegions, emptyIndex) ← absorb c.emptyIndex 0 region c.dirtyRegions c.emptyIndex
        let c := { c with dirtyRegions := dirtyRegions, emptyIndex := emptyIndex }
        if c.emptyIndex < c.dirtyRegions.length then
          let dirtyRegions ← writeSlot c.dirtyRegions c.emptyIndex (deriveWithNewBounds blank region)
          return (region, { c with dirtyRegions := dirtyRegions, emptyIndex := c.emptyIndex + 1 })
        else if c.dirtyRegions.length = 1 then
          let dr ← readSlot c.dirtyRegions 0
          let dirtyRegions ← writeSlot c.dirtyRegions 0 (dr.unionWith region)
          return (region, { c with dirtyRegions := dirtyRegions })
        else
          let c ← compressHeap unionArea c
          addRegion fuel region c

/-- The loop of `merge`, with the regions as the calls leave them. -/
def addRegions : List (RectBounds F) → DirtyRegionContainer F → Except Fault (List (RectBounds F) × DirtyRegionContainer F)
  | [], c => return ([], c)
  | region :: rest, c => do
      let (region, c) ← addRegion unionArea blank 2 region c
      let (rest, c) ← addRegions rest c
      return (region :: rest, c)

/-- A container as its methods leave it. -/
abbrev Container (F : Type) := { c : DirtyRegionContainer F // c.emptyIndex ≤ c.dirtyRegions.length }

def initDirtyRegions (count : Nat) (c : DirtyRegionContainer F) : DirtyRegionContainer F :=
  { c with dirtyRegions := List.replicate count blank, emptyIndex := 0 }

/-- `regioncopy` to the first slots; a region may be `null`. -/
def regioncopy (src : List (Option (RectBounds F))) (dest : List (RectBounds F)) : List (RectBounds F) :=
  src.map (fun rb => match rb with
    | none => blank
    | some rb => deriveWithNewBounds blank rb) ++ dest.drop src.length

def deriveWithNewRegions (regions : Option (List (Option (RectBounds F)))) (c : DirtyRegionContainer F) :
    DirtyRegionContainer F :=
  match regions with
  | none => c
  | some regions =>
      if regions.length = 0 then c
      else
        let c := if c.dirtyRegions.length < regions.length then initDirtyRegions blank regions.length c else c
        { c with dirtyRegions := regioncopy blank regions c.dirtyRegions, emptyIndex := regions.length }

def deriveWithNewContainer (other : Option (Container F)) (c : DirtyRegionContainer F) : DirtyRegionContainer F :=
  match other with
  | none => c
  | some ⟨other, _⟩ =>
      if other.dirtyRegions.length = 0 then c
      else
        let c :=
          if c.dirtyRegions.length < other.dirtyRegions.length then initDirtyRegions blank other.dirtyRegions.length c
          else c
        { c with
          dirtyRegions := regioncopy blank (other.regions.map some) c.dirtyRegions
          emptyIndex := other.emptyIndex }

def reset (c : DirtyRegionContainer F) : DirtyRegionContainer F := { c with emptyIndex := 0 }

inductive Call (F : Type) where
  | addDirtyRegion (region : RectBounds F)
  | deriveWithNewRegions (regions : Option (List (Option (RectBounds F))))
  | deriveWithNewContainer (other : Option (Container F))
  | reset
  | merge (other : Container F)

def Call.regions : Call F → List (RectBounds F)
  | .addDirtyRegion region => [region]
  | .merge other => other.1.regions
  | _ => []

/-- A call, with the rectangles it adds as it leaves them.  The recursion of `addDirtyRegion`
is two deep, but for a container without slots, where it does not end. -/
def perform (call : Call F) (c : DirtyRegionContainer F) : Except Fault (List (RectBounds F) × DirtyRegionContainer F) :=
  match call with
  | .addDirtyRegion region => addRegions unionArea blank [region] c
  | .deriveWithNewRegions regions => .ok ([], deriveWithNewRegions blank regions c)
  | .deriveWithNewContainer other => .ok ([], deriveWithNewContainer blank other c)
  | .reset => .ok ([], reset c)
  | .merge other => addRegions unionArea blank other.1.regions c

theorem addRegion_container (fuel : Nat) (region : RectBounds F) (c : DirtyRegionContainer F) :
    (addRegion unionArea blank fuel region c).map Prod.snd = addDirtyRegion unionArea blank fuel region c := by
  induction fuel generalizing region c with
  | zero => rfl
  | succ fuel ih =>
    rw [addRegion, addDirtyRegion]
    split
    case isTrue => rfl
    case isFalse =>
      cases absorb c.emptyIndex 0 region c.dirtyRegions c.emptyIndex with
      | error fault => rfl
      | ok absorbed =>
        obtain ⟨region', dirtyRegions', emptyIndex'⟩ := absorbed
        simp only [ok_bind]
        split
        case isTrue =>
          cases writeSlot dirtyRegions' emptyIndex' (deriveWithNewBounds blank region') with
          | error fault => rfl
          | ok written => rfl
        case isFalse =>
          split
          case isTrue =>
            cases readSlot dirtyRegions' 0 with
            | error fault => rfl
            | ok dr =>
              simp only [ok_bind]
              cases writeSlot dirtyRegions' 0 (dr.unionWith region') with
              | error fault => rfl
              | ok written => rfl
          case isFalse =>
            cases compressHeap unionArea ⟨dirtyRegions', emptyIndex', c.heap, c.entries⟩ with
            | error fault => rfl
            | ok c₁ => exact ih region' c₁

end Calls

/-! ## What a call needs -/

section Conditions
variable {F : Type} [LinearOrder F] (unionArea : RectBounds F → Int) (blank : RectBounds F)

/-- Every region in use that the region meets lies in it. -/
def SwallowsWithin (region : RectBounds F) (c : DirtyRegionContainer F) : Prop :=
  ∀ b ∈ c.regions, region.intersects b = true → Within b region

/-- The region finds no free slot and frees none. -/
structure NeedsCompression (region : RectBounds F) (c : DirtyRegionContainer F) : Prop where
  nonempty : region.isEmpty = false
  full : c.emptyIndex = c.dirtyRegions.length
  several : c.dirtyRegions.length ≠ 1
  apart : ∀ b ∈ c.regions, region.intersects b = false

/-- The heap, when there is one, has a slot for each pair of regions. -/
def HeapFits (c : DirtyRegionContainer F) : Prop :=
  ∀ heap, c.heap = some heap → c.dirtyRegions.length * (c.dirtyRegions.length - 1) / 2 ≤ heap.length

/-- The region swallows only what lies in it, also after a compression, and a compression
finds a heap that is large enough. -/
def Takes (region : RectBounds F) (c : DirtyRegionContainer F) : Prop :=
  region.isEmpty = true ∨ SwallowsWithin region c ∧
    (NeedsCompression region c → HeapFits c ∧ ∀ c₁, compressHeap unionArea c = .ok c₁ → SwallowsWithin region c₁)

/-- A call indexes inside the arrays and leaves the rectangles it adds as they were. -/
def Harmless (call : Call F) (c : DirtyRegionContainer F) : Prop :=
  perform unionArea blank call c ≠ .error .arrayIndexOutOfBounds ∧
    ∀ regions c', perform unionArea blank call c = .ok (regions, c') → regions = call.regions

/-- The invariant of a container between two calls: the heap is at most as large as one for
the regions there are now. -/
structure Usable (c : DirtyRegionContainer F) : Prop where
  size : c.emptyIndex ≤ c.dirtyRegions.length
  heap : ∀ heap, c.heap = some heap → heap.length ≤ c.dirtyRegions.length * (c.dirtyRegions.length - 1) / 2 ∧
    ∀ ref ∈ heap, ref < c.entries.length

end Conditions

section One
variable {F : Type} [LinearOrder F] {unionArea : RectBounds F → Int} {blank region : RectBounds F}
  {c : DirtyRegionContainer F}

theorem pass_of_within {rounds : Nat} {passed ahead : List (RectBounds F)} (hrounds : ahead.length ≤ rounds)
    (h : ∀ b ∈ ahead, region.intersects b = true → Within b region) : (pass rounds region passed ahead).1 = region := by
  revert h
  refine pass_induction (motive := fun rounds region passed ahead =>
    (∀ b ∈ ahead, region.intersects b = true → Within b region) → (pass rounds region passed ahead).1 = region)
    ?_ ?_ ?_ hrounds
  · intro rounds region passed _
    rw [pass_nil]
  · intro rounds region passed dr rest _ hmeets ih h
    obtain ⟨hregion, hdr⟩ := nonempty_of_intersects hmeets
    have hsame := unionWith_of_within hregion hdr (h dr List.mem_cons_self hmeets)
    rw [pass_swallow hmeets]
    rw [hsame] at ih ⊢
    exact ih fun b hb => h b (List.mem_cons_of_mem dr ((lastFirst_perm rest).mem_iff.mp hb))
  · intro rounds region passed dr rest hmeets ih h
    rw [pass_skip hmeets]
    exact ih fun b hb => h b (List.mem_cons_of_mem dr hb)

theorem passed_eq_iff (hsize : c.emptyIndex ≤ c.dirtyRegions.length) :
    (passed region c).1 = region ↔ SwallowsWithin region c := by
  constructor
  · intro hsame b hb hmeets
    have hswallowed := (passed_passes region hsize).swallowed b hb hmeets
    rwa [hsame] at hswallowed
  · exact pass_of_within (regions_length hsize).le

theorem apart_of_no_space (hsize : c.emptyIndex ≤ c.dirtyRegions.length)
    (space : ¬(passed region c).2.length < c.dirtyRegions.length) :
    c.emptyIndex = c.dirtyRegions.length ∧ (passed region c).2.length = c.emptyIndex ∧
      ∀ b ∈ c.regions, region.intersects b = false := by
  obtain ⟨behind, gone, hbehind, hperm, hgone⟩ := (passed_passes region hsize).kept
  rw [List.nil_append] at hbehind
  rw [← hbehind] at hperm
  have hcount := hperm.length_eq
  rw [List.length_append, regions_length hsize] at hcount
  refine ⟨by omega, by omega, fun b hb => Bool.eq_false_iff.mpr fun hmeets => ?_⟩
  have hlost := List.length_pos_iff.mpr (hgone ⟨b, hb, hmeets⟩)
  omega

omit [LinearOrder F] in
theorem Usable.shape (h : Usable c) (hfits : HeapFits c) : HeapShape c :=
  fun heap hheap => ⟨Nat.le_antisymm (h.heap heap hheap).1 (hfits heap hheap), (h.heap heap hheap).2⟩

omit [LinearOrder F] in
theorem Usable.of_heap {c' : DirtyRegionContainer F} (h : Usable c) (hsize : c'.emptyIndex ≤ c'.dirtyRegions.length)
    (hlen : c.dirtyRegions.length ≤ c'.dirtyRegions.length) (hheap : c'.heap = c.heap) (hentries : c'.entries = c.entries) :
    Usable c' := by
  refine ⟨hsize, fun heap hsome => ?_⟩
  obtain ⟨hle, hrefs⟩ := h.heap heap (hheap ▸ hsome)
  rw [hentries]
  exact ⟨hle.trans (Nat.div_le_div_right (Nat.mul_le_mul hlen (Nat.sub_le_sub_right hlen 1))), hrefs⟩

theorem addRegion_of_space (unionArea : RectBounds F → Int) (blank : RectBounds F) (h : Usable c)
    (hregion : region.isEmpty = false) (space : (passed region c).2.length < c.dirtyRegions.length) (fuel : Nat) :
    ∃ c', addRegion unionArea blank (fuel + 1) region c = .ok ((passed region c).1, c') ∧ Usable c' ∧
      c'.dirtyRegions.length = c.dirtyRegions.length := by
  obtain ⟨c', hadd, -, hlen, hheap, hentries, hsize⟩ := add_of_passed unionArea blank h.size hregion space fuel
  refine ⟨c', ?_, h.of_heap hsize hlen.ge hheap hentries, hlen⟩
  obtain ⟨dirtyRegions', habsorb, -, hlen', -⟩ := absorb_passed h.size region
  have hwrite := writeSlot_eq (by omega : (passed region c).2.length < dirtyRegions'.length)
    (deriveWithNewBounds blank (passed region c).1)
  have hnonempty : ¬region.isEmpty = true := by rw [hregion]; exact Bool.false_ne_true
  have hspace : (passed region c).2.length < dirtyRegions'.length := by omega
  rw [addDirtyRegion, if_neg hnonempty] at hadd
  rw [addRegion, if_neg hnonempty]
  simp only [habsorb, ok_bind, if_pos hspace, hwrite, pure_eq_ok] at hadd ⊢
  rw [Except.ok.inj hadd]

theorem addRegion_of_full (unionArea : RectBounds F → Int) (blank : RectBounds F) (h : Usable c) (hneeds : NeedsCompression region c) (fuel : Nat) :
    addRegion unionArea blank (fuel + 1) region c = (do
      let c₁ ← compressHeap unionArea c
      addRegion unionArea blank fuel region c₁) := by
  obtain ⟨dirtyRegions', habsorb, -, -, hsame⟩ := absorb_passed h.size region
  have hpassed : passed region c = (region, c.regions) := pass_of_apart (regions_length h.size).le hneeds.apart
  have hcount : (passed region c).2.length = c.emptyIndex := by rw [hpassed]; exact regions_length h.size
  have hfull : ¬c.emptyIndex < c.dirtyRegions.length := by rw [hneeds.full]; exact lt_irrefl _
  rw [hsame hcount, hcount, hpassed] at habsorb
  rw [addRegion, if_neg (by rw [hneeds.nonempty]; exact Bool.false_ne_true)]
  simp only [habsorb, ok_bind, if_neg hfull, if_neg hneeds.several]

theorem addRegion_of_single (unionArea : RectBounds F → Int) (blank : RectBounds F) (h : Usable c)
    (hregion : region.isEmpty = false) (space : ¬(passed region c).2.length < c.dirtyRegions.length)
    (hone : c.dirtyRegions.length = 1) (fuel : Nat) :
    ∃ c', addRegion unionArea blank (fuel + 1) region c = .ok (region, c') ∧ Usable c' ∧
      c'.dirtyRegions.length = c.dirtyRegions.length := by
  obtain ⟨hfull, hcount, hapart⟩ := apart_of_no_space h.size space
  obtain ⟨dirtyRegions', habsorb, -, -, hsame⟩ := absorb_passed h.size region
  have hpassed : passed region c = (region, c.regions) := pass_of_apart (regions_length h.size).le hapart
  rw [hsame hcount, hcount, hpassed] at habsorb
  obtain ⟨dr, hget⟩ : ∃ dr, c.dirtyRegions[0]? = some dr := ⟨_, List.getElem?_eq_getElem (by omega)⟩
  have hwrite := writeSlot_eq (by omega : 0 < c.dirtyRegions.length) (dr.unionWith region)
  refine ⟨{ c with dirtyRegions := c.dirtyRegions.set 0 (dr.unionWith region) }, ?_, ?_, List.length_set⟩
  · rw [addRegion, if_neg (by rw [hregion]; exact Bool.false_ne_true)]
    simp only [habsorb, ok_bind]
    rw [if_neg (by omega), if_pos hone]
    simp only [readSlot_of_getElem? hget, ok_bind, hwrite, pure_eq_ok]
  · have hlen : (c.dirtyRegions.set 0 (dr.unionWith region)).length = c.dirtyRegions.length := List.length_set
    exact h.of_heap (hlen ▸ h.size) hlen.ge rfl rfl

theorem fillHeap_short {dirtyRegions : List (RectBounds F)} {heap : List Nat} {pairs : List (Nat × Nat)} {k : Nat}
    {entries : List HeapEntry} (order : ∀ i j, (i, j) ∈ pairs → i < j ∧ j < dirtyRegions.length)
    (refs : ∀ ref ∈ heap, ref < entries.length) (hk : k ≤ heap.length) (short : heap.length < k + pairs.length) :
    fillHeap unionArea dirtyRegions heap pairs k entries = .error .arrayIndexOutOfBounds := by
  induction pairs generalizing k entries with
  | nil => exact absurd short (by rw [List.length_nil]; omega)
  | cons pair pairs ih =>
    obtain ⟨i, j⟩ := pair
    obtain ⟨hij, hj⟩ := order i j List.mem_cons_self
    obtain ⟨area, harea⟩ := @unifiedRegionArea_ok F _ unionArea dirtyRegions i j _ _
      (List.getElem?_eq_getElem (by omega)) (List.getElem?_eq_getElem hj)
    rw [fillHeap]
    simp only [harea, ok_bind]
    rw [List.length_cons] at short
    by_cases hinside : k < heap.length
    · have href : heap[k] < entries.length := refs heap[k] (List.getElem_mem hinside)
      simp only [readSlot_eq hinside, ok_bind, writeSlot_eq href]
      exact ih (fun i j hmem => order i j (List.mem_cons_of_mem _ hmem)) (by simpa using refs) hinside (by omega)
    · have hread : readSlot heap k = .error .arrayIndexOutOfBounds := by
        rw [readSlot, List.getElem?_eq_none (by omega)]
      rw [hread]
      rfl

theorem compressHeap_short (h : Usable c) (hshort : ¬HeapFits c) :
    compressHeap unionArea c = .error .arrayIndexOutOfBounds := by
  have hheap : ∃ heap, c.heap = some heap ∧ heap.length < c.dirtyRegions.length * (c.dirtyRegions.length - 1) / 2 := by
    by_contra hnone
    refine hshort fun heap hheap => ?_
    by_contra hlt
    exact hnone ⟨heap, hheap, Nat.lt_of_not_le hlt⟩
  obtain ⟨heap, hheap, hlt⟩ := hheap
  have hfill : fillHeap unionArea c.dirtyRegions heap (indexPairs c.dirtyRegions.length) 0 c.entries =
      .error .arrayIndexOutOfBounds :=
    fillHeap_short (fun i j => indexPairs_order) (h.heap heap hheap).2 (Nat.zero_le _)
      (by rw [indexPairs_length, Nat.zero_add]; exact hlt)
  have hallocate : c.allocateHeap = (heap, c.entries) := by rw [allocateHeap, hheap]
  rw [compressHeap, hallocate]
  simp only [hfill]
  rfl

theorem compressHeap_nil (unionArea : RectBounds F → Int) (h : Usable c) (hnil : c.dirtyRegions = []) :
    ∃ c₁, compressHeap unionArea c = .ok c₁ ∧ Usable c₁ ∧ c₁.dirtyRegions = [] := by
  have hzero : c.emptyIndex = 0 := by
    have hsize := h.size
    rw [hnil, List.length_nil] at hsize
    omega
  have hallocate : c.allocateHeap.1 = [] := by
    cases hheap : c.heap with
    | none => simp [allocateHeap, hheap, hnil]
    | some heap =>
      have hle := (h.heap heap hheap).1
      simp only [hnil, List.length_nil, Nat.zero_mul, Nat.zero_div] at hle
      rw [allocateHeap, hheap]
      change heap = []
      exact List.length_eq_zero_iff.mp (Nat.le_zero.mp hle)
  refine ⟨⟨[], 0, some [], c.allocateHeap.2⟩, ?_, ⟨le_refl 0, fun heap hheap => ?_⟩, rfl⟩
  · have hsplit : c.allocateHeap = ([], c.allocateHeap.2) := Prod.ext hallocate rfl
    rw [compressHeap, hnil, hsplit]
    simp [hzero, indexPairs, fillHeap, heapify, siftDown, mergePairs, compact, pure_eq_ok, ok_bind]
  · cases hheap
    exact ⟨Nat.zero_le _, fun ref href => by cases href⟩

theorem compressHeap_usable (unionArea : RectBounds F → Int) (h : Usable c) (hfits : HeapFits c) (large : 2 ≤ c.dirtyRegions.length)
    (full : c.emptyIndex = c.dirtyRegions.length) : ∃ c₁, compressHeap unionArea c = .ok c₁ ∧ Usable c₁ ∧
      c₁.dirtyRegions.length = c.dirtyRegions.length ∧ c₁.emptyIndex < c.dirtyRegions.length := by
  obtain ⟨m, s, e, regions', hcompress, -, -, -, hfree, hlen, -, -, hshape⟩ := @compressHeap_runs F _ unionArea c large full
    (h.shape hfits) (fun _ _ => True) (fun _ _ _ _ _ => trivial) (fun _ _ => trivial)
  refine ⟨_, hcompress, ⟨?_, fun heap hheap => ⟨(hshape heap hheap).1.le, (hshape heap hheap).2⟩⟩, hlen, hfree⟩
  change e ≤ regions'.length
  omega

/-- What becomes of a call: it does not end without slots, it indexes outside the heap, or it
returns with the rectangle. -/
inductive Outcome (unionArea : RectBounds F → Int) (blank region : RectBounds F) (c : DirtyRegionContainer F) : Prop
  | endless (result : addRegion unionArea blank 2 region c = .error .outOfFuel) (none : c.dirtyRegions.length = 0)
      (takes : Takes unionArea region c) : Outcome unionArea blank region c
  | outside (result : addRegion unionArea blank 2 region c = .error .arrayIndexOutOfBounds)
      (takes : ¬Takes unionArea region c) : Outcome unionArea blank region c
  | returns (region' : RectBounds F) (c' : DirtyRegionContainer F)
      (result : addRegion unionArea blank 2 region c = .ok (region', c')) (usable : Usable c')
      (capacity : c'.dirtyRegions.length = c.dirtyRegions.length) (takes : region' = region ↔ Takes unionArea region c)
      (none : c.dirtyRegions.length = 0 → region' = region) : Outcome unionArea blank region c

theorem takes_iff_of_not_needs (hregion : region.isEmpty = false) (hneeds : ¬NeedsCompression region c) :
    Takes unionArea region c ↔ SwallowsWithin region c := by
  constructor
  · rintro (hempty | htakes)
    · rw [hregion] at hempty
      cases hempty
    · exact htakes.1
  · exact fun hwithin => Or.inr ⟨hwithin, fun hneeds' => absurd hneeds' hneeds⟩

theorem takes_iff_of_needs (unionArea : RectBounds F → Int) (hneeds : NeedsCompression region c) : Takes unionArea region c ↔
    HeapFits c ∧ ∀ c₁, compressHeap unionArea c = .ok c₁ → SwallowsWithin region c₁ := by
  have hwithin : SwallowsWithin region c := by
    intro b hb hmeets
    rw [hneeds.apart b hb] at hmeets
    cases hmeets
  constructor
  · rintro (hempty | htakes)
    · rw [hneeds.nonempty] at hempty
      cases hempty
    · exact htakes.2 hneeds
  · exact fun h => Or.inr ⟨hwithin, fun _ => h⟩

theorem outcome_of_needs (blank : RectBounds F) (h : Usable c) (hneeds : NeedsCompression region c) :
    Outcome unionArea blank region c := by
  have hcall := addRegion_of_full unionArea blank h hneeds 1
  have htakes := takes_iff_of_needs unionArea hneeds
  by_cases hfits : HeapFits c
  · by_cases hnil : c.dirtyRegions.length = 0
    · -- without slots the call calls itself for ever
      obtain ⟨c₁, hcompress, husable, hnil₁⟩ := compressHeap_nil unionArea h (List.length_eq_zero_iff.mp hnil)
      have hzero₁ : c₁.emptyIndex = 0 := by
        have hsize := husable.size
        rw [hnil₁, List.length_nil] at hsize
        omega
      have hregions₁ : c₁.regions = [] := by rw [regions, hnil₁, List.take_nil]
      have hapart₁ : ∀ b ∈ c₁.regions, region.intersects b = false := by
        rw [hregions₁]
        exact fun b hb => by cases hb
      have hneeds₁ : NeedsCompression region c₁ :=
        ⟨hneeds.nonempty, by rw [hzero₁, hnil₁]; rfl, by rw [hnil₁]; exact Nat.zero_ne_one, hapart₁⟩
      obtain ⟨c₂, hcompress₂, -⟩ := compressHeap_nil unionArea husable hnil₁
      refine .endless ?_ hnil (htakes.mpr ⟨hfits, fun c₁' hc₁' => ?_⟩)
      · rw [hcall, hcompress, ok_bind, addRegion_of_full unionArea blank husable hneeds₁ 0, hcompress₂]
        rfl
      · cases hcompress.symm.trans hc₁'
        intro b hb hmeets
        rw [hapart₁ b hb] at hmeets
        cases hmeets
    · have hseveral := hneeds.several
      obtain ⟨c₁, hcompress, husable, hlen, hfree⟩ :=
        compressHeap_usable unionArea h hfits (by omega) hneeds.full
      have hspace : (passed region c₁).2.length < c₁.dirtyRegions.length := by
        obtain ⟨behind, gone, hbehind, hperm, -⟩ := (passed_passes region husable.size).kept
        have hcount := hperm.length_eq
        rw [List.length_append, regions_length husable.size] at hcount
        rw [hbehind, List.nil_append]
        omega
      obtain ⟨c', hadd, husable', hlen'⟩ := addRegion_of_space unionArea blank husable hneeds.nonempty hspace 0
      refine .returns (passed region c₁).1 c' ?_ husable' (hlen'.trans hlen) ?_ (fun hzero => absurd hzero hnil)
      · rw [hcall, hcompress, ok_bind, hadd]
      · rw [passed_eq_iff husable.size, htakes]
        refine ⟨fun hwithin => ⟨hfits, fun c₁' hc₁' => ?_⟩, fun htakes => htakes.2 c₁ hcompress⟩
        cases hcompress.symm.trans hc₁'
        exact hwithin
  · refine .outside ?_ (fun htaken => hfits (htakes.mp htaken).1)
    rw [hcall, compressHeap_short h hfits]
    rfl

theorem addRegion_outcome (unionArea : RectBounds F → Int) (blank region : RectBounds F) (h : Usable c) :
    Outcome unionArea blank region c := by
  cases hregion : region.isEmpty with
  | true =>
    refine .returns region c ?_ h rfl ⟨fun _ => Or.inl hregion, fun _ => rfl⟩ (fun _ => rfl)
    rw [addRegion, if_pos hregion]
    rfl
  | false =>
    by_cases space : (passed region c).2.length < c.dirtyRegions.length
    · obtain ⟨c', hadd, husable, hlen⟩ := addRegion_of_space unionArea blank h hregion space 1
      have hneeds : ¬NeedsCompression region c := by
        intro hneeds
        have hpassed : passed region c = (region, c.regions) := pass_of_apart (regions_length h.size).le hneeds.apart
        rw [hpassed] at space
        have hcount := regions_length h.size
        have hfull := hneeds.full
        change c.regions.length < _ at space
        omega
      refine .returns (passed region c).1 c' hadd husable hlen ?_ (fun hzero => ?_)
      · rw [passed_eq_iff h.size, takes_iff_of_not_needs hregion hneeds]
      · omega
    · obtain ⟨hfull, -, hapart⟩ := apart_of_no_space h.size space
      by_cases hone : c.dirtyRegions.length = 1
      · obtain ⟨c', hadd, husable, hlen⟩ := addRegion_of_single unionArea blank h hregion space hone 1
        have hneeds : ¬NeedsCompression region c := fun hneeds => hneeds.several hone
        refine .returns region c' hadd husable hlen ?_ (fun _ => rfl)
        rw [takes_iff_of_not_needs hregion hneeds]
        refine ⟨fun _ b hb hmeets => ?_, fun _ => rfl⟩
        rw [hapart b hb] at hmeets
        cases hmeets
      · exact outcome_of_needs blank h ⟨hregion, hfull, hone, hapart⟩

end One

/-! ## Runs of calls -/

section Runs
variable {F : Type} [LinearOrder F] {unionArea : RectBounds F → Int} {blank : RectBounds F}
  {c c' : DirtyRegionContainer F} {region region' : RectBounds F} {added added' : List (RectBounds F)}

theorem add?_of_ok (hadd : addRegion unionArea blank 2 region c = .ok (region', c')) :
    add? unionArea blank region c = some c' := by
  rw [add?, ← addRegion_container, hadd]
  rfl

theorem add?_of_error {fault : Fault} (hadd : addRegion unionArea blank 2 region c = .error fault) :
    add? unionArea blank region c = none := by
  rw [add?, ← addRegion_container, hadd]
  rfl

theorem addRegions_cons_of_ok (hadd : addRegion unionArea blank 2 region c = .ok (region', c')) :
    addRegions unionArea blank (region :: added) c =
      (addRegions unionArea blank added c').map fun left => (region' :: left.1, left.2) := by
  rw [addRegions, hadd, ok_bind]
  cases hrest : addRegions unionArea blank added c' with
  | error fault => simp only [hrest]; rfl
  | ok left => simp only [hrest]; rfl

theorem addRegions_cons_of_error {fault : Fault} (hadd : addRegion unionArea blank 2 region c = .error fault) :
    addRegions unionArea blank (region :: added) c = .error fault := by
  rw [addRegions, hadd]
  rfl

theorem addRegions_ends (unionArea : RectBounds F → Int) (blank : RectBounds F) (added : List (RectBounds F))
    (h : Usable c) (hslots : c.dirtyRegions.length ≠ 0) : addRegions unionArea blank added c ≠ .error .outOfFuel := by
  induction added generalizing c with
  | nil => exact fun hnil => (nomatch hnil)
  | cons region added ih =>
    cases addRegion_outcome unionArea blank region h with
    | endless _ none _ => exact absurd none hslots
    | outside result _ =>
      rw [addRegions_cons_of_error result]
      exact fun hfault => (nomatch hfault)
    | returns region' c' result usable capacity _ _ =>
      have hrest := ih usable (capacity ▸ hslots)
      rw [addRegions_cons_of_ok result]
      cases hadded : addRegions unionArea blank added c' with
      | ok left => exact fun hfault => (nomatch hfault)
      | error fault =>
        intro hfault
        cases hfault
        exact hrest hadded

theorem addRegions_usable (h : Usable c) (hadded : addRegions unionArea blank added c = .ok (added', c')) : Usable c' := by
  induction added generalizing c added' with
  | nil =>
    cases hadded
    exact h
  | cons region added ih =>
    cases addRegion_outcome unionArea blank region h with
    | endless result _ _ =>
      rw [addRegions_cons_of_error result] at hadded
      cases hadded
    | outside result _ =>
      rw [addRegions_cons_of_error result] at hadded
      cases hadded
    | returns region' c₁ result usable _ _ _ =>
      rw [addRegions_cons_of_ok result] at hadded
      cases hrest : addRegions unionArea blank added c₁ with
      | error fault =>
        rw [hrest] at hadded
        cases hadded
      | ok left =>
        rw [hrest] at hadded
        cases hadded
        exact ih usable hrest

/-- The additions index inside the arrays and leave the rectangles as they were. -/
def LeavesUnchanged (unionArea : RectBounds F → Int) (blank : RectBounds F) (added : List (RectBounds F))
    (c : DirtyRegionContainer F) : Prop :=
  addRegions unionArea blank added c ≠ .error .arrayIndexOutOfBounds ∧
    ∀ added' c', addRegions unionArea blank added c = .ok (added', c') → added' = added

theorem leavesUnchanged_cons (hadd : addRegion unionArea blank 2 region c = .ok (region, c')) :
    LeavesUnchanged unionArea blank (region :: added) c ↔ LeavesUnchanged unionArea blank added c' := by
  rw [LeavesUnchanged, LeavesUnchanged, addRegions_cons_of_ok hadd]
  cases addRegions unionArea blank added c' with
  | error fault =>
    refine and_congr ?_ (iff_of_true (fun _ _ hok => nomatch hok) (fun _ _ hok => nomatch hok))
    exact not_congr ⟨fun hfault => by cases hfault; rfl, fun hfault => by cases hfault; rfl⟩
  | ok left =>
    refine and_congr (iff_of_true (fun hfault => (nomatch hfault)) (fun hfault => (nomatch hfault))) ⟨?_, ?_⟩
    · intro hsame added' c₁ hok
      cases hok
      exact (List.cons.inj (hsame _ _ rfl)).2
    · intro hsame added' c₁ hok
      cases hok
      rw [hsame _ _ rfl]

theorem not_leavesUnchanged_cons (h : Usable c') (hslots : c'.dirtyRegions.length ≠ 0)
    (hadd : addRegion unionArea blank 2 region c = .ok (region', c')) (hchanged : region' ≠ region) :
    ¬LeavesUnchanged unionArea blank (region :: added) c := by
  rw [LeavesUnchanged, addRegions_cons_of_ok hadd]
  have hends := addRegions_ends unionArea blank added h hslots
  intro hunchanged
  cases hrest : addRegions unionArea blank added c' with
  | error fault =>
    rw [hrest] at hunchanged
    cases fault with
    | arrayIndexOutOfBounds => exact hunchanged.1 rfl
    | outOfFuel => exact hends hrest
  | ok left =>
    rw [hrest] at hunchanged
    exact hchanged (List.cons.inj (hunchanged.2 _ _ rfl)).1

theorem leavesUnchanged_iff (added : List (RectBounds F)) (h : Usable c) :
    LeavesUnchanged unionArea blank added c ↔ Abides (Takes unionArea) (add? unionArea blank) added c := by
  induction added generalizing c with
  | nil =>
    refine ⟨fun _ => trivial, fun _ => ⟨fun hfault => (nomatch hfault), fun added' c' hadded => ?_⟩⟩
    cases hadded
    rfl
  | cons region added ih =>
    cases addRegion_outcome unionArea blank region h with
    | endless result _ takes =>
      rw [LeavesUnchanged, addRegions_cons_of_error result]
      refine iff_of_true ⟨fun hfault => (nomatch hfault), fun _ _ hok => (nomatch hok)⟩ ⟨takes, fun c₁ hc₁ => ?_⟩
      rw [add?_of_error result] at hc₁
      cases hc₁
    | outside result takes =>
      rw [LeavesUnchanged, addRegions_cons_of_error result]
      exact iff_of_false (fun hunchanged => hunchanged.1 rfl) (fun habides => takes habides.1)
    | returns region' c₁ result usable capacity takes none =>
      have hstep := add?_of_ok result
      by_cases hregion : region' = region
      · rw [hregion] at result
        rw [leavesUnchanged_cons result, ih usable]
        refine ⟨fun habides => ⟨takes.mp hregion, fun c₂ hc₂ => ?_⟩, fun habides => habides.2 c₁ hstep⟩
        cases hstep.symm.trans hc₂
        exact habides
      · have hslots : c₁.dirtyRegions.length ≠ 0 := fun hzero => hregion (none (capacity ▸ hzero))
        exact iff_of_false (not_leavesUnchanged_cons usable hslots result hregion)
          (fun habides => hregion (takes.mpr habides.1))

def perform? (unionArea : RectBounds F → Int) (blank : RectBounds F) (call : Call F) (c : DirtyRegionContainer F) :
    Option (DirtyRegionContainer F) :=
  ((perform unionArea blank call c).map Prod.snd).toOption

/-- The container takes the rectangles that a call adds, one after the other. -/
def TakesAll (unionArea : RectBounds F → Int) (blank : RectBounds F) (call : Call F) (c : DirtyRegionContainer F) : Prop :=
  Abides (Takes unionArea) (add? unionArea blank) call.regions c

theorem harmless_iff (call : Call F) (h : Usable c) :
    Harmless unionArea blank call c ↔ TakesAll unionArea blank call c := by
  cases call with
  | addDirtyRegion region => exact leavesUnchanged_iff [region] h
  | merge other => exact leavesUnchanged_iff other.1.regions h
  | deriveWithNewRegions regions | deriveWithNewContainer other | reset =>
    refine ⟨fun _ => trivial, fun _ => ⟨fun hfault => (nomatch hfault), fun added' c' hok => ?_⟩⟩
    cases hok
    rfl

omit [LinearOrder F] in
theorem initDirtyRegions_length (blank : RectBounds F) (c : DirtyRegionContainer F) (count : Nat) : (initDirtyRegions blank count c).dirtyRegions.length = count :=
  List.length_replicate

theorem regioncopy_length (blank : RectBounds F) {src : List (Option (RectBounds F))} {dest : List (RectBounds F)} (h : src.length ≤ dest.length) :
    (regioncopy blank src dest).length = dest.length := by
  rw [regioncopy, List.length_append, List.length_map, List.length_drop]
  omega

theorem deriveWithNewRegions_usable (blank : RectBounds F) (regions : Option (List (Option (RectBounds F)))) (h : Usable c) :
    Usable (deriveWithNewRegions blank regions c) := by
  cases regions with
  | none => exact h
  | some regions =>
    rw [deriveWithNewRegions]
    split
    case isTrue => exact h
    case isFalse =>
      split
      case isTrue hlarge =>
        have hlen := regioncopy_length blank (initDirtyRegions_length blank c regions.length).ge
        rw [initDirtyRegions_length] at hlen
        exact h.of_heap hlen.ge (hlarge.le.trans hlen.ge) rfl rfl
      case isFalse hsmall =>
        have hlen := regioncopy_length blank (Nat.le_of_not_lt hsmall)
        exact h.of_heap ((Nat.le_of_not_lt hsmall).trans hlen.ge) hlen.ge rfl rfl

omit [LinearOrder F] in
theorem Container.regions_le (other : Container F) : (other.1.regions.map some).length ≤ other.1.dirtyRegions.length := by
  rw [List.length_map, regions_length other.2]
  exact other.2

theorem deriveWithNewContainer_usable (blank : RectBounds F) (other : Option (Container F)) (h : Usable c) :
    Usable (deriveWithNewContainer blank other c) := by
  cases other with
  | none => exact h
  | some other =>
    have hother := Container.regions_le other
    obtain ⟨other, hsize⟩ := other
    rw [deriveWithNewContainer]
    split
    case isTrue => exact h
    case isFalse =>
      split
      case isTrue hlarge =>
        have hinit := initDirtyRegions_length blank c other.dirtyRegions.length
        have hlen := regioncopy_length blank (hother.trans hinit.ge)
        rw [hinit] at hlen
        exact h.of_heap (hsize.trans hlen.ge) (hlarge.le.trans hlen.ge) rfl rfl
      case isFalse hsmall =>
        have hlen := regioncopy_length blank (hother.trans (Nat.le_of_not_lt hsmall))
        exact h.of_heap ((hsize.trans (Nat.le_of_not_lt hsmall)).trans hlen.ge) hlen.ge rfl rfl

theorem perform_usable (call : Call F) (h : Usable c) (hcall : perform? unionArea blank call c = some c') : Usable c' := by
  obtain ⟨hresult, rest⟩ : ∃ added', perform unionArea blank call c = .ok (added', c') := by
    rw [perform?] at hcall
    cases hperform : perform unionArea blank call c with
    | error fault =>
      rw [hperform] at hcall
      cases hcall
    | ok result =>
      rw [hperform] at hcall
      cases hcall
      exact ⟨result.1, rfl⟩
  cases call with
  | addDirtyRegion region => exact addRegions_usable h rest
  | merge other => exact addRegions_usable h rest
  | deriveWithNewRegions regions =>
    cases rest
    exact deriveWithNewRegions_usable blank regions h
  | deriveWithNewContainer other =>
    cases rest
    exact deriveWithNewContainer_usable blank other h
  | reset =>
    cases rest
    exact h.of_heap (Nat.zero_le _) (le_refl _) rfl rfl

omit [LinearOrder F] in
theorem usable_create (blank : RectBounds F) (n : Nat) : Usable (create blank n) :=
  ⟨Nat.zero_le _, fun _ hheap => nomatch hheap⟩

/-- The calls of a run index inside the arrays and leave the rectangles they add as they
were if and only if the container takes each of these rectangles: it swallows with it only
what lies in it, and a compression finds a heap that is large enough. -/
theorem calls_harmless_iff (unionArea : RectBounds F → Int) (blank : RectBounds F) (n : Nat) (calls : List (Call F)) :
    Abides (Harmless unionArea blank) (perform? unionArea blank) calls (create blank n) ↔
      Abides (TakesAll unionArea blank) (perform? unionArea blank) calls (create blank n) :=
  abides_iff_of_invariant Usable (fun call _ _ _ h _ hcall => perform_usable call h hcall)
    (fun call _ _ h => harmless_iff call h) (fun _ _ => trivial) (usable_create blank n)

/-- A rectangle that meets a region held grows. -/
theorem not_calls_harmless : ¬∀ (unionArea : RectBounds Int → Int) (n : Nat) (calls : List (Call Int)),
    Abides (Harmless unionArea ⟨0, 0, -1, -1⟩) (perform? unionArea ⟨0, 0, -1, -1⟩) calls (create ⟨0, 0, -1, -1⟩ n) := by
  intro h
  have hrun := h (fun b => (b.maxX - b.minX) * (b.maxY - b.minY)) 2
    [.addDirtyRegion ⟨0, 0, 4, 4⟩, .addDirtyRegion ⟨2, 2, 6, 6⟩]
  obtain ⟨-, hsame⟩ := (hrun.2 ⟨[⟨0, 0, 4, 4⟩, ⟨0, 0, -1, -1⟩], 1, none, []⟩ (by decide +kernel)).1
  have hgrown := hsame [⟨0, 0, 6, 6⟩] ⟨[⟨0, 0, 6, 6⟩, ⟨0, 0, -1, -1⟩], 1, none, []⟩ (by decide +kernel)
  exact absurd hgrown (by decide)

/-- The heap of a container for two regions stays when there is space for four. -/
example : (execute (perform? (fun b : RectBounds Int => (b.maxX - b.minX) * (b.maxY - b.minY)) ⟨0, 0, -1, -1⟩)
      [.addDirtyRegion ⟨0, 0, 1, 1⟩, .addDirtyRegion ⟨2, 0, 3, 1⟩, .addDirtyRegion ⟨4, 0, 5, 1⟩,
        .deriveWithNewRegions (some [some ⟨0, 0, 1, 1⟩, some ⟨2, 0, 3, 1⟩, some ⟨4, 0, 5, 1⟩, some ⟨6, 0, 7, 1⟩])]
      (create ⟨0, 0, -1, -1⟩ 2)).map
    (fun c => perform (fun b : RectBounds Int => (b.maxX - b.minX) * (b.maxY - b.minY)) ⟨0, 0, -1, -1⟩
      (.addDirtyRegion ⟨8, 0, 9, 1⟩) c) = some (.error .arrayIndexOutOfBounds) := by
  decide +kernel

end Runs

end OpenJfx.Geometry.DirtyRegionContainer
