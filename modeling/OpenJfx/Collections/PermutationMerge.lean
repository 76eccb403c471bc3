import OpenJfx.Collections.BuilderPermutation

/-! # Permutations of one block

Several permutations that are reported in one block are merged into one.  The
merged range is the hull of the ranges, and an index of the hull that lies between
the ranges is looked up outside of the array.  The builder keeps the array object of
the first call and overwrites it as long as the ranges are equal. -/
set_option autoImplicit false
namespace OpenJfx.Collections
open OpenJfx.Lib

/-- A call of `nextPermutation(from, to, perm)` on a list of `n` elements; `array` is
the array object that holds `perm`. -/
structure PermutationCall (n : Nat) where
  lo : Int
  perm : List Int
  array : Nat
  lo_nonneg : 0 ≤ lo
  hi_le : lo + perm.length ≤ n
  isPerm : IsRangePerm lo perm

namespace PermutationCall
variable {n : Nat}

def hi (c : PermutationCall n) : Int := c.lo + c.perm.length

def move (c : PermutationCall n) : Int → Int := rangeMap c.lo c.perm

def moves : List (PermutationCall n) → Int → Int
  | [], i => i
  | c :: cs, i => moves cs (c.move i)

/-- Every range touches the hull `[lo, hi]` of the ranges before it. -/
def Touching (lo hi : Int) : List (PermutationCall n) → Prop
  | [] => True
  | c :: cs => c.lo ≤ hi ∧ lo ≤ c.hi ∧ Touching (min lo c.lo) (max hi c.hi) cs

/-- Every range touches the hull of the ranges before it. -/
def Connected : List (PermutationCall n) → Prop
  | [] => True
  | c :: cs => Touching c.lo c.hi cs

theorem length_eq (c : PermutationCall n) : (c.perm.length : Int) = c.hi - c.lo := by
  rw [hi]
  omega

theorem move_outside (c : PermutationCall n) {i : Int} (h : i < c.lo ∨ i ≥ c.hi) : c.move i = i := rangeMap_outside h

theorem move_inside (c : PermutationCall n) {i : Int} (h1 : c.lo ≤ i) (h2 : i < c.hi) : c.lo ≤ c.move i ∧ c.move i < c.hi :=
  c.isPerm.rangeMap_inside h1 h2

theorem move_injective (c : PermutationCall n) : Function.Injective c.move := c.isPerm.rangeMap_injective

theorem readAt_move (c : PermutationCall n) {i : Int} (h1 : c.lo ≤ i) (h2 : i < c.hi) :
    readAt c.perm (i - c.lo) = .ok (c.move i) := readAt_rangeMap h1 h2

end PermutationCall

theorem rangeMap_map {lo hi i : Int} {f : Int → Int} (h1 : lo ≤ i) (h2 : i < hi) : rangeMap lo ((intRange lo hi).map f) i = f i := by
  have hlen : ((intRange lo hi).map f).length = (hi - lo).toNat := by rw [List.length_map, intRange_length]
  have hk : (i - lo).toNat < ((intRange lo hi).map f).length := by omega
  have hentry := getElem?_eq_rangeMap (p := (intRange lo hi).map f) lo hk
  have hback : lo + (((i - lo).toNat : Nat) : Int) = i := by omega
  rw [hback, List.getElem?_map, getElem?_intRange (by omega), hback] at hentry
  exact (Option.some.inj hentry).symm

/-- A map that moves nothing out of a range of a list with `n` elements. -/
structure MovesWithin (n : Nat) (lo hi : Int) (f : Int → Int) : Prop where
  lo_nonneg : 0 ≤ lo
  le : lo ≤ hi
  hi_le : hi ≤ n
  injective : Function.Injective f
  inside : ∀ i, lo ≤ i → i < hi → lo ≤ f i ∧ f i < hi
  outside : ∀ i, i < lo ∨ i ≥ hi → f i = i

def recorded {E : Type} (lo hi : Int) (f : Int → Int) : SubChange E := ⟨lo, hi, none, (intRange lo hi).map f, false⟩

namespace PermutationCall
variable {n : Nat} {lo hi : Int} {f : Int → Int}

theorem movesWithin (c : PermutationCall n) : MovesWithin n c.lo c.hi c.move where
  lo_nonneg := c.lo_nonneg
  le := by rw [hi]; omega
  hi_le := c.hi_le
  injective := c.move_injective
  inside := fun _ => c.move_inside
  outside := fun _ => c.move_outside

theorem perm_eq (c : PermutationCall n) : c.perm = (intRange c.lo c.hi).map c.move := by
  refine List.ext_getElem? fun k => ?_
  have hlen := c.length_eq
  by_cases hk : k < c.perm.length
  · rw [List.getElem?_map, getElem?_intRange (by omega), Option.map_some]
    exact getElem?_eq_rangeMap c.lo hk
  · rw [List.getElem?_eq_none (by omega), List.getElem?_eq_none (by rw [List.length_map, intRange_length]; omega)]

theorem movesWithin_hull (c : PermutationCall n) (h : MovesWithin n lo hi f) (h1 : c.lo ≤ hi) (h2 : lo ≤ c.hi) :
    MovesWithin n (min lo c.lo) (max hi c.hi) (fun i => c.move (f i)) := by
  have hc := c.movesWithin
  have h0 := h.lo_nonneg
  have h0' := hc.lo_nonneg
  have hle := h.le
  have hle' := hc.le
  have hn := h.hi_le
  have hn' := hc.hi_le
  refine ⟨by omega, by omega, by omega, c.move_injective.comp h.injective, ?_, ?_⟩
  · intro i hi1 hi2
    have hf : min lo c.lo ≤ f i ∧ f i < max hi c.hi := by
      by_cases hin : lo ≤ i ∧ i < hi
      · have := h.inside i hin.1 hin.2
        omega
      · rw [h.outside i (by omega)]
        exact ⟨hi1, hi2⟩
    by_cases hin : c.lo ≤ f i ∧ f i < c.hi
    · have := c.move_inside hin.1 hin.2
      omega
    · rw [c.move_outside (by omega)]
      exact hf
  · intro i hout
    have hf : f i = i := h.outside i (by omega)
    rw [hf, c.move_outside (by omega)]

end PermutationCall

namespace ListChangeBuilder
variable {E : Type} {n : Nat} {lo hi : Int} {f : Int → Int}

theorem readAt_recorded {i : Int} (h1 : lo ≤ i) (h2 : i < hi) : readAt ((intRange lo hi).map f) (i - lo) = .ok (f i) := by
  have hlen : ((intRange lo hi).map f).length = (hi - lo).toNat := by rw [List.length_map, intRange_length]
  rw [readAt_rangeMap h1 (by omega), rangeMap_map h1 h2]

theorem composeAt_outside {a b i : Int} {p : List Int} (h : i < lo ∨ i ≥ hi) :
    composeAt (recorded lo hi f : SubChange E) a b p i = readAt p (i - a) := if_pos h

theorem composeAt_inside {a b i : Int} {p : List Int} (h1 : lo ≤ i) (h2 : i < hi) :
    composeAt (recorded lo hi f : SubChange E) a b p i =
      if f i < a ∨ f i ≥ b then .ok (f i) else readAt p (f i - a) := by
  have hin : ¬ (i < (recorded lo hi f : SubChange E).fromIdx ∨ i ≥ (recorded lo hi f : SubChange E).toIdx) := by
    change ¬ (i < lo ∨ i ≥ hi)
    omega
  rw [composeAt, if_neg hin]
  change (readAt ((intRange lo hi).map f) (i - lo) >>= fun p' => if p' < a ∨ p' ≥ b then .ok p' else readAt p (p' - a)) = _
  rw [readAt_recorded h1 h2]
  rfl

theorem mergePermutation_touching (c : PermutationCall n) (h : MovesWithin n lo hi f) (h1 : c.lo ≤ hi) (h2 : lo ≤ c.hi) :
    mergePermutation c.lo c.hi c.perm (some (recorded lo hi f : SubChange E)) =
      .done (some (recorded (min lo c.lo) (max hi c.hi) fun i => c.move (f i))) := by
  have hle := h.le
  have hle' := c.movesWithin.le
  rw [mergePermutation]
  by_cases hsame : c.lo = lo ∧ c.hi = hi
  · obtain ⟨rfl, rfl⟩ := hsame
    have hlen : c.perm.length = ((intRange c.lo c.hi).map f).length := by
      rw [List.length_map, intRange_length]
      have := c.length_eq
      omega
    have hloop := @composeLoop_spec c.lo c.perm ((intRange c.lo c.hi).map f) c.move (by
      intro p hp
      obtain ⟨i, hi, rfl⟩ := List.mem_map.mp hp
      have hin := h.inside i (mem_intRange.mp hi).1 (mem_intRange.mp hi).2
      exact c.readAt_move hin.1 hin.2)
    rw [if_pos ⟨rfl, rfl⟩, hlen]
    change (composeLoop c.lo c.perm _ ((intRange c.lo c.hi).map f)).map _ = _
    rw [hloop, Outcome.map_done, List.map_map, min_self, max_self]
    rfl
  · change ¬ (c.lo = (recorded lo hi f : SubChange E).fromIdx ∧ c.hi = (recorded lo hi f : SubChange E).toIdx) at hsame
    rw [if_neg hsame]
    have hmapM := @mapM_ok _ _ (composeAt (recorded lo hi f : SubChange E) c.lo c.hi c.perm) (fun i => c.move (f i))
      (intRange (min lo c.lo) (max hi c.hi)) (by
        intro i hmem
        obtain ⟨hi1, hi2⟩ := mem_intRange.mp hmem
        by_cases hout : i < lo ∨ i ≥ hi
        · rw [composeAt_outside hout, c.readAt_move (by omega) (by omega), h.outside i hout]
        · rw [composeAt_inside (by omega) (by omega)]
          by_cases hstay : f i < c.lo ∨ f i ≥ c.hi
          · rw [if_pos hstay, c.move_outside hstay]
          · rw [if_neg hstay, c.readAt_move (by omega) (by omega)])
    change Outcome.ofExcept _ _ ((intRange (min lo c.lo) (max hi c.hi)).mapM _) = _
    rw [hmapM, Outcome.ofExcept_ok]
    rfl

theorem mergePermutation_apart (c : PermutationCall n) (h : MovesWithin n lo hi f) (hgap : ¬ (c.lo ≤ hi ∧ lo ≤ c.hi)) :
    mergePermutation c.lo c.hi c.perm (some (recorded lo hi f : SubChange E)) =
      .thrown .arrayIndexOutOfBounds (some (recorded lo hi f)) := by
  have hle := h.le
  have hle' := c.movesWithin.le
  have hlen := c.length_eq
  have hsame : ¬ (c.lo = (recorded lo hi f : SubChange E).fromIdx ∧ c.hi = (recorded lo hi f : SubChange E).toIdx) := by
    intro heq
    obtain ⟨rfl, rfl⟩ := heq
    exact hgap ⟨hle, hle⟩
  rw [mergePermutation, if_neg hsame]
  have hfails : ∃ i ∈ intRange (min lo c.lo) (max hi c.hi),
      composeAt (recorded lo hi f : SubChange E) c.lo c.hi c.perm i = .error .arrayIndexOutOfBounds := by
    -- the first index behind the lower range is in none of them
    by_cases habove : hi < c.lo
    · refine ⟨hi, mem_intRange.mpr ⟨by omega, by omega⟩, ?_⟩
      rw [composeAt_outside (Or.inr le_rfl), readAt_outside (by omega)]
    · refine ⟨c.hi, mem_intRange.mpr ⟨by omega, by omega⟩, ?_⟩
      rw [composeAt_outside (Or.inl (by omega)), readAt_outside (by omega)]
  have hmapM := mapM_error hfails (by
    intro i hmem e he
    by_cases hout : i < lo ∨ i ≥ hi
    · rw [composeAt_outside hout] at he
      exact readAt_error he
    · rw [composeAt_inside (by omega) (by omega)] at he
      by_cases hstay : f i < c.lo ∨ f i ≥ c.hi
      · rw [if_pos hstay] at he
        cases he
      · rw [if_neg hstay] at he
        exact readAt_error he)
  change Outcome.ofExcept _ _ ((intRange (min lo c.lo) (max hi c.hi)).mapM _) = _
  rw [hmapM]
  rfl

/-! ## Runs of calls -/

/-- A call of `nextPermutation` on the list of `n` elements. -/
def permute (c : PermutationCall n) (b : ListChangeBuilder E) : Outcome Exn (ListChangeBuilder E) :=
  b.nextPermutation c.lo c.hi c.perm n

/-- `kept` is the array object of a caller that `permutationChange` holds. -/
structure OpenBlock (E : Type) where
  builder : ListChangeBuilder E
  kept : Option Nat

/-- The array object that `permutationChange` holds after a call. -/
def keptBy (c : PermutationCall n) (s : OpenBlock E) : Option Nat :=
  match s.builder.permutationChange with
  | none => some c.array
  | some change => if c.lo = change.fromIdx ∧ c.hi = change.toIdx then s.kept else none

def permuteShared (c : PermutationCall n) (s : OpenBlock E) : Outcome Exn (OpenBlock E) :=
  (if s.kept = some c.array then s.builder.nextPermutationAgain c.lo c.hi n else permute c s.builder).map
    (fun b => ⟨b, keptBy c s⟩)

def permutationBlock (cs : List (PermutationCall n)) (b : ListChangeBuilder E) : Outcome Exn (ListChangeBuilder E) :=
  ((Outcome.run permuteShared cs ⟨b.beginChange, none⟩).map OpenBlock.builder).bind endChange

/-- When every call has an array object of its own, no array is read while it is
overwritten. -/
theorem run_permuteShared (cs : List (PermutationCall n)) (s : OpenBlock E)
    (hkept : ∀ c ∈ cs, s.kept ≠ some c.array) (hdistinct : (cs.map PermutationCall.array).Nodup) :
    (Outcome.run permuteShared cs s).map OpenBlock.builder = Outcome.run permute cs s.builder := by
  induction cs generalizing s with
  | nil => rfl
  | cons c cs ih =>
    rw [List.map_cons, List.nodup_cons] at hdistinct
    rw [Outcome.run_cons, Outcome.run_cons, permuteShared, if_neg (hkept c List.mem_cons_self)]
    cases permute c s.builder with
    | thrown x b => rfl
    | done b =>
      rw [Outcome.map_done, Outcome.bind_done, Outcome.bind_done]
      apply ih ⟨b, keptBy c s⟩ _ hdistinct.2
      intro c' hc' heq
      have hold : keptBy c s = some c.array ∨ keptBy c s = s.kept ∨ keptBy c s = none := by
        rw [keptBy]
        split
        · exact Or.inl rfl
        · split
          · exact Or.inr (Or.inl rfl)
          · exact Or.inr (Or.inr rfl)
      rcases hold with hnew | hsame | hnone
      · rw [hnew] at heq
        exact hdistinct.1 (List.mem_map.mpr ⟨c', hc', (Option.some.inj heq).symm⟩)
      · exact hkept c' (List.mem_cons_of_mem _ hc') (hsame.symm.trans heq)
      · rw [hnone] at heq
        cases heq

theorem permutationBlock_eq {cs : List (PermutationCall n)} (hdistinct : (cs.map PermutationCall.array).Nodup)
    (b : ListChangeBuilder E) : permutationBlock cs b = (Outcome.run permute cs b.beginChange).bind endChange := by
  rw [permutationBlock, run_permuteShared cs _ _ hdistinct]
  intro c _ heq
  cases heq

/-- The open block has recorded nothing but the map `f`. -/
structure Merging (lo hi : Int) (f : Int → Int) (b : ListChangeBuilder E) : Prop where
  lock : b.changeLock = 1
  addRemove : b.addRemove = []
  updates : b.updates = []
  permutation : b.permutationChange = some (recorded lo hi f)

theorem permute_eq {b : ListChangeBuilder E} (lock : b.changeLock = 1) (hadd : b.addRemove = []) (hupd : b.updates = [])
    (c : PermutationCall n) :
    permute c b = (mergePermutation c.lo c.hi c.perm b.permutationChange).map (fun p => { b with permutationChange := p }) := by
  have hpre : prePermutation c.lo c.hi c.perm n b.addRemove = .ok (c.lo, c.hi, c.perm) := by
    rw [hadd]
    rfl
  rw [permute, nextPermutation, if_neg (by omega), hpre]
  dsimp only
  cases mergePermutation c.lo c.hi c.perm b.permutationChange with
  | thrown x p => rfl
  | done p =>
    have hadd' : ({ b with permutationChange := p } : ListChangeBuilder E).addRemove = [] := hadd
    have hupd' : ({ b with permutationChange := p } : ListChangeBuilder E).updates = [] := hupd
    rw [Outcome.map_done, Outcome.bind_done, renewAddRemove, if_pos hadd', Outcome.bind_done, renewUpdates, if_pos hupd']

theorem permute_first {b : ListChangeBuilder E} (idle : Idle b) (c : PermutationCall n) :
    ∃ b', permute c b.beginChange = .done b' ∧ Merging c.lo c.hi c.move b' ∧ b'.fired = b.fired := by
  have hlock : b.beginChange.changeLock = 1 := congrArg (· + 1) idle.lock
  have hadd : b.beginChange.addRemove = [] := idle.addRemove
  have hupd : b.beginChange.updates = [] := idle.updates
  have hnone : b.beginChange.permutationChange = none := idle.permutation
  refine ⟨{ b.beginChange with permutationChange := some (recorded c.lo c.hi c.move) }, ?_, ⟨hlock, hadd, hupd, rfl⟩, rfl⟩
  rw [permute_eq hlock hadd hupd, hnone, mergePermutation, Outcome.map_done]
  congr 3
  exact congrArg (fun p => (⟨c.lo, c.hi, none, p, false⟩ : SubChange E)) c.perm_eq

theorem permute_touching {b : ListChangeBuilder E} (hb : Merging lo hi f b) (h : MovesWithin n lo hi f)
    (c : PermutationCall n) (h1 : c.lo ≤ hi) (h2 : lo ≤ c.hi) :
    ∃ b', permute c b = .done b' ∧ Merging (min lo c.lo) (max hi c.hi) (fun i => c.move (f i)) b' ∧ b'.fired = b.fired := by
  refine ⟨{ b with permutationChange := some (recorded (min lo c.lo) (max hi c.hi) fun i => c.move (f i)) }, ?_,
    ⟨hb.lock, hb.addRemove, hb.updates, rfl⟩, rfl⟩
  rw [permute_eq hb.lock hb.addRemove hb.updates, hb.permutation, mergePermutation_touching c h h1 h2]
  rfl

theorem permute_apart {b : ListChangeBuilder E} (hb : Merging lo hi f b) (h : MovesWithin n lo hi f)
    (c : PermutationCall n) (hgap : ¬ (c.lo ≤ hi ∧ lo ≤ c.hi)) :
    ∃ b', permute c b = .thrown .arrayIndexOutOfBounds b' := by
  refine ⟨{ b with permutationChange := some (recorded lo hi f) }, ?_⟩
  rw [permute_eq hb.lock hb.addRemove hb.updates, hb.permutation, mergePermutation_apart c h hgap]
  rfl

open PermutationCall in
theorem run_touching (cs : List (PermutationCall n)) {b : ListChangeBuilder E} (hb : Merging lo hi f b)
    (h : MovesWithin n lo hi f) (ht : Touching lo hi cs) :
    ∃ b' lo' hi', Outcome.run permute cs b = .done b' ∧ Merging lo' hi' (fun i => moves cs (f i)) b' ∧
      MovesWithin n lo' hi' (fun i => moves cs (f i)) ∧ b'.fired = b.fired := by
  induction cs generalizing b lo hi f with
  | nil => exact ⟨b, lo, hi, rfl, hb, h, rfl⟩
  | cons c cs ih =>
    obtain ⟨h1, h2, hrest⟩ := ht
    obtain ⟨b1, hcall, hb1, hfired1⟩ := permute_touching hb h c h1 h2
    obtain ⟨b2, lo', hi', hrun, hb2, hmoves, hfired2⟩ := ih hb1 (c.movesWithin_hull h h1 h2) hrest
    refine ⟨b2, lo', hi', ?_, hb2, hmoves, hfired2.trans hfired1⟩
    rw [Outcome.run_cons, hcall, Outcome.bind_done, hrun]

open PermutationCall in
theorem run_apart (cs : List (PermutationCall n)) {b : ListChangeBuilder E} (hb : Merging lo hi f b)
    (h : MovesWithin n lo hi f) (ht : ¬ Touching lo hi cs) :
    ∃ b', Outcome.run permute cs b = .thrown .arrayIndexOutOfBounds b' := by
  induction cs generalizing b lo hi f with
  | nil => exact absurd trivial ht
  | cons c cs ih =>
    by_cases hgap : c.lo ≤ hi ∧ lo ≤ c.hi
    · obtain ⟨b1, hcall, hb1, -⟩ := permute_touching hb h c hgap.1 hgap.2
      obtain ⟨b2, hrun⟩ := ih hb1 (c.movesWithin_hull h hgap.1 hgap.2) (fun hrest => ht ⟨hgap.1, hgap.2, hrest⟩)
      exact ⟨b2, by rw [Outcome.run_cons, hcall, Outcome.bind_done, hrun]⟩
    · obtain ⟨b1, hcall⟩ := permute_apart hb h c hgap
      exact ⟨b1, by rw [Outcome.run_cons, hcall, Outcome.bind_thrown]⟩

theorem endChange_merging {b : ListChangeBuilder E} (hb : Merging lo hi f b) :
    ∃ b', b.endChange = .done b' ∧ b'.fired = b.fired ++ [[⟨lo, hi, some [], (intRange lo hi).map f, false⟩]] := by
  obtain ⟨lock, addRemoveChanges, updateChanges, permutationChange, fired⟩ := b
  obtain ⟨rfl, hadd, hupd, rfl⟩ := hb
  simp only [addRemove, updates] at hadd hupd
  simp [endChange, commit, commitChange, addRemove, updates, hadd, hupd, finalizeSubChange, SubChange.getRemoved, recorded]

open PermutationCall in
/-- No call of the block throws, and the one permutation that is fired leads every
index to where its element is after all calls. -/
def FiresComposition (cs : List (PermutationCall n)) (b : ListChangeBuilder E) : Prop :=
  ∃ b', permutationBlock cs b = .done b' ∧
    (cs = [] ∧ b'.fired = b.fired ∨
      ∃ lo hi perm, b'.fired = b.fired ++ [[⟨lo, hi, some [], perm, false⟩]] ∧ ∀ i, rangeMap lo perm i = moves cs i)

open PermutationCall in
/-- The permutations of a block, in different array objects, are merged exactly when
each range touches the hull of the ranges before it. -/
theorem firesComposition_iff {b : ListChangeBuilder E} (idle : Idle b) (cs : List (PermutationCall n))
    (hdistinct : (cs.map PermutationCall.array).Nodup) : FiresComposition cs b ↔ Connected cs := by
  rw [FiresComposition, permutationBlock_eq hdistinct]
  cases cs with
  | nil =>
      refine iff_of_true ⟨b, ?_, Or.inl ⟨rfl, rfl⟩⟩ trivial
      rw [Outcome.run_nil, Outcome.bind_done, fired_nothing idle]
  | cons c cs =>
      obtain ⟨b1, hcall, hb1, hfired1⟩ := permute_first idle c
      constructor
      · intro hfires
        by_contra hapart
        obtain ⟨b', hblock, -⟩ := hfires
        obtain ⟨b2, hrun⟩ := run_apart cs hb1 c.movesWithin hapart
        rw [Outcome.run_cons, hcall, Outcome.bind_done, hrun] at hblock
        cases hblock
      · intro htouch
        obtain ⟨b2, lo, hi, hrun, hb2, hmoves, hfired2⟩ := run_touching cs hb1 c.movesWithin htouch
        obtain ⟨b3, hend, hfired3⟩ := endChange_merging hb2
        refine ⟨b3, ?_, Or.inr ⟨lo, hi, (intRange lo hi).map fun i => moves cs (c.move i), ?_, ?_⟩⟩
        · rw [Outcome.run_cons, hcall, Outcome.bind_done, hrun, Outcome.bind_done, hend]
        · rw [hfired3, hfired2, hfired1]
        · intro i
          change _ = moves cs (c.move i)
          by_cases hin : lo ≤ i ∧ i < hi
          · exact rangeMap_map hin.1 hin.2
          · rw [hmoves.outside i (by omega)]
            have hlen : ((intRange lo hi).map fun i => moves cs (c.move i)).length = (hi - lo).toNat := by
              rw [List.length_map, intRange_length]
            have hle := hmoves.le
            exact rangeMap_outside (by omega)

/-- Two swaps of overlapping ranges. -/
theorem firesComposition_iff_overlap :
    FiresComposition [(⟨0, [1, 0], 0, by decide, by decide, by decide⟩ : PermutationCall 3),
        ⟨1, [2, 1], 1, by decide, by decide, by decide⟩] (new : ListChangeBuilder Nat) ↔
      PermutationCall.Connected [(⟨0, [1, 0], 0, by decide, by decide, by decide⟩ : PermutationCall 3),
        ⟨1, [2, 1], 1, by decide, by decide, by decide⟩] :=
  firesComposition_iff idle_new _ (by decide)

/-- The swaps of the first two and the last two elements of six: the second call
reads the index 2, which is in neither range.  And one array object with a rotation
that is passed twice: what is fired is no permutation. -/
theorem disjoint_swaps_thrown :
    (permutationBlock [(⟨0, [1, 0], 0, by decide, by decide, by decide⟩ : PermutationCall 6),
        ⟨4, [5, 4], 1, by decide, by decide, by decide⟩] (new : ListChangeBuilder Nat) =
      .thrown .arrayIndexOutOfBounds ⟨1, none, none, some ⟨0, 2, none, [1, 0], false⟩, []⟩) ∧
    ¬ FiresComposition [(⟨0, [1, 0], 0, by decide, by decide, by decide⟩ : PermutationCall 6),
        ⟨4, [5, 4], 1, by decide, by decide, by decide⟩] (new : ListChangeBuilder Nat) ∧
    permutationBlock [(⟨0, [1, 2, 0], 0, by decide, by decide, by decide⟩ : PermutationCall 3),
        ⟨0, [1, 2, 0], 0, by decide, by decide, by decide⟩] (new : ListChangeBuilder Nat) =
      .done ⟨0, none, none, none, [[⟨0, 3, some [], [2, 0, 2], false⟩]]⟩ := by
  have hblock : permutationBlock [(⟨0, [1, 0], 0, by decide, by decide, by decide⟩ : PermutationCall 6),
        ⟨4, [5, 4], 1, by decide, by decide, by decide⟩] (new : ListChangeBuilder Nat) =
      .thrown .arrayIndexOutOfBounds ⟨1, none, none, some ⟨0, 2, none, [1, 0], false⟩, []⟩ := by
    decide +kernel
  refine ⟨hblock, ?_, by decide +kernel⟩
  rintro ⟨b', hdone, -⟩
  rw [hblock] at hdone
  cases hdone

end ListChangeBuilder
end OpenJfx.Collections
