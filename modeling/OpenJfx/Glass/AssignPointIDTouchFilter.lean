import OpenJfx.Lib.Java
import OpenJfx.Lib.Run
import Mathlib.Data.List.Nodup

/-! # `AssignPointIDTouchFilter`

A point that is still to be matched stands beside `false`: the entries of `mappedIndices` up to
the number of points.  No result is an index of -1, which the assertions exclude. -/
set_option autoImplicit false
namespace OpenJfx.Glass
open OpenJfx.Lib

/-! ## `IntSet` -/

namespace IntSet

def getIndex (value : Int) : Int → List Int → Int
  | i, [] => -i - 1
  | i, e :: elements => if e = value then i else if e > value then -i - 1 else getIndex value (i + 1) elements

def addInt (value : Int) (elements : List Int) : List Int :=
  let i := getIndex value 0 elements
  if i < 0 then elements.take (-1 - i).toNat ++ value :: elements.drop (-1 - i).toNat else elements

def removeInt (value : Int) (elements : List Int) : List Int :=
  let i := getIndex value 0 elements
  if i ≥ 0 then elements.eraseIdx i.toNat else elements

abbrev Sorted (elements : List Int) : Prop := elements.Pairwise (· < ·)

theorem getIndex_spec {value : Int} {elements : List Int} (h : Sorted elements) (i : Int) :
    (∃ front back, elements = front ++ value :: back ∧ getIndex value i elements = i + front.length) ∨
    ∃ front back, elements = front ++ back ∧ getIndex value i elements = -(i + front.length) - 1 ∧
      (∀ e ∈ front, e < value) ∧ ∀ e ∈ back, value < e := by
  induction elements generalizing i with
  | nil => exact Or.inr ⟨[], [], rfl, by simp [getIndex], by simp, by simp⟩
  | cons e elements ih =>
    obtain ⟨hfirst, hrest⟩ := List.pairwise_cons.mp h
    rw [getIndex]
    by_cases heq : e = value
    · rw [if_pos heq, heq]
      exact Or.inl ⟨[], elements, rfl, by simp⟩
    · rw [if_neg heq]
      by_cases hgt : e > value
      · rw [if_pos hgt]
        refine Or.inr ⟨[], e :: elements, rfl, by simp, by simp, fun e' he' => ?_⟩
        rcases List.mem_cons.mp he' with rfl | hlater
        · exact hgt
        · exact Int.lt_trans hgt (hfirst e' hlater)
      · rw [if_neg hgt]
        rcases ih hrest (i + 1) with ⟨front, back, hsplit, hindex⟩ | ⟨front, back, hsplit, hindex, hless, hmore⟩
        · refine Or.inl ⟨e :: front, back, by rw [hsplit]; rfl, ?_⟩
          rw [hindex, List.length_cons]
          omega
        · refine Or.inr ⟨e :: front, back, by rw [hsplit]; rfl, ?_, fun e' he' => ?_, hmore⟩
          · rw [hindex, List.length_cons]
            omega
          · rcases List.mem_cons.mp he' with rfl | hlater
            · omega
            · exact hless e' hlater

theorem addInt_spec {value : Int} {elements : List Int} (h : Sorted elements) :
    Sorted (addInt value elements) ∧ ∀ e, e ∈ addInt value elements ↔ e = value ∨ e ∈ elements := by
  rw [addInt]
  rcases getIndex_spec h 0 with ⟨front, back, hsplit, hindex⟩ | ⟨front, back, hsplit, hindex, hless, hmore⟩
  · rw [hindex, if_neg (by omega)]
    refine ⟨h, fun e => ⟨Or.inr, fun he => he.elim (fun heq => ?_) id⟩⟩
    rw [heq, hsplit]
    simp
  · have hposition : (-1 - (-(0 + (front.length : Int)) - 1)).toNat = front.length := by omega
    rw [hindex, if_pos (by omega), hposition, hsplit, List.take_left', List.drop_left']
    · rw [hsplit, Sorted, List.pairwise_append] at h
      refine ⟨List.pairwise_append.mpr ⟨h.1, List.pairwise_cons.mpr ⟨hmore, h.2.1⟩, fun a ha b hb => ?_⟩, fun e => ?_⟩
      · rcases List.mem_cons.mp hb with rfl | hb
        · exact hless a ha
        · exact h.2.2 a ha b hb
      · rw [List.mem_append, List.mem_cons, List.mem_append]
        exact or_left_comm
    · rfl
    · rfl

theorem removeInt_spec {value : Int} {elements : List Int} (h : Sorted elements) :
    Sorted (removeInt value elements) ∧ ∀ e, e ∈ removeInt value elements ↔ e ∈ elements ∧ e ≠ value := by
  rw [removeInt]
  rcases getIndex_spec h 0 with ⟨front, back, hsplit, hindex⟩ | ⟨front, back, hsplit, hindex, hless, hmore⟩
  · have hposition : (0 + (front.length : Int)).toNat = front.length := by omega
    have herase : elements.eraseIdx front.length = front ++ back := by
      rw [hsplit, List.eraseIdx_append_of_length_le (Nat.le_refl _), Nat.sub_self]
      rfl
    rw [hindex, if_pos (by omega), hposition, herase]
    rw [hsplit, Sorted, List.pairwise_append, List.pairwise_cons] at h
    refine ⟨List.pairwise_append.mpr ⟨h.1, h.2.1.2, fun a ha b hb => h.2.2 a ha b (List.mem_cons_of_mem _ hb)⟩, fun e => ?_⟩
    rw [hsplit, List.mem_append, List.mem_append, List.mem_cons]
    constructor
    · rintro (he | he)
      · exact ⟨Or.inl he, Int.ne_of_lt (h.2.2 e he value (List.mem_cons_self ..))⟩
      · exact ⟨Or.inr (Or.inr he), (Int.ne_of_lt (h.2.1.1 e he)).symm⟩
    · rintro ⟨he | heq | he, hne⟩
      · exact Or.inl he
      · exact absurd heq hne
      · exact Or.inr he
  · rw [hindex, if_neg (by omega)]
    refine ⟨h, fun e => ⟨fun he => ⟨he, fun heq => ?_⟩, And.left⟩⟩
    rw [hsplit, List.mem_append, heq] at he
    rcases he with he | he
    · exact Int.lt_irrefl _ (hless value he)
    · exact Int.lt_irrefl _ (hmore value he)

end IntSet

/-! ## The filter -/

/-- `TouchState.Point`. -/
structure Point where
  id : Int
  x : Int
  y : Int
deriving DecidableEq, Repr

def getPointForID (id : Int) (points : List Point) : Option Point := points.find? fun p => id = -1 || p.id = id

structure AssignPointIDTouchFilter where
  oldState : List Point
  ids : List Int
  nextID : Int
deriving DecidableEq, Repr

namespace AssignPointIDTouchFilter

def new : AssignPointIDTouchFilter := ⟨[], [], 1⟩

/-- The filter after `acquireID`, which returns the old `nextID`. -/
def acquireID (f : AssignPointIDTouchFilter) : AssignPointIDTouchFilter :=
  { f with ids := IntSet.addInt f.nextID f.ids, nextID := wrapInt (f.nextID + 1) }

def releaseID (id : Int) (f : AssignPointIDTouchFilter) : AssignPointIDTouchFilter :=
  let ids := IntSet.removeInt id f.ids
  { f with ids := ids, nextID := ids.foldl (fun nextID i => max (wrapInt (i + 1)) nextID) 1 }

def distanceSquared (x y : Int) (p : Point) : Int :=
  wrapInt (wrapInt (x - p.x) * wrapInt (x - p.x) + wrapInt (y - p.y) * wrapInt (y - p.y))

/-- The loop that finds the closest point which is not mapped yet. -/
def closest (x y : Int) : Nat → Option Nat → Int → List (Point × Bool) → Option Nat
  | _, mappedIndex, _, [] => mappedIndex
  | j, mappedIndex, closestDistanceSquared, entry :: rest =>
      if entry.2 = false ∧ distanceSquared x y entry.1 < closestDistanceSquared then
        closest x y (j + 1) (some j) (distanceSquared x y entry.1) rest
      else closest x y (j + 1) mappedIndex closestDistanceSquared rest

def findClosest (p : Point) (entries : List (Point × Bool)) : Option Nat := closest p.x p.y 0 none (2 ^ 31 - 1) entries

def keepIDs : List Point → List (Point × Bool) → Option (List (Point × Bool))
  | [], entries => some entries
  | oldPoint :: rest, entries =>
      (findClosest oldPoint entries).bind fun j =>
        keepIDs rest (entries.modify j fun entry => ({ entry.1 with id := oldPoint.id }, true))

def acquireIDs : List (Point × Bool) → AssignPointIDTouchFilter → List Point × AssignPointIDTouchFilter
  | [], f => ([], f)
  | (p, true) :: rest, f => (p :: (acquireIDs rest f).1, (acquireIDs rest f).2)
  | (p, false) :: rest, f => ({ p with id := f.nextID } :: (acquireIDs rest f.acquireID).1, (acquireIDs rest f.acquireID).2)

def inheritIDs : List Point → List (Point × Bool) → Option (List Point)
  | [], _ => some []
  | newPoint :: rest, entries =>
      (findClosest newPoint entries).bind fun j => entries[j]?.bind fun entry =>
        (inheritIDs rest (entries.modify j fun entry => (entry.1, true))).map fun points =>
          { newPoint with id := entry.1.id } :: points

def unmapped (points : List Point) : List (Point × Bool) := points.map fun p => (p, false)

def assign (points : List Point) (f : AssignPointIDTouchFilter) : Option (List Point × AssignPointIDTouchFilter) :=
  if f.oldState.length = 0 then some (acquireIDs (unmapped points) f)
  else if points.length ≥ f.oldState.length then
    (keepIDs f.oldState (unmapped points)).map fun entries =>
      if f.oldState.length < points.length then acquireIDs entries f else (entries.map Prod.fst, f)
  else (inheritIDs points (unmapped f.oldState)).map fun points => (points, f)

/-- The ids of the old points that are not in use any more are released. -/
def releaseUnused (points : List Point) (f : AssignPointIDTouchFilter) : AssignPointIDTouchFilter :=
  f.oldState.foldl (fun f oldPoint => match getPointForID oldPoint.id points with
    | none => f.releaseID oldPoint.id
    | some _ => f) f

def filter (points : List Point) (f : AssignPointIDTouchFilter) : Option (List Point × AssignPointIDTouchFilter) :=
  (assign points f).map fun assigned =>
    (assigned.1, { releaseUnused assigned.1 assigned.2 with oldState := assigned.1 })

/-! ## A match is always found -/

theorem bmod_mod_eight (v : Int) : wrapInt v % 8 = v % 8 := by
  rw [wrapInt, Int.bmod_def]
  split <;> omega

theorem distanceSquared_lt (x y : Int) (p : Point) : distanceSquared x y p < 2 ^ 31 - 1 := by
  have hsquare : ∀ a : Int, (a * a) % 8 = 0 ∨ (a * a) % 8 = 1 ∨ (a * a) % 8 = 4 := by
    intro a
    have h : a % 8 = 0 ∨ a % 8 = 1 ∨ a % 8 = 2 ∨ a % 8 = 3 ∨ a % 8 = 4 ∨ a % 8 = 5 ∨ a % 8 = 6 ∨ a % 8 = 7 := by omega
    rcases h with h | h | h | h | h | h | h | h <;> simp [Int.mul_emod, h]
  have hmod := bmod_mod_eight (wrapInt (x - p.x) * wrapInt (x - p.x) + wrapInt (y - p.y) * wrapInt (y - p.y))
  have hbound : distanceSquared x y p < 2 ^ 31 := by
    rw [distanceSquared, wrapInt]
    exact Int.bmod_lt (by decide)
  rw [distanceSquared] at hbound ⊢
  have hx := hsquare (wrapInt (x - p.x))
  have hy := hsquare (wrapInt (y - p.y))
  omega

theorem closest_spec {x y : Int} {entries : List (Point × Bool)} {j : Nat} {mappedIndex : Option Nat} {distance : Int} :
    (closest x y j mappedIndex distance entries = mappedIndex ∧
      ∀ entry ∈ entries, entry.2 = false → distance ≤ distanceSquared x y entry.1) ∨
    ∃ front p back, entries = front ++ (p, false) :: back ∧
      closest x y j mappedIndex distance entries = some (j + front.length) := by
  induction entries generalizing j mappedIndex distance with
  | nil => exact Or.inl ⟨rfl, by simp⟩
  | cons entry rest ih =>
    obtain ⟨p, mapped⟩ := entry
    have hshift : ∀ front q back (index : Option Nat) (d : Int), rest = front ++ (q, false) :: back →
        closest x y (j + 1) index d rest = some (j + 1 + front.length) →
        ∃ front' q' back', (p, mapped) :: rest = front' ++ (q', false) :: back' ∧
          closest x y (j + 1) index d rest = some (j + front'.length) := by
      intro front q back index d hsplit hfound
      refine ⟨(p, mapped) :: front, q, back, by rw [hsplit]; rfl, ?_⟩
      rw [hfound, List.length_cons, Nat.add_right_comm, Nat.add_assoc]
    rw [closest]
    by_cases hcloser : mapped = false ∧ distanceSquared x y p < distance
    · rw [if_pos hcloser]
      rcases @ih (j + 1) (some j) (distanceSquared x y p) with ⟨hfound, -⟩ | ⟨front, q, back, hsplit, hfound⟩
      · exact Or.inr ⟨[], p, rest, by rw [hcloser.1]; rfl, by rw [hfound]; rfl⟩
      · exact Or.inr (hshift front q back _ _ hsplit hfound)
    · rw [if_neg hcloser]
      rcases @ih (j + 1) mappedIndex distance with ⟨hfound, hfar⟩ | ⟨front, q, back, hsplit, hfound⟩
      · refine Or.inl ⟨hfound, fun entry hentry hfalse => ?_⟩
        rcases List.mem_cons.mp hentry with rfl | hlater
        · exact Int.not_lt.mp fun hlt => hcloser ⟨hfalse, hlt⟩
        · exact hfar entry hlater hfalse
      · exact Or.inr (hshift front q back _ _ hsplit hfound)

theorem findClosest_spec {p : Point} {entries : List (Point × Bool)} (h : ∃ entry ∈ entries, entry.2 = false) :
    ∃ front q back, entries = front ++ (q, false) :: back ∧ findClosest p entries = some front.length := by
  rcases @closest_spec p.x p.y entries 0 none (2 ^ 31 - 1) with ⟨-, hfar⟩ | ⟨front, q, back, hsplit, hfound⟩
  · obtain ⟨entry, hentry, hfalse⟩ := h
    have := hfar entry hentry hfalse
    have := distanceSquared_lt p.x p.y entry.1
    omega
  · exact ⟨front, q, back, hsplit, by rw [findClosest, hfound, Nat.zero_add]⟩

/-! ## The ids of the points -/

/-- The ids of the points that are mapped, and those of the others. -/
def mappedIDs (entries : List (Point × Bool)) : List Int := (entries.filter fun entry => entry.2).map fun entry => entry.1.id
def unmappedIDs (entries : List (Point × Bool)) : List Int := (entries.filter fun entry => !entry.2).map fun entry => entry.1.id

def place (p : Point) : Int × Int := (p.x, p.y)

theorem modify_split {α : Type} (front back : List α) (a : α) (g : α → α) :
    (front ++ a :: back).modify front.length g = front ++ g a :: back := by
  induction front with
  | nil => rfl
  | cons b front ih => rw [List.cons_append, List.length_cons, List.modify_succ_cons, ih, List.cons_append]

theorem mappedIDs_split (front back : List (Point × Bool)) (p : Point) :
    (mappedIDs (front ++ (p, true) :: back)).Perm (p.id :: mappedIDs (front ++ back)) ∧
      ∀ q, mappedIDs (front ++ (q, false) :: back) = mappedIDs (front ++ back) := by
  constructor
  · simp only [mappedIDs, List.filter_append, List.filter_cons, List.map_append, if_true, List.map_cons]
    exact List.perm_middle
  · intro q
    simp [mappedIDs, List.filter_append]

theorem unmappedIDs_split (front back : List (Point × Bool)) (p : Point) :
    (unmappedIDs (front ++ (p, false) :: back)).Perm (p.id :: unmappedIDs (front ++ back)) ∧
      ∀ q, unmappedIDs (front ++ (q, true) :: back) = unmappedIDs (front ++ back) := by
  constructor
  · simp only [unmappedIDs, List.filter_append, List.filter_cons, List.map_append, Bool.not_false, if_true, List.map_cons]
    exact List.perm_middle
  · intro q
    simp [unmappedIDs, List.filter_append]

theorem exists_unmapped {entries : List (Point × Bool)} (h : 0 < (unmappedIDs entries).length) :
    ∃ entry ∈ entries, entry.2 = false := by
  obtain ⟨id, hid⟩ := List.exists_mem_of_length_pos h
  obtain ⟨entry, hentry, -⟩ := List.mem_map.mp hid
  obtain ⟨hmem, hfalse⟩ := List.mem_filter.mp hentry
  exact ⟨entry, hmem, by simpa using hfalse⟩

theorem keepIDs_spec {old : List Point} {entries : List (Point × Bool)} (h : old.length ≤ (unmappedIDs entries).length) :
    ∃ result, keepIDs old entries = some result ∧ (mappedIDs result).Perm (old.map Point.id ++ mappedIDs entries) ∧
      (unmappedIDs result).length = (unmappedIDs entries).length - old.length ∧
      (result.map Prod.fst).map place = (entries.map Prod.fst).map place := by
  induction old generalizing entries with
  | nil => exact ⟨entries, rfl, List.Perm.refl _, rfl, rfl⟩
  | cons oldPoint rest ih =>
    rw [List.length_cons] at h
    obtain ⟨front, q, back, hsplit, hfound⟩ := @findClosest_spec oldPoint entries (exists_unmapped (by omega))
    obtain ⟨hmapped, hunchanged⟩ := mappedIDs_split front back { q with id := oldPoint.id }
    obtain ⟨hunmapped, hleft⟩ := unmappedIDs_split front back q
    have hlength := hunmapped.length_eq
    rw [List.length_cons, ← hsplit] at hlength
    obtain ⟨result, hresult, hperm, hcount, hplaces⟩ :=
      @ih (front ++ ({ q with id := oldPoint.id }, true) :: back) (by rw [hleft]; omega)
    refine ⟨result, ?_, ?_, ?_, ?_⟩
    · rw [keepIDs, hfound, Option.bind_some, hsplit, modify_split]
      exact hresult
    · refine hperm.trans ?_
      rw [hsplit, hunchanged q, List.map_cons, List.cons_append]
      exact (hmapped.append_left _).trans List.perm_middle
    · rw [hcount, hleft, List.length_cons]
      omega
    · rw [hplaces, hsplit]
      simp [place]

theorem inheritIDs_spec {points : List Point} {entries : List (Point × Bool)}
    (h : points.length ≤ (unmappedIDs entries).length) :
    ∃ result rest, inheritIDs points entries = some result ∧ (result.map Point.id ++ rest).Perm (unmappedIDs entries) ∧
      result.map place = points.map place := by
  induction points generalizing entries with
  | nil => exact ⟨[], unmappedIDs entries, rfl, List.Perm.refl _, rfl⟩
  | cons newPoint points ih =>
    rw [List.length_cons] at h
    obtain ⟨front, q, back, hsplit, hfound⟩ := @findClosest_spec newPoint entries (exists_unmapped (by omega))
    obtain ⟨hunmapped, hleft⟩ := unmappedIDs_split front back q
    have hlength := hunmapped.length_eq
    rw [List.length_cons, ← hsplit] at hlength
    obtain ⟨result, rest, hresult, hperm, hplaces⟩ := @ih (front ++ (q, true) :: back) (by rw [hleft]; omega)
    refine ⟨{ newPoint with id := q.id } :: result, rest, ?_, ?_, ?_⟩
    · have hget : entries[front.length]? = some (q, false) := by
        rw [hsplit, List.getElem?_append_right (Nat.le_refl _), Nat.sub_self]
        rfl
      rw [inheritIDs, hfound, Option.bind_some, hget, Option.bind_some, hsplit, modify_split, hresult]
      rfl
    · rw [hleft q] at hperm
      rw [hsplit]
      exact (hperm.cons q.id).trans hunmapped.symm
    · rw [List.map_cons, List.map_cons, hplaces]
      rfl

/-- The next `k` ids. -/
def fresh (k : Nat) (f : AssignPointIDTouchFilter) : List Int := (List.range k).map fun (i : Nat) => f.nextID + i

theorem mem_fresh {k : Nat} {f : AssignPointIDTouchFilter} {e : Int} :
    e ∈ fresh k f ↔ f.nextID ≤ e ∧ e < f.nextID + k := by
  rw [fresh, List.mem_map]
  constructor
  · intro h
    obtain ⟨i, hi, rfl⟩ := h
    have := List.mem_range.mp hi
    omega
  · intro h
    exact ⟨(e - f.nextID).toNat, List.mem_range.mpr (by omega), by omega⟩

theorem fresh_succ {k : Nat} {f : AssignPointIDTouchFilter} (h : 0 < k → f.nextID + 1 < 2 ^ 31) (hpos : 1 ≤ f.nextID) :
    fresh (k + 1) f = f.nextID :: fresh k f.acquireID := by
  rw [fresh, List.range_succ_eq_map, List.map_cons, List.map_map, fresh]
  congr 1
  · simp
  · refine List.map_congr_left fun i hi => ?_
    have hk := List.mem_range.mp hi
    rw [Function.comp_apply, acquireID, wrapInt_of_lt (by omega) (h (by omega))]
    push_cast
    omega

theorem acquireIDs_spec {entries : List (Point × Bool)} {f : AssignPointIDTouchFilter} (hsorted : IntSet.Sorted f.ids)
    {k : Nat} (hk : (unmappedIDs entries).length = k) (hroom : 0 < k → 1 ≤ f.nextID ∧ f.nextID + k ≤ 2 ^ 31) :
    ((acquireIDs entries f).1.map Point.id).Perm (mappedIDs entries ++ fresh k f) ∧
      (acquireIDs entries f).1.map place = (entries.map Prod.fst).map place ∧
      (acquireIDs entries f).2.oldState = f.oldState ∧
      (acquireIDs entries f).2.nextID = (if k = 0 then f.nextID else wrapInt (f.nextID + k)) ∧
      IntSet.Sorted (acquireIDs entries f).2.ids ∧
      ∀ e, e ∈ (acquireIDs entries f).2.ids ↔ e ∈ f.ids ∨ e ∈ fresh k f := by
  induction entries generalizing f k with
  | nil =>
    subst hk
    exact ⟨List.Perm.refl _, rfl, rfl, rfl, hsorted, fun e => ⟨Or.inl, fun h => h.resolve_right List.not_mem_nil⟩⟩
  | cons entry rest ih =>
    obtain ⟨p, mapped⟩ := entry
    cases mapped with
    | true =>
      obtain ⟨hperm, hplaces, hold, hnext, hsorted', hmem⟩ := @ih f hsorted k hk hroom
      rw [acquireIDs]
      refine ⟨?_, ?_, hold, hnext, hsorted', hmem⟩
      · exact hperm.cons p.id
      · rw [List.map_cons, hplaces]
        rfl
    | false =>
      have hcount : (unmappedIDs ((p, false) :: rest)).length = (unmappedIDs rest).length + 1 := rfl
      obtain ⟨k, rfl⟩ : ∃ n, k = n + 1 := ⟨(unmappedIDs rest).length, by omega⟩
      obtain ⟨hpos, hlast⟩ := hroom (Nat.succ_pos k)
      have hnextID : 0 < k → f.acquireID.nextID = f.nextID + 1 := fun hk => wrapInt_of_lt (by omega) (by push_cast at hlast; omega)
      obtain ⟨hadd, hmemadd⟩ := @IntSet.addInt_spec f.nextID f.ids hsorted
      obtain ⟨hperm, hplaces, hold, hnext, hsorted', hmem⟩ := @ih f.acquireID hadd k (by omega) fun hk => by
        rw [hnextID hk]
        push_cast at hlast
        omega
      have hfresh := @fresh_succ k f (fun hk => by push_cast at hlast; omega) hpos
      rw [acquireIDs, hfresh]
      refine ⟨?_, ?_, hold, ?_, hsorted', fun e => ?_⟩
      · exact (hperm.cons f.nextID).trans List.perm_middle.symm
      · rw [List.map_cons, hplaces]
        rfl
      · rw [if_neg (Nat.succ_ne_zero k)]
        dsimp only
        rw [hnext]
        split
        · rename_i hzero
          rw [hzero]
          rfl
        · rw [hnextID (by omega)]
          congr 1
          push_cast
          omega
      · dsimp only
        rw [hmem, List.mem_cons]
        change e ∈ IntSet.addInt f.nextID f.ids ∨ _ ↔ _
        rw [hmemadd]
        tauto

/-! ## One call -/

/-- The filter before and after a call: its ids are those in use, and they are positive `int`s
below `nextID`.  Only the largest `int` may be in use while `nextID` has started again. -/
structure Kept (f : AssignPointIDTouchFilter) : Prop where
  sorted : IntSet.Sorted f.ids
  used : ∀ e, e ∈ f.ids ↔ e ∈ f.oldState.map Point.id
  distinct : (f.oldState.map Point.id).Nodup
  positive : ∀ e ∈ f.ids, 0 < e ∧ e < 2 ^ 31
  next : 1 ≤ f.nextID → ∀ e ∈ f.ids, e < f.nextID ∨ e = 2 ^ 31 - 1

/-- The condition on a call that has more points than the one before: the ids that it hands
out, from `nextID` on, are positive `int`s, without the largest `int` while that is in use. -/
def Guard (points : List Point) (f : AssignPointIDTouchFilter) : Prop :=
  f.oldState.length < points.length → 1 ≤ f.nextID ∧
    f.nextID + (points.length - f.oldState.length) ≤ if (2 ^ 31 - 1 : Int) ∈ f.ids then 2 ^ 31 - 1 else 2 ^ 31

instance (points : List Point) (f : AssignPointIDTouchFilter) : Decidable (Guard points f) :=
  inferInstanceAs (Decidable (_ → _))

structure Stable (f : AssignPointIDTouchFilter) (points points' : List Point) (f' : AssignPointIDTouchFilter) : Prop where
  places : points'.map place = points.map place
  distinct : (points'.map Point.id).Nodup
  positive : ∀ p ∈ points', 0 < p.id
  used : ∀ e, e ∈ f'.ids ↔ e ∈ points'.map Point.id
  grow : f.oldState.length ≤ points.length → ∀ e ∈ f.oldState.map Point.id, (points'.map Point.id).count e = 1
  shrink : points.length < f.oldState.length → ∀ p ∈ points', p.id ∈ f.oldState.map Point.id

theorem unmapped_spec (points : List Point) : mappedIDs (unmapped points) = [] ∧
    unmappedIDs (unmapped points) = points.map Point.id ∧ (unmapped points).map Prod.fst = points := by
  induction points with
  | nil => exact ⟨rfl, rfl, rfl⟩
  | cons p points ih =>
    obtain ⟨h1, h2, h3⟩ := ih
    exact ⟨h1, congrArg (p.id :: ·) h2, congrArg (p :: ·) h3⟩

theorem assign_grow {points : List Point} {f : AssignPointIDTouchFilter} (hsorted : IntSet.Sorted f.ids) {k : Nat}
    (hk : points.length = f.oldState.length + k) (hroom : 0 < k → 1 ≤ f.nextID ∧ f.nextID + k ≤ 2 ^ 31) :
    ∃ points' f', assign points f = some (points', f') ∧ points'.map place = points.map place ∧
      (points'.map Point.id).Perm (f.oldState.map Point.id ++ fresh k f) ∧ f'.oldState = f.oldState ∧
      f'.nextID = (if k = 0 then f.nextID else wrapInt (f.nextID + k)) ∧ IntSet.Sorted f'.ids ∧
      ∀ e, e ∈ f'.ids ↔ e ∈ f.ids ∨ e ∈ fresh k f := by
  obtain ⟨hmapped, hunmapped, hpoints⟩ := unmapped_spec points
  rw [assign]
  by_cases hempty : f.oldState.length = 0
  · rw [if_pos hempty]
    have hcount : (unmappedIDs (unmapped points)).length = k := by
      rw [hunmapped, List.length_map]
      omega
    obtain ⟨hperm, hplaces, hrest⟩ := acquireIDs_spec hsorted hcount hroom
    rw [hpoints] at hplaces
    rw [hmapped] at hperm
    rw [List.length_eq_zero_iff.mp hempty]
    refine ⟨_, _, rfl, hplaces, hperm, ?_⟩
    rw [List.length_eq_zero_iff.mp hempty] at hrest
    exact hrest
  · obtain ⟨entries, hkeep, hperm, hcount, hplaces⟩ := @keepIDs_spec f.oldState (unmapped points) (by
      rw [hunmapped, List.length_map]
      omega)
    rw [hunmapped, List.length_map] at hcount
    rw [hpoints] at hplaces
    rw [hmapped, List.append_nil] at hperm
    rw [if_neg hempty, if_pos (by omega), hkeep, Option.map_some]
    by_cases hmore : f.oldState.length < points.length
    · rw [if_pos hmore]
      obtain ⟨hperm', hplaces', hrest⟩ := @acquireIDs_spec entries f hsorted k (by omega) hroom
      exact ⟨_, _, rfl, hplaces'.trans hplaces, hperm'.trans (hperm.append_right _), hrest⟩
    · have hzero : k = 0 := by omega
      subst hzero
      rw [if_neg hmore]
      have hall : mappedIDs entries = (entries.map Prod.fst).map Point.id := by
        have hnone : unmappedIDs entries = [] := List.length_eq_zero_iff.mp (by omega)
        rw [mappedIDs, List.filter_eq_self.mpr, List.map_map]
        · rfl
        · intro entry hentry
          by_contra hfalse
          have hmem : entry.1.id ∈ unmappedIDs entries :=
            List.mem_map.mpr ⟨entry, List.mem_filter.mpr ⟨hentry, by simpa using hfalse⟩, rfl⟩
          rw [hnone] at hmem
          exact absurd hmem List.not_mem_nil
      refine ⟨_, _, rfl, hplaces, ?_, rfl, rfl, hsorted, fun e => ⟨Or.inl, fun h => h.resolve_right List.not_mem_nil⟩⟩
      rw [← hall]
      exact hperm.trans (by rw [fresh]; simp)

theorem getPointForID_none {id : Int} (hid : 0 < id) {points : List Point} :
    getPointForID id points = none ↔ id ∉ points.map Point.id := by
  rw [getPointForID, List.find?_eq_none]
  constructor
  · intro h hmem
    obtain ⟨p, hp, heq⟩ := List.mem_map.mp hmem
    exact h p hp (by simp [heq])
  · intro h p hp heq
    simp only [Bool.or_eq_true, decide_eq_true_eq] at heq
    rcases heq with heq | heq
    · omega
    · exact h (List.mem_map.mpr ⟨p, hp, heq⟩)

theorem releaseID_next {ids : List Int} {n : Int} (hids : ∀ e ∈ ids, 0 < e ∧ e < 2 ^ 31) :
    n ≤ ids.foldl (fun nextID i => max (wrapInt (i + 1)) nextID) n ∧
      ∀ e ∈ ids, e < ids.foldl (fun nextID i => max (wrapInt (i + 1)) nextID) n ∨ e = 2 ^ 31 - 1 := by
  induction ids generalizing n with
  | nil => exact ⟨Int.le_refl _, by simp⟩
  | cons i ids ih =>
    obtain ⟨hle, hall⟩ := @ih (max (wrapInt (i + 1)) n) fun e he => hids e (List.mem_cons_of_mem _ he)
    rw [List.foldl_cons]
    refine ⟨by omega, fun e he => ?_⟩
    rcases List.mem_cons.mp he with rfl | hlater
    · obtain ⟨hpos, hlt⟩ := hids e (List.mem_cons_self ..)
      by_cases hlast : e = 2 ^ 31 - 1
      · exact Or.inr hlast
      · have hwrap : wrapInt (e + 1) = e + 1 := wrapInt_of_lt (by omega) (by omega)
        rw [hwrap] at hle
        rw [hwrap]
        exact Or.inl (by omega)
    · exact hall e hlater

/-- What the ids are like in the loop that releases some of them. -/
structure Released (f : AssignPointIDTouchFilter) : Prop where
  sorted : IntSet.Sorted f.ids
  positive : ∀ e ∈ f.ids, 0 < e ∧ e < 2 ^ 31
  next : 1 ≤ f.nextID → ∀ e ∈ f.ids, e < f.nextID ∨ e = 2 ^ 31 - 1

theorem Released.fold {points old : List Point} {f : AssignPointIDTouchFilter} (h : Released f) :
    Released (old.foldl (fun f oldPoint => match getPointForID oldPoint.id points with
      | none => f.releaseID oldPoint.id
      | some _ => f) f) ∧
    ∀ e, e ∈ (old.foldl (fun f oldPoint => match getPointForID oldPoint.id points with
      | none => f.releaseID oldPoint.id
      | some _ => f) f).ids ↔ e ∈ f.ids ∧ ∀ p ∈ old, p.id = e → getPointForID p.id points ≠ none := by
  induction old generalizing f with
  | nil => exact ⟨h, fun e => ⟨fun he => ⟨he, by simp⟩, And.left⟩⟩
  | cons oldPoint old ih =>
    rw [List.foldl_cons]
    cases hfound : getPointForID oldPoint.id points with
    | some p =>
      dsimp only
      obtain ⟨hreleased, hmem⟩ := ih h
      refine ⟨hreleased, fun e => ?_⟩
      rw [hmem, List.forall_mem_cons, hfound]
      simp
    | none =>
      dsimp only
      obtain ⟨hsorted, hremoved⟩ := @IntSet.removeInt_spec oldPoint.id f.ids h.sorted
      have hpositive : ∀ e ∈ IntSet.removeInt oldPoint.id f.ids, 0 < e ∧ e < 2 ^ 31 :=
        fun e he => h.positive e ((hremoved e).mp he).1
      obtain ⟨hreleased, hmem⟩ := @ih (f.releaseID oldPoint.id)
        ⟨hsorted, hpositive, fun _ e he => (releaseID_next hpositive).2 e he⟩
      refine ⟨hreleased, fun e => ?_⟩
      rw [hmem, List.forall_mem_cons, hfound]
      change e ∈ IntSet.removeInt oldPoint.id f.ids ∧ _ ↔ _
      rw [hremoved]
      constructor
      · intro hall
        exact ⟨hall.1.1, fun heq => absurd heq.symm hall.1.2, hall.2⟩
      · intro hall
        exact ⟨⟨hall.1, fun heq => hall.2.1 heq.symm rfl⟩, hall.2.2⟩

theorem Released.finish {points' old : List Point} {g : AssignPointIDTouchFilter} (h : Released g) (hold : g.oldState = old)
    (hdistinct : (points'.map Point.id).Nodup) (hin : ∀ e ∈ points'.map Point.id, e ∈ g.ids)
    (hout : ∀ e ∈ g.ids, e ∈ points'.map Point.id ∨ e ∈ old.map Point.id) :
    Kept { releaseUnused points' g with oldState := points' } := by
  obtain ⟨hreleased, hmem⟩ := @Released.fold points' old g h
  rw [← hold, ← releaseUnused] at hreleased hmem
  refine ⟨hreleased.sorted, fun e => ?_, hdistinct, hreleased.positive, hreleased.next⟩
  dsimp only
  rw [hmem]
  constructor
  · intro hleft
    rcases hout e hleft.1 with hpoint | hunused
    · exact hpoint
    · obtain ⟨p, hp, rfl⟩ := List.mem_map.mp hunused
      have hfound := hleft.2 p (by rw [hold]; exact hp) rfl
      rw [Ne, getPointForID_none (h.positive _ hleft.1).1, not_not] at hfound
      exact hfound
  · intro hpoint
    have hid := hin e hpoint
    refine ⟨hid, fun p _ heq => ?_⟩
    rw [heq, Ne, getPointForID_none (h.positive e hid).1, not_not]
    exact hpoint

theorem fresh_nodup (k : Nat) (f : AssignPointIDTouchFilter) : (fresh k f).Nodup := by
  refine List.Nodup.map (fun i j heq => ?_) List.nodup_range
  have : f.nextID + (i : Int) = f.nextID + j := heq
  omega

theorem Kept.grow {points : List Point} {f : AssignPointIDTouchFilter} (h : Kept f) (hguard : Guard points f)
    (hgrow : f.oldState.length ≤ points.length) :
    ∃ points' f', filter points f = some (points', f') ∧ Stable f points points' f' ∧ f'.oldState = points' ∧ Kept f' := by
  obtain ⟨k, hk⟩ := Nat.exists_eq_add_of_le hgrow
  have hguard' : 0 < k → 1 ≤ f.nextID ∧ f.nextID + k ≤ if (2 ^ 31 - 1 : Int) ∈ f.ids then 2 ^ 31 - 1 else 2 ^ 31 := by
    intro hpos
    obtain ⟨hnext, hroom⟩ := hguard (by omega)
    rw [show (points.length : Int) - f.oldState.length = k by omega] at hroom
    exact ⟨hnext, hroom⟩
  have hroom : 0 < k → 1 ≤ f.nextID ∧ f.nextID + k ≤ 2 ^ 31 := by
    intro hpos
    obtain ⟨hnext, hroom⟩ := hguard' hpos
    split at hroom <;> omega
  obtain ⟨points', g, hassign, hplaces, hperm, hold, hnext, hsorted, hmem⟩ := assign_grow h.sorted hk hroom
  -- the new ids are not in use
  have hunused : ∀ e ∈ fresh k f, e ∉ f.ids := by
    intro e he hin
    rw [mem_fresh] at he
    obtain ⟨hpos, hbound⟩ := hguard' (by omega)
    rcases h.next hpos e hin with hlt | rfl
    · omega
    · rw [if_pos hin] at hbound
      omega
  have hdistinct : (points'.map Point.id).Nodup := by
    refine hperm.nodup_iff.mpr (List.nodup_append.mpr ⟨h.distinct, fresh_nodup k f, fun a ha b hb heq => ?_⟩)
    rw [heq, ← h.used] at ha
    exact hunused b hb ha
  have hreleased : Released g := by
    refine ⟨hsorted, fun e he => ?_, fun hpos e he => ?_⟩
    · rcases (hmem e).mp he with hin | hfresh
      · exact h.positive e hin
      · rw [mem_fresh] at hfresh
        obtain ⟨h1, h2⟩ := hroom (by omega)
        omega
    · rw [hnext] at hpos ⊢
      rcases Nat.eq_zero_or_pos k with hzero | hpos'
      · subst hzero
        rw [if_pos rfl] at hpos ⊢
        rcases (hmem e).mp he with hin | hfresh
        · exact h.next hpos e hin
        · exact absurd hfresh List.not_mem_nil
      · obtain ⟨h1, h2⟩ := hroom hpos'
        rw [if_neg (by omega)] at hpos ⊢
        by_cases hlast : f.nextID + k = 2 ^ 31
        · rw [hlast] at hpos
          exact absurd hpos (by decide)
        · rw [wrapInt_of_lt (by omega) (by omega)]
          rcases (hmem e).mp he with hin | hfresh
          · have := h.next h1 e hin
            omega
          · rw [mem_fresh] at hfresh
            omega
  have hids : ∀ e, e ∈ points'.map Point.id ↔ e ∈ g.ids := by
    intro e
    rw [hperm.mem_iff, List.mem_append, hmem, h.used]
  have hkept := hreleased.finish hold hdistinct (fun e he => (hids e).mp he) fun e he => Or.inl ((hids e).mpr he)
  refine ⟨points', _, by rw [filter, hassign]; rfl, ⟨hplaces, hdistinct, fun p hp => ?_, hkept.used, fun _ e he => ?_,
    fun hshrink => absurd hshrink (by omega)⟩, rfl, hkept⟩
  · exact (hreleased.positive p.id ((hids p.id).mp (List.mem_map.mpr ⟨p, hp, rfl⟩))).1
  · exact List.count_eq_one_of_mem hdistinct (hperm.symm.subset (List.mem_append_left _ he))

theorem Kept.shrink {points : List Point} {f : AssignPointIDTouchFilter} (h : Kept f)
    (hshrink : points.length < f.oldState.length) :
    ∃ points' f', filter points f = some (points', f') ∧ Stable f points points' f' ∧ f'.oldState = points' ∧ Kept f' := by
  obtain ⟨-, hunmapped, -⟩ := unmapped_spec f.oldState
  obtain ⟨points', rest, hinherit, hperm, hplaces⟩ := @inheritIDs_spec points (unmapped f.oldState) (by
    rw [hunmapped, List.length_map]
    omega)
  rw [hunmapped] at hperm
  have hassign : assign points f = some (points', f) := by
    rw [assign, if_neg (by omega), if_neg (by omega), hinherit]
    rfl
  have hsubset : ∀ e ∈ points'.map Point.id, e ∈ f.oldState.map Point.id :=
    fun e he => hperm.subset (List.mem_append_left _ he)
  have hdistinct : (points'.map Point.id).Nodup := (List.nodup_append.mp (hperm.nodup_iff.mpr h.distinct)).1
  have hkept := Released.finish ⟨h.sorted, h.positive, h.next⟩ rfl hdistinct
    (fun e he => (h.used e).mpr (hsubset e he)) fun e he => Or.inr ((h.used e).mp he)
  refine ⟨points', _, by rw [filter, hassign]; rfl, ⟨hplaces, hdistinct, fun p hp => ?_, hkept.used,
    fun hgrow => absurd hgrow (by omega), fun _ p hp => ?_⟩, rfl, hkept⟩
  · exact (h.positive p.id ((h.used p.id).mpr (hsubset p.id (List.mem_map.mpr ⟨p, hp, rfl⟩)))).1
  · exact hsubset p.id (List.mem_map.mpr ⟨p, hp, rfl⟩)

theorem Kept.filter {points : List Point} {f : AssignPointIDTouchFilter} (h : Kept f) (hguard : Guard points f) :
    ∃ points' f', filter points f = some (points', f') ∧ Stable f points points' f' ∧ f'.oldState = points' ∧ Kept f' := by
  by_cases hgrow : f.oldState.length ≤ points.length
  · exact h.grow hguard hgrow
  · exact h.shrink (Nat.not_le.mp hgrow)

/-! ## Runs -/

def step (points : List Point) (f : AssignPointIDTouchFilter) : Option AssignPointIDTouchFilter :=
  (filter points f).map Prod.snd

theorem Kept.new : Kept new :=
  ⟨List.Pairwise.nil, fun _ => ⟨fun h => absurd h List.not_mem_nil, fun h => absurd h List.not_mem_nil⟩, List.nodup_nil,
    fun _ h => absurd h List.not_mem_nil, fun _ _ h => absurd h List.not_mem_nil⟩

/-- The ids are stable and unique in every call of a run that stays within the `int`s. -/
theorem ids_stable {states : List (List Point)} (hguard : Abides Guard step states new) :
    ∃ f, execute step states new = some f ∧ ∀ points, Guard points f →
      ∃ points' f', filter points f = some (points', f') ∧ f'.oldState = points' ∧ Stable f points points' f' := by
  have hrun : ∀ (states : List (List Point)) (f : AssignPointIDTouchFilter), Kept f → Abides Guard step states f →
      ∃ g, execute step states f = some g ∧ Kept g := by
    intro states
    induction states with
    | nil => exact fun f hf _ => ⟨f, rfl, hf⟩
    | cons points rest ih =>
        intro f hf habides
        obtain ⟨points', f', hfilter, -, -, hkept⟩ := hf.filter habides.1
        have hstep : step points f = some f' := by rw [step, hfilter]; rfl
        obtain ⟨g, hexecute, hg⟩ := ih f' hkept (habides.2 f' hstep)
        exact ⟨g, execute_cons.mpr ⟨f', hstep, hexecute⟩, hg⟩
  obtain ⟨f, hexecute, hf⟩ := hrun states new Kept.new hguard
  refine ⟨f, hexecute, fun points hpoints => ?_⟩
  obtain ⟨points', f', hfilter, hstable, hold, -⟩ := hf.filter hpoints
  exact ⟨points', f', hfilter, hold, hstable⟩

theorem ids_stable_two :
    ∃ f, execute step [[⟨0, 0, 0⟩, ⟨0, 50, 0⟩], [⟨0, 50, 1⟩]] new = some f ∧ ∃ points' f',
      filter [⟨0, 1, 1⟩, ⟨0, 49, 0⟩] f = some (points', f') ∧ f'.oldState = points' ∧
        Stable f [⟨0, 1, 1⟩, ⟨0, 49, 0⟩] points' f' := by
  obtain ⟨f, hrun, hcall⟩ := @ids_stable [[⟨0, 0, 0⟩, ⟨0, 50, 0⟩], [⟨0, 50, 1⟩]] (by decide)
  have hf : execute step [[⟨0, 0, 0⟩, ⟨0, 50, 0⟩], [⟨0, 50, 1⟩]] new = some ⟨[⟨2, 50, 1⟩], [2], 3⟩ := by decide
  rw [hf] at hrun
  cases hrun
  exact ⟨_, hf, hcall _ (by decide)⟩

/-- A filter that has seen one finger, with the id `a`. -/
def alone (a : Int) : AssignPointIDTouchFilter := ⟨[⟨a, 0, 0⟩], [a], a + 1⟩

/-- Another finger comes, the first one leaves, and the other one takes its place. -/
def exchange : List (List Point) := [[⟨0, 0, 0⟩, ⟨0, 9, 0⟩], [⟨0, 9, 0⟩], [⟨0, 0, 0⟩]]

theorem distances (i : Int) : distanceSquared 0 0 ⟨i, 0, 0⟩ = 0 ∧ distanceSquared 0 0 ⟨i, 9, 0⟩ = 81 ∧
    distanceSquared 9 0 ⟨i, 0, 0⟩ = 81 ∧ distanceSquared 9 0 ⟨i, 9, 0⟩ = 0 ∧ distanceSquared 0 0 ⟨i, 0, 9⟩ = 81 ∧
    distanceSquared 9 0 ⟨i, 0, 9⟩ = 162 := ⟨rfl, rfl, rfl, rfl, rfl, rfl⟩

theorem second_finger (a : Int) :
    step [⟨0, 0, 0⟩, ⟨0, 9, 0⟩] (alone a) = some ⟨[⟨a, 0, 0⟩, ⟨a + 1, 9, 0⟩], [a, a + 1], wrapInt (a + 2)⟩ := by
  simp [step, filter, assign, alone, keepIDs, findClosest, closest, unmapped, distances, acquireIDs, acquireID,
    releaseUnused, getPointForID, IntSet.addInt, IntSet.getIndex]
  rw [Int.add_assoc]
  rfl

theorem exchange_spec {a : Int} (ha : 1 ≤ a) (hlast : a + 2 < 2 ^ 31) :
    execute step exchange (alone a) = some (alone (a + 1)) := by
  have hleave : step [⟨0, 9, 0⟩] ⟨[⟨a, 0, 0⟩, ⟨a + 1, 9, 0⟩], [a, a + 1], wrapInt (a + 2)⟩ =
      some ⟨[⟨a + 1, 9, 0⟩], [a + 1], a + 2⟩ := by
    have hnext : max (wrapInt (a + 1 + 1)) 1 = a + 2 := by
      rw [wrapInt_of_lt (by omega) (by omega)]
      omega
    have hnone : ¬ a = -1 := by omega
    simp [step, filter, assign, inheritIDs, findClosest, closest, unmapped, distances, releaseUnused, getPointForID,
      releaseID, IntSet.removeInt, IntSet.getIndex, hnext, hnone]
  have hmove : step [⟨0, 0, 0⟩] ⟨[⟨a + 1, 9, 0⟩], [a + 1], a + 2⟩ = some (alone (a + 1)) := by
    simp [step, filter, assign, alone, keepIDs, findClosest, closest, unmapped, distances, releaseUnused, getPointForID]
    omega
  exact execute_cons.mpr ⟨_, second_finger a, execute_cons.mpr ⟨_, hleave, execute_cons.mpr ⟨_, hmove, rfl⟩⟩⟩

theorem exchanges {a : Int} (ha : 1 ≤ a) (n : Nat) (hlast : a + n + 1 < 2 ^ 31) (rest : List (List Point)) :
    execute step ((List.replicate n exchange).flatten ++ rest) (alone a) = execute step rest (alone (a + n)) := by
  induction n generalizing a with
  | zero => simp
  | succ n ih =>
    have hexchange := @exchange_spec a ha (by omega)
    rw [List.replicate_succ, List.flatten_cons, List.append_assoc, execute_append, hexchange, Option.bind_some,
      @ih (a + 1) (by omega) (by omega)]
    congr 2
    omega

/-- After the ids up to the largest `int` the next one is negative. -/
theorem third_finger_negative :
    ∃ f, execute step ([⟨0, 0, 0⟩] :: ((List.replicate 2147483645 exchange).flatten ++ [[⟨0, 0, 0⟩, ⟨0, 9, 0⟩]])) new = some f ∧
      ∃ f', filter [⟨0, 0, 0⟩, ⟨0, 9, 0⟩, ⟨0, 0, 9⟩] f =
        some ([⟨2147483646, 0, 0⟩, ⟨2147483647, 9, 0⟩, ⟨-2147483648, 0, 9⟩], f') := by
  have hstart : step [⟨0, 0, 0⟩] new = some (alone 1) := by decide
  have hend := second_finger 2147483646
  have hrun : execute step ((List.replicate 2147483645 exchange).flatten ++ [[⟨0, 0, 0⟩, ⟨0, 9, 0⟩]]) (alone 1) =
      execute step [[⟨0, 0, 0⟩, ⟨0, 9, 0⟩]] (alone 2147483646) := exchanges (by decide) 2147483645 (by decide) _
  refine ⟨⟨[⟨2147483646, 0, 0⟩, ⟨2147483647, 9, 0⟩], [2147483646, 2147483647], -2147483648⟩,
    execute_cons.mpr ⟨_, hstart, ?_⟩, ⟨[⟨2147483646, 0, 0⟩, ⟨2147483647, 9, 0⟩, ⟨-2147483648, 0, 9⟩],
      [-2147483648, 2147483646, 2147483647], -2147483647⟩, ?_⟩
  · rw [hrun]
    exact execute_cons.mpr ⟨_, hend, rfl⟩
  · decide

end AssignPointIDTouchFilter
end OpenJfx.Glass
