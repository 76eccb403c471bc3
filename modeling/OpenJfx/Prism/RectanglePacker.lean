import OpenJfx.Lib.Java
import OpenJfx.Lib.Run

/-! # `RectanglePacker`

The area is cut into levels across its size, a level is filled along the length.  As long as
no sum leaves `int` the strips of the levels do not meet. -/
set_option autoImplicit false
namespace OpenJfx.Prism
open OpenJfx.Lib

structure Rectangle where
  x : Int
  y : Int
  width : Int
  height : Int
deriving DecidableEq, Repr

structure Level where
  length : Int
  size : Int
  sizeOffset : Int
  lengthOffset : Int
deriving DecidableEq, Repr

namespace Level

/-- The test of `add`. -/
def takes (requestedLength requestedSize : Int) (level : Level) : Bool :=
  wrapInt (level.lengthOffset + requestedLength) ≤ level.length && requestedSize ≤ level.size

def place (rect : Rectangle) (x y requestedLength : Int) (vertical : Bool) (level : Level) : Level × Rectangle :=
  ({ level with lengthOffset := wrapInt (level.lengthOffset + requestedLength) },
    if vertical then { rect with x := wrapInt (level.sizeOffset + x), y := wrapInt (level.lengthOffset + y) }
    else { rect with x := wrapInt (level.lengthOffset + x), y := wrapInt (level.sizeOffset + y) })

def add (rect : Rectangle) (x y requestedLength requestedSize : Int) (vertical : Bool) (level : Level) :
    Option (Level × Rectangle) :=
  if level.takes requestedLength requestedSize then some (level.place rect x y requestedLength vertical) else none

end Level

structure RectanglePacker where
  levels : List Level
  recentUsedLevelIndex : Nat
  length : Int
  size : Int
  sizeOffset : Int
  x : Int
  y : Int
  vertical : Bool
deriving DecidableEq, Repr

namespace RectanglePacker

def MIN_SIZE : Int := 8
def ROUND_UP : Int := 4

def new (x y width height : Int) (vertical : Bool) : RectanglePacker :=
  if vertical then ⟨[], 0, height, width, 0, x, y, vertical⟩ else ⟨[], 0, width, height, 0, x, y, vertical⟩

/-- `levels.get(i).size`. -/
def sizeAt (levels : List Level) (i : Int) : Int := (levels[i.toNat]?.map Level.size).getD 0

/-- The loop of `binarySearch`. -/
def searchLoop (levels : List Level) (key low high mid midSize : Int) : Int × Int :=
  if low ≤ high then
    if key < sizeAt levels ((low + high) / 2) then
      searchLoop levels key low ((low + high) / 2 - 1) ((low + high) / 2) (sizeAt levels ((low + high) / 2))
    else searchLoop levels key ((low + high) / 2 + 1) high ((low + high) / 2) (sizeAt levels ((low + high) / 2))
  else (mid, midSize)
termination_by (high - low + 1).toNat
decreasing_by all_goals omega

def binarySearch (levels : List Level) (k : Int) : Int :=
  if (levels.length : Int) - 1 < 0 then 0
  else
    let found := searchLoop levels (k + 1) 0 (levels.length - 1) 0 0
    if found.2 < k then found.1 + 1
    else if found.2 > k then (if found.1 > 0 then found.1 - 1 else 0)
    else found.1

def levelSize (requestedSize : Int) : Int :=
  let newSize := if MIN_SIZE > requestedSize then MIN_SIZE else requestedSize
  wrapInt (newSize + ROUND_UP - 1 - (newSize - 1) % ROUND_UP)

/-- `newIndex`. -/
def startIndex (newSize : Int) (p : RectanglePacker) : Nat :=
  if p.recentUsedLevelIndex < p.levels.length ∧ sizeAt p.levels p.recentUsedLevelIndex ≠ newSize then
    (binarySearch p.levels newSize).toNat
  else p.recentUsedLevelIndex

def newLevelFlag (newSize : Int) (p : RectanglePacker) : Bool := wrapInt (p.sizeOffset + newSize) ≤ p.size

/-- A level is too large while there is room for a new one. -/
def stops (newSize : Int) (p : RectanglePacker) (level : Level) : Bool :=
  level.size > wrapInt (newSize + ROUND_UP * 2) && p.newLevelFlag newSize

/-- The loop over the levels from index `i` on. -/
def tryLevels (stops : Level → Bool) (add : Level → Option (Level × Rectangle)) :
    Nat → List Level → Option (Nat × List Level × Rectangle)
  | _, [] => none
  | i, level :: rest =>
      if stops level then none
      else match add level with
        | some (filled, rect) => some (i, filled :: rest, rect)
        | none => (tryLevels stops add (i + 1) rest).map fun found => (found.1, level :: found.2.1, found.2.2)

def insertIndex (newIndex : Nat) (newSize : Int) (levels : List Level) : Nat :=
  if newIndex < levels.length ∧ sizeAt levels newIndex ≤ newSize then newIndex + 1 else newIndex

def insertAt (i : Nat) (level : Level) (levels : List Level) : List Level := levels.take i ++ level :: levels.drop i

def requestedLength (rect : Rectangle) (p : RectanglePacker) : Int := if p.vertical then rect.height else rect.width
def requestedSize (rect : Rectangle) (p : RectanglePacker) : Int := if p.vertical then rect.width else rect.height

/-- The packer, the rectangle and the answer after `add`. -/
def add (rect : Rectangle) (p : RectanglePacker) : RectanglePacker × Rectangle × Bool :=
  if p.requestedLength rect > p.length then (p, rect, false)
  else if p.requestedSize rect > p.size then (p, rect, false)
  else
    let newSize := levelSize (p.requestedSize rect)
    let newIndex := p.startIndex newSize
    let addTo := Level.add rect p.x p.y (p.requestedLength rect) (p.requestedSize rect) p.vertical
    match tryLevels (p.stops newSize) addTo newIndex (p.levels.drop newIndex) with
    | some (i, levels, placed) =>
        ({ p with levels := p.levels.take newIndex ++ levels, recentUsedLevelIndex := i }, placed, true)
    | none =>
        if !p.newLevelFlag newSize then (p, rect, false)
        else
          let newLevel : Level := ⟨p.length, newSize, p.sizeOffset, 0⟩
          let index := insertIndex newIndex newSize p.levels
          let grown (level : Level) : RectanglePacker := { p with
            levels := insertAt index level p.levels
            recentUsedLevelIndex := index
            sizeOffset := wrapInt (p.sizeOffset + newSize) }
          match addTo newLevel with
          | some (level, placed) => (grown level, placed, true)
          | none => (grown newLevel, rect, false)

def clear (p : RectanglePacker) : RectanglePacker := { p with levels := [], sizeOffset := 0, recentUsedLevelIndex := 0 }

/-! ## The binary search -/

def Sorted (levels : List Level) : Prop := levels.Pairwise fun a b => a.size ≤ b.size

theorem sizeAt_natCast {levels : List Level} {i : Nat} {level : Level} (h : levels[i]? = some level) :
    sizeAt levels i = level.size := by
  rw [sizeAt, Int.toNat_natCast, h]
  rfl

theorem sizeAt_mono {levels : List Level} (h : Sorted levels) {i j : Int} (hi : 0 ≤ i) (hij : i ≤ j)
    (hj : j < levels.length) : sizeAt levels i ≤ sizeAt levels j := by
  obtain ⟨i, rfl⟩ := Int.eq_ofNat_of_zero_le hi
  obtain ⟨j, rfl⟩ := Int.eq_ofNat_of_zero_le (Int.le_trans hi hij)
  have hj' : j < levels.length := by omega
  have hi' : i < levels.length := by omega
  rw [sizeAt_natCast (List.getElem?_eq_getElem hi'), sizeAt_natCast (List.getElem?_eq_getElem hj')]
  by_cases heq : i = j
  · subst heq
    exact Int.le_refl _
  · exact List.pairwise_iff_getElem.mp h i j hi' hj' (by omega)

/-- Below `i` no size is larger than `k`, and from `i` on none is smaller. -/
def Splits (levels : List Level) (k i : Int) : Prop :=
  0 ≤ i ∧ i ≤ levels.length ∧ (∀ j, 0 ≤ j → j < i → sizeAt levels j ≤ k) ∧
    ∀ j, i ≤ j → j < levels.length → k ≤ sizeAt levels j

theorem searchLoop_spec {levels : List Level} (hsorted : Sorted levels) {key low high mid midSize : Int}
    (hlow : 0 ≤ low) (hhigh : high < levels.length) (hle : low ≤ high + 1)
    (hbelow : ∀ j, 0 ≤ j → j < low → sizeAt levels j ≤ key)
    (habove : ∀ j, high < j → j < levels.length → key < sizeAt levels j)
    (hmid : low ≤ high ∨ midSize = sizeAt levels mid ∧ 0 ≤ mid ∧ mid < levels.length ∧ (low = mid + 1 ∨ low = mid)) :
    ∃ i m, searchLoop levels key low high mid midSize = (m, sizeAt levels m) ∧ 0 ≤ m ∧ m < levels.length ∧
      (i = m + 1 ∨ i = m) ∧ (∀ j, 0 ≤ j → j < i → sizeAt levels j ≤ key) ∧
      ∀ j, i ≤ j → j < levels.length → key < sizeAt levels j := by
  fun_induction searchLoop levels key low high mid midSize with
  | case1 low high mid midSize hgo hkey ih =>
    refine ih hlow (by omega) (by omega) hbelow (fun j hj hlt => ?_) ?_
    · exact Int.lt_of_lt_of_le hkey (sizeAt_mono hsorted (by omega) (by omega) hlt)
    · by_cases hagain : low ≤ (low + high) / 2 - 1
      · exact Or.inl hagain
      · exact Or.inr ⟨rfl, by omega, by omega, Or.inr (by omega)⟩
  | case2 low high mid midSize hgo hkey ih =>
    refine ih (by omega) hhigh (by omega) (fun j hj hlt => ?_) habove ?_
    · exact Int.le_trans (sizeAt_mono hsorted hj (by omega) (by omega)) (Int.not_lt.mp hkey)
    · by_cases hagain : (low + high) / 2 + 1 ≤ high
      · exact Or.inl hagain
      · exact Or.inr ⟨rfl, by omega, by omega, Or.inl rfl⟩
  | case3 low high mid midSize hstop =>
    obtain hgo | ⟨hsize, hmid0, hmidlt, hlow'⟩ := hmid
    · exact absurd hgo hstop
    · exact ⟨low, mid, by rw [hsize], hmid0, hmidlt, hlow', hbelow, fun j hj hlt => habove j (by omega) hlt⟩

theorem insertIndex_spec {p : RectanglePacker} {k : Int} (hsorted : Sorted p.levels)
    (hquantum : ∀ j : Int, 0 ≤ j → j < p.levels.length → sizeAt p.levels j % 4 = 0) (hk : k % 4 = 0)
    (hrecent : p.recentUsedLevelIndex < p.levels.length ∨ p.levels = [] ∧ p.recentUsedLevelIndex = 0) :
    Splits p.levels k (insertIndex (p.startIndex k) k p.levels) := by
  have hexact : ∀ {r : Nat}, r < p.levels.length → sizeAt p.levels r = k → Splits p.levels k (insertIndex r k p.levels) := by
    intro r hr hsize
    rw [insertIndex, if_pos ⟨hr, Int.le_of_eq hsize⟩]
    refine ⟨by omega, by omega, fun j hj hlt => ?_, fun j hj hlt => ?_⟩
    · rw [← hsize]
      exact sizeAt_mono hsorted hj (by omega) (by omega)
    · rw [← hsize]
      exact sizeAt_mono hsorted (by omega) (by omega) hlt
  rw [startIndex]
  split
  case isFalse hhint =>
    by_cases hr : p.recentUsedLevelIndex < p.levels.length
    · exact hexact hr (by by_contra hne; exact hhint ⟨hr, hne⟩)
    · obtain ⟨hnil, hzero⟩ := hrecent.resolve_left hr
      rw [hnil, hzero, insertIndex, if_neg (by simp)]
      exact ⟨Int.le_refl _, Int.le_refl _, fun j hj hlt => by simp at hlt; omega, fun j hj hlt => by simp at hj hlt; omega⟩
  case isTrue hhint =>
    have hn := hhint.1
    obtain ⟨i, m, hfound, hm0, hmlt, him, hbelow, habove⟩ :=
      @searchLoop_spec p.levels hsorted (k + 1) 0 (p.levels.length - 1) 0 0 (Int.le_refl _) (by omega) (by omega)
        (fun j _ _ => by omega) (fun j _ _ => by omega) (Or.inl (by omega))
    have hle : ∀ j, 0 ≤ j → j < i → sizeAt p.levels j ≤ k := by
      intro j hj hlt
      have := hbelow j hj hlt
      have := hquantum j hj (by omega)
      omega
    have hsplit : Splits p.levels k i :=
      ⟨by omega, by omega, hle, fun j hj hlt => by have := habove j hj hlt; omega⟩
    -- the new level gets the index `i`, wherever the search has ended
    have hinsert : (insertIndex (binarySearch p.levels k).toNat k p.levels : Int) = i := by
      have hnat : ∀ r : Int, 0 ≤ r → ((r.toNat : Nat) : Int) = r := fun r hr => Int.toNat_of_nonneg hr
      rw [binarySearch, if_neg (by omega), hfound]
      dsimp only
      rcases him with rfl | rfl
      · have hm := hle m hm0 (by omega)
        split
        · rw [insertIndex, hnat _ (by omega), if_neg, hnat _ (by omega)]
          intro h
          have := habove (m + 1) (Int.le_refl _) (by omega)
          omega
        · rw [if_neg (by omega), insertIndex, hnat _ hm0, if_pos ⟨by omega, hm⟩]
          omega
      · have hm := habove i (Int.le_refl _) hmlt
        rw [if_neg (by omega), if_pos (by omega)]
        split
        · have hprev := hle (i - 1) (by omega) (by omega)
          rw [insertIndex, hnat _ (by omega), if_pos ⟨by omega, hprev⟩]
          omega
        · rw [insertIndex, hnat _ (by omega), if_neg]
          · omega
          · have hzero : i = 0 := by omega
            rw [hzero] at hm
            omega
    rw [hinsert]
    exact hsplit

/-! ## The strips -/

/-- Where `r` lies along the levels of `p`, and across them. -/
def alongStart (r : Rectangle) (p : RectanglePacker) : Int := if p.vertical then r.y - p.y else r.x - p.x
def acrossStart (r : Rectangle) (p : RectanglePacker) : Int := if p.vertical then r.x - p.x else r.y - p.y

/-- `r` lies in the part of a level that is filled. -/
structure InLevel (p : RectanglePacker) (r : Rectangle) (level : Level) : Prop where
  start : 0 ≤ p.alongStart r
  filled : p.alongStart r + p.requestedLength r ≤ level.lengthOffset
  top : level.sizeOffset ≤ p.acrossStart r
  bottom : p.acrossStart r + p.requestedSize r ≤ level.sizeOffset + level.size

def Apart (r r' : Rectangle) : Prop :=
  r.x + r.width ≤ r'.x ∨ r'.x + r'.width ≤ r.x ∨ r.y + r.height ≤ r'.y ∨ r'.y + r'.height ≤ r.y

def Level.Beside (a b : Level) : Prop := a.sizeOffset + a.size ≤ b.sizeOffset ∨ b.sizeOffset + b.size ≤ a.sizeOffset

structure LevelFits (p : RectanglePacker) (level : Level) : Prop where
  length : level.length = p.length
  quantum : level.size % 4 = 0
  start : 0 ≤ level.lengthOffset
  filled : level.lengthOffset ≤ p.length
  top : 0 ≤ level.sizeOffset
  bottom : level.sizeOffset + level.size ≤ p.sizeOffset

/-- The invariant; `placed` are the rectangles that have a place. -/
structure Packed (p : RectanglePacker) (placed : List Rectangle) : Prop where
  levels : ∀ level ∈ p.levels, p.LevelFits level
  offset : 0 ≤ p.sizeOffset ∧ p.sizeOffset ≤ p.size
  beside : p.levels.Pairwise Level.Beside
  sorted : Sorted p.levels
  recent : p.recentUsedLevelIndex < p.levels.length ∨ p.levels = [] ∧ p.recentUsedLevelIndex = 0
  home : ∀ r ∈ placed, ∃ level ∈ p.levels, p.InLevel r level
  apart : placed.Pairwise Apart

theorem Packed.new (x y : Int) {width height : Int} (hwidth : 0 < width) (hheight : 0 < height) (vertical : Bool) :
    Packed (new x y width height vertical) [] := by
  have hempty : ∀ {size : Int} (length : Int), 0 < size → Packed ⟨[], 0, length, size, 0, x, y, vertical⟩ [] :=
    fun _ hsize => ⟨fun _ h => absurd h List.not_mem_nil, ⟨Int.le_refl _, Int.le_of_lt hsize⟩, List.Pairwise.nil,
      List.Pairwise.nil, Or.inr ⟨rfl, rfl⟩, fun _ h => absurd h List.not_mem_nil, List.Pairwise.nil⟩
  rw [RectanglePacker.new]
  split
  · exact hempty height hwidth
  · exact hempty width hheight

theorem Packed.clear {p : RectanglePacker} {placed : List Rectangle} (h : Packed p placed) : Packed p.clear [] :=
  ⟨fun _ h => absurd h List.not_mem_nil, ⟨Int.le_refl _, Int.le_trans h.offset.1 h.offset.2⟩,
    List.Pairwise.nil, List.Pairwise.nil, Or.inr ⟨rfl, rfl⟩, fun _ h => absurd h List.not_mem_nil, List.Pairwise.nil⟩

/-- The sums of `Level.add` are `int`s. -/
def Fits (rect : Rectangle) (p : RectanglePacker) (level : Level) : Prop :=
  level.lengthOffset + p.requestedLength rect < 2 ^ 31 ∧
    (if p.vertical then p.y else p.x) + level.lengthOffset < 2 ^ 31 ∧
    (if p.vertical then p.x else p.y) + level.sizeOffset < 2 ^ 31

def IntOrigin (p : RectanglePacker) : Prop := -2 ^ 31 ≤ p.x ∧ -2 ^ 31 ≤ p.y

theorem place_spec {p : RectanglePacker} {rect : Rectangle} {level : Level} (horigin : p.IntOrigin)
    (hlevel : p.LevelFits level) (hpos : 0 < p.requestedLength rect)
    (htakes : level.takes (p.requestedLength rect) (p.requestedSize rect) = true) (hfits : p.Fits rect level) :
    ∃ r, level.place rect p.x p.y (p.requestedLength rect) p.vertical =
        ({ level with lengthOffset := level.lengthOffset + p.requestedLength rect }, r) ∧
      r.width = rect.width ∧ r.height = rect.height ∧ p.alongStart r = level.lengthOffset ∧
      p.acrossStart r = level.sizeOffset ∧ p.requestedLength r = p.requestedLength rect ∧
      p.requestedSize r = p.requestedSize rect ∧ level.lengthOffset + p.requestedLength rect ≤ p.length ∧
      p.requestedSize rect ≤ level.size := by
  obtain ⟨hsum, halong, hacross⟩ := hfits
  obtain ⟨hx, hy⟩ := horigin
  have hstart := hlevel.start
  have htop := hlevel.top
  have hwrap : ∀ v : Int, -2 ^ 31 ≤ v → v < 2 ^ 31 → wrapInt v = v := fun v h0 h1 =>
    Int.bmod_eq_of_le (by omega) (by omega)
  rw [Level.takes, Bool.and_eq_true, decide_eq_true_eq, decide_eq_true_eq, hlevel.length, hwrap _ (by omega) hsum] at htakes
  rw [Level.place, hwrap _ (by omega) hsum]
  cases hvertical : p.vertical with
  | true =>
    rw [hvertical, if_pos rfl] at halong hacross
    refine ⟨_, rfl, rfl, rfl, ?_, ?_, ?_, ?_, htakes⟩
    · simp only [alongStart, hvertical, if_true]
      rw [hwrap (level.lengthOffset + p.y) (by omega) (by omega)]
      omega
    · simp only [acrossStart, hvertical, if_true]
      rw [hwrap (level.sizeOffset + p.x) (by omega) (by omega)]
      omega
    · simp only [requestedLength, hvertical, if_true]
    · simp only [requestedSize, hvertical, if_true]
  | false =>
    rw [hvertical, if_neg Bool.false_ne_true] at halong hacross
    refine ⟨_, rfl, rfl, rfl, ?_, ?_, ?_, ?_, htakes⟩
    · simp only [alongStart, hvertical, Bool.false_eq_true, if_false]
      rw [hwrap (level.lengthOffset + p.x) (by omega) (by omega)]
      omega
    · simp only [acrossStart, hvertical, Bool.false_eq_true, if_false]
      rw [hwrap (level.sizeOffset + p.y) (by omega) (by omega)]
      omega
    · simp only [requestedLength, hvertical, Bool.false_eq_true, if_false]
    · simp only [requestedSize, hvertical, Bool.false_eq_true, if_false]

theorem apart_of_along {p : RectanglePacker} {r r' : Rectangle}
    (h : p.alongStart r + p.requestedLength r ≤ p.alongStart r' ∨ p.alongStart r' + p.requestedLength r' ≤ p.alongStart r) :
    Apart r r' := by
  rw [Apart]
  rw [alongStart, alongStart, requestedLength, requestedLength] at h
  split at h <;> omega

theorem apart_of_across {p : RectanglePacker} {r r' : Rectangle}
    (h : p.acrossStart r + p.requestedSize r ≤ p.acrossStart r' ∨ p.acrossStart r' + p.requestedSize r' ≤ p.acrossStart r) :
    Apart r r' := by
  rw [Apart]
  rw [acrossStart, acrossStart, requestedSize, requestedSize] at h
  split at h <;> omega

theorem Packed.fill {p : RectanglePacker} {placed : List Rectangle} (h : Packed p placed) {front back : List Level}
    {level : Level} (hlevels : p.levels = front ++ level :: back) {r : Rectangle} (hpos : 0 < p.requestedLength r)
    (halong : p.alongStart r = level.lengthOffset) (hacross : p.acrossStart r = level.sizeOffset)
    (hlength : level.lengthOffset + p.requestedLength r ≤ p.length) (hsize : p.requestedSize r ≤ level.size) :
    Packed { p with
      levels := front ++ { level with lengthOffset := level.lengthOffset + p.requestedLength r } :: back
      recentUsedLevelIndex := front.length } (r :: placed) := by
  have hfits : ∀ l ∈ front ++ level :: back, p.LevelFits l := by
    rw [← hlevels]
    exact h.levels
  have hlevel := hfits level (by simp)
  have hbeside := h.beside
  have hsorted := h.sorted
  rw [hlevels] at hbeside
  rw [Sorted, hlevels] at hsorted
  refine ⟨fun l hl => ?_, h.offset, ?_, ?_, Or.inl (by simp), fun r' hr' => ?_, List.pairwise_cons.mpr ⟨fun r' hr' => ?_, h.apart⟩⟩
  · rcases List.mem_append.mp hl with hfront | hback
    · obtain ⟨h1, h2, h3, h4, h5, h6⟩ := hfits l (List.mem_append_left _ hfront)
      exact ⟨h1, h2, h3, h4, h5, h6⟩
    · rcases List.mem_cons.mp hback with rfl | hback
      · exact ⟨hlevel.length, hlevel.quantum, by have := hlevel.start; dsimp only; omega, hlength, hlevel.top, hlevel.bottom⟩
      · obtain ⟨h1, h2, h3, h4, h5, h6⟩ := hfits l (List.mem_append_right _ (List.mem_cons_of_mem _ hback))
        exact ⟨h1, h2, h3, h4, h5, h6⟩
  · simp only [List.pairwise_append, List.pairwise_cons, List.mem_cons, Level.Beside, forall_eq_or_imp] at hbeside ⊢
    exact hbeside
  · simp only [Sorted, List.pairwise_append, List.pairwise_cons, List.mem_cons, forall_eq_or_imp] at hsorted ⊢
    exact hsorted
  · rcases List.mem_cons.mp hr' with rfl | hold
    · refine ⟨_, List.mem_append_right _ (List.mem_cons_self ..), ⟨?_, ?_, ?_, ?_⟩⟩
      · exact Int.le_trans hlevel.start (Int.le_of_eq halong.symm)
      · exact Int.le_of_eq (congrArg (· + p.requestedLength r') halong)
      · exact Int.le_of_eq hacross.symm
      · exact Int.le_trans (Int.le_of_eq (congrArg (· + p.requestedSize r') hacross)) (Int.add_le_add_left hsize _)
    · obtain ⟨l, hl, hin⟩ := h.home r' hold
      rw [hlevels, List.mem_append, List.mem_cons] at hl
      rcases hl with hfront | rfl | hback
      · exact ⟨l, List.mem_append_left _ hfront, ⟨hin.start, hin.filled, hin.top, hin.bottom⟩⟩
      · refine ⟨_, List.mem_append_right _ (List.mem_cons_self ..), ⟨hin.start, ?_, hin.top, hin.bottom⟩⟩
        have hfilled := hin.filled
        exact Int.le_trans hfilled (by dsimp only; omega)
      · exact ⟨l, List.mem_append_right _ (List.mem_cons_of_mem _ hback), ⟨hin.start, hin.filled, hin.top, hin.bottom⟩⟩
  · obtain ⟨l, hl, hin⟩ := h.home r' hr'
    rw [hlevels, List.mem_append, List.mem_cons] at hl
    have hother : Level.Beside level l ∨ Level.Beside l level → Apart r r' := by
      intro hbeside
      have htop := hin.top
      have hbottom := hin.bottom
      rw [Level.Beside, Level.Beside] at hbeside
      exact @apart_of_across p r r' (by omega)
    rw [List.pairwise_append, List.pairwise_cons] at hbeside
    rcases hl with hfront | rfl | hback
    · exact hother (Or.inr (hbeside.2.2 l hfront level (List.mem_cons_self ..)))
    · have hfilled := hin.filled
      exact @apart_of_along p r r' (by omega)
    · exact hother (Or.inl (hbeside.2.1.1 l hback))

theorem Packed.addTo {p : RectanglePacker} {placed : List Rectangle} (h : Packed p placed) (horigin : p.IntOrigin)
    {front back : List Level} {level : Level} (hlevels : p.levels = front ++ level :: back) {rect : Rectangle}
    (hpos : 0 < p.requestedLength rect) (htakes : level.takes (p.requestedLength rect) (p.requestedSize rect) = true)
    (hfits : p.Fits rect level) :
    ∃ filled r, level.place rect p.x p.y (p.requestedLength rect) p.vertical = (filled, r) ∧
      Packed { p with levels := front ++ filled :: back, recentUsedLevelIndex := front.length } (r :: placed) ∧
      r.width = rect.width ∧ r.height = rect.height := by
  obtain ⟨r, hplace, hwidth, hheight, halong, hacross, hlength, hsize, hroom, hstrip⟩ := place_spec horigin
    (h.levels level (by rw [hlevels]; simp)) hpos htakes hfits
  rw [← hlength] at hpos hroom
  rw [← hsize] at hstrip
  have hfill := h.fill hlevels hpos halong hacross hroom hstrip
  rw [hlength] at hfill
  exact ⟨_, r, hplace, hfill, hwidth, hheight⟩

theorem Packed.grow {p : RectanglePacker} {placed : List Rectangle} (h : Packed p placed) {i : Nat} {newSize : Int}
    (hpos : 0 < newSize) (hquantum : newSize % 4 = 0) (hroom : p.sizeOffset + newSize ≤ p.size) (hlength : 0 ≤ p.length)
    (hsplit : Splits p.levels newSize i) :
    Packed { p with
      levels := insertAt i ⟨p.length, newSize, p.sizeOffset, 0⟩ p.levels
      recentUsedLevelIndex := i
      sizeOffset := p.sizeOffset + newSize } placed := by
  have hmem : ∀ l ∈ insertAt i ⟨p.length, newSize, p.sizeOffset, 0⟩ p.levels,
      l = ⟨p.length, newSize, p.sizeOffset, 0⟩ ∨ l ∈ p.levels := by
    intro l hl
    rcases List.mem_append.mp hl with hfront | hback
    · exact Or.inr (List.mem_of_mem_take hfront)
    · exact (List.mem_cons.mp hback).imp id List.mem_of_mem_drop
  have hold : ∀ l ∈ p.levels, l ∈ insertAt i ⟨p.length, newSize, p.sizeOffset, 0⟩ p.levels := by
    intro l hl
    rw [← List.take_append_drop i p.levels, List.mem_append] at hl
    rw [insertAt, List.mem_append, List.mem_cons]
    tauto
  have hinsert : ∀ {R : Level → Level → Prop}, p.levels.Pairwise R →
      (∀ l ∈ p.levels.take i, R l ⟨p.length, newSize, p.sizeOffset, 0⟩) →
      (∀ l ∈ p.levels.drop i, R ⟨p.length, newSize, p.sizeOffset, 0⟩ l) →
      (insertAt i ⟨p.length, newSize, p.sizeOffset, 0⟩ p.levels).Pairwise R := by
    intro R hpairwise hbefore hbehind
    rw [← List.take_append_drop i p.levels, List.pairwise_append] at hpairwise
    obtain ⟨hfront, hback, hcross⟩ := hpairwise
    refine List.pairwise_append.mpr ⟨hfront, List.pairwise_cons.mpr ⟨hbehind, hback⟩, fun a ha b hb => ?_⟩
    rcases List.mem_cons.mp hb with rfl | hb
    · exact hbefore a ha
    · exact hcross a ha b hb
  obtain ⟨-, hi, hbelow, habove⟩ := hsplit
  refine ⟨fun l hl => ?_, ⟨by have := h.offset; dsimp only; omega, hroom⟩, ?_, ?_, Or.inl ?_, fun r hr => ?_, h.apart⟩
  · rcases hmem l hl with rfl | hl
    · exact ⟨rfl, hquantum, Int.le_refl _, hlength, h.offset.1, Int.le_refl _⟩
    · obtain ⟨h1, h2, h3, h4, h5, h6⟩ := h.levels l hl
      exact ⟨h1, h2, h3, h4, h5, by dsimp only; omega⟩
  · refine hinsert h.beside (fun l hl => Or.inl ?_) fun l hl => Or.inr ?_
    · exact (h.levels l (List.mem_of_mem_take hl)).bottom
    · exact (h.levels l (List.mem_of_mem_drop hl)).bottom
  · refine hinsert h.sorted (fun l hl => ?_) fun l hl => ?_
    · obtain ⟨j, hj, hget⟩ := List.mem_take_iff_getElem.mp hl
      have := hbelow j (by omega) (by omega)
      rw [sizeAt_natCast (List.getElem?_eq_getElem (by omega)), hget] at this
      exact this
    · obtain ⟨j, hj, hget⟩ := List.mem_drop_iff_getElem.mp hl
      have := habove (i + j : Nat) (by omega) (by omega)
      rw [sizeAt_natCast (List.getElem?_eq_getElem (by omega)), hget] at this
      exact this
  · rw [insertAt, List.length_append, List.length_cons, List.length_take]
    dsimp only
    omega
  · obtain ⟨l, hl, hin⟩ := h.home r hr
    exact ⟨l, hold l hl, ⟨hin.start, hin.filled, hin.top, hin.bottom⟩⟩

/-! ## `add` -/

/-- What is needed for a new level. -/
def Grows (rect : Rectangle) (p : RectanglePacker) : Prop :=
  p.newLevelFlag (levelSize (p.requestedSize rect)) = true →
    p.sizeOffset + levelSize (p.requestedSize rect) < 2 ^ 31 ∧
      p.Fits rect ⟨p.length, levelSize (p.requestedSize rect), p.sizeOffset, 0⟩

/-- The loop over the levels ends without a sum that is no `int`: at the level that takes the
rectangle, or where a new level is wanted. -/
def Settles (stops takes : Level → Bool) (fits : Level → Prop) (grows : Prop) : List Level → Prop
  | [] => grows
  | level :: rest => if stops level then grows else if takes level then fits level else Settles stops takes fits grows rest

/-- The condition on an `add`: a rectangle that is not too large for the area is not larger
than `2^31 - 4` across the levels, and the sums where the loop ends are `int`s. -/
def Unwrapped (rect : Rectangle) (p : RectanglePacker) : Prop :=
  p.requestedLength rect ≤ p.length → p.requestedSize rect ≤ p.size →
    p.requestedSize rect ≤ 2 ^ 31 - 4 ∧
      Settles (p.stops (levelSize (p.requestedSize rect))) (Level.takes (p.requestedLength rect) (p.requestedSize rect))
        (p.Fits rect) (p.Grows rect) (p.levels.drop (p.startIndex (levelSize (p.requestedSize rect))))

theorem levelSize_spec {requestedSize : Int} (hpos : 0 < requestedSize) (hmax : requestedSize ≤ 2 ^ 31 - 4) :
    requestedSize ≤ levelSize requestedSize ∧ levelSize requestedSize % 4 = 0 := by
  rw [levelSize, MIN_SIZE, ROUND_UP]
  split
  · rw [wrapInt_of_lt (by omega) (by omega)]
    omega
  · rw [wrapInt_of_lt (by omega) (by omega)]
    omega

theorem tryLevels_spec {stops takes : Level → Bool} {fits : Level → Prop} {grows : Prop}
    {place : Level → Level × Rectangle} {levels : List Level} (h : Settles stops takes fits grows levels) (i : Nat) :
    tryLevels stops (fun level => if takes level then some (place level) else none) i levels = none ∧ grows ∨
    ∃ front level back, levels = front ++ level :: back ∧ takes level = true ∧ fits level ∧
      tryLevels stops (fun level => if takes level then some (place level) else none) i levels =
        some (i + front.length, front ++ (place level).1 :: back, (place level).2) := by
  induction levels generalizing i with
  | nil => exact Or.inl ⟨rfl, h⟩
  | cons level rest ih =>
    rw [Settles] at h
    rw [tryLevels]
    by_cases hstop : stops level = true
    · rw [if_pos hstop] at h ⊢
      exact Or.inl ⟨rfl, h⟩
    · rw [if_neg hstop] at h ⊢
      by_cases htakes : takes level = true
      · rw [if_pos htakes] at h ⊢
        exact Or.inr ⟨[], level, rest, rfl, htakes, h, rfl⟩
      · rw [if_neg htakes] at h ⊢
        rcases ih h (i + 1) with ⟨hnone, hgrows⟩ | ⟨front, taker, back, hlevels, htaker, hfits, hsome⟩
        · exact Or.inl ⟨by rw [hnone]; rfl, hgrows⟩
        · refine Or.inr ⟨level :: front, taker, back, by rw [hlevels]; rfl, htaker, hfits, ?_⟩
          rw [hsome, List.length_cons, Nat.add_comm front.length 1, ← Nat.add_assoc]
          rfl

theorem add_failed (rect : Rectangle) (p : RectanglePacker) : (p.add rect).2.2 = false → (p.add rect).2.1 = rect := by
  fun_cases add rect p
  case case1 => exact fun _ => rfl
  case case2 => exact fun _ => rfl
  case case3 => exact fun h => by cases h
  case case4 => exact fun _ => rfl
  case case5 => exact fun h => by cases h
  case case6 => exact fun _ => rfl

def SameArea (p p' : RectanglePacker) : Prop :=
  p'.x = p.x ∧ p'.y = p.y ∧ p'.length = p.length ∧ p'.size = p.size ∧ p'.vertical = p.vertical

theorem Packed.add {p : RectanglePacker} {placed : List Rectangle} (h : Packed p placed) (horigin : p.IntOrigin)
    {rect : Rectangle} (hwidth : 0 < rect.width) (hheight : 0 < rect.height) (hunwrapped : p.Unwrapped rect) :
    p.SameArea (p.add rect).1 ∧
      ((p.add rect).2.2 = false ∧ Packed (p.add rect).1 placed ∨
        (p.add rect).2.2 = true ∧ Packed (p.add rect).1 ((p.add rect).2.1 :: placed) ∧
          (p.add rect).2.1.width = rect.width ∧ (p.add rect).2.1.height = rect.height) := by
  have hlength : 0 < p.requestedLength rect := by rw [requestedLength]; split <;> assumption
  have hsize : 0 < p.requestedSize rect := by rw [requestedSize]; split <;> assumption
  have hsame : p.SameArea p := ⟨rfl, rfl, rfl, rfl, rfl⟩
  rw [RectanglePacker.add]
  by_cases hlong : p.requestedLength rect > p.length
  · rw [if_pos hlong]
    exact ⟨hsame, Or.inl ⟨rfl, h⟩⟩
  by_cases hlarge : p.requestedSize rect > p.size
  · rw [if_neg hlong, if_pos hlarge]
    exact ⟨hsame, Or.inl ⟨rfl, h⟩⟩
  rw [if_neg hlong, if_neg hlarge]
  obtain ⟨hmax, hsettles⟩ := hunwrapped (Int.not_lt.mp hlong) (Int.not_lt.mp hlarge)
  obtain ⟨hround, hquantum⟩ := levelSize_spec hsize hmax
  dsimp only
  generalize hnew : levelSize (p.requestedSize rect) = newSize at hsettles hround hquantum
  have htry := @tryLevels_spec _ _ _ _ (fun level => level.place rect p.x p.y (p.requestedLength rect) p.vertical) _ hsettles
    (p.startIndex newSize)
  rw [show (fun level => if Level.takes (p.requestedLength rect) (p.requestedSize rect) level then
      some (Level.place rect p.x p.y (p.requestedLength rect) p.vertical level) else none) =
    Level.add rect p.x p.y (p.requestedLength rect) (p.requestedSize rect) p.vertical from rfl] at htry
  rcases htry with ⟨hnone, hgrows⟩ | ⟨front, level, back, hdrop, htakes, hfits, hsome⟩
  · rw [hnone]
    dsimp only
    by_cases hflag : p.newLevelFlag newSize = true
    · rw [Grows, hnew] at hgrows
      obtain ⟨hsum, hfits⟩ := hgrows hflag
      have hoffset := h.offset
      have hroom : p.sizeOffset + newSize ≤ p.size := by
        rw [newLevelFlag, wrapInt_of_lt (by omega) hsum, decide_eq_true_eq] at hflag
        exact hflag
      have hquanta : ∀ j : Int, 0 ≤ j → j < p.levels.length → sizeAt p.levels j % 4 = 0 := by
        intro j hj hlt
        obtain ⟨j, rfl⟩ := Int.eq_ofNat_of_zero_le hj
        have hlt' : j < p.levels.length := by omega
        rw [sizeAt_natCast (List.getElem?_eq_getElem hlt')]
        exact (h.levels _ (List.getElem_mem hlt')).quantum
      have hsplits := insertIndex_spec h.sorted hquanta hquantum h.recent
      rw [hflag]
      generalize insertIndex (p.startIndex newSize) newSize p.levels = index at hsplits
      have hgrown := h.grow (by omega) hquantum hroom (by omega) hsplits
      have htakes : (⟨p.length, newSize, p.sizeOffset, 0⟩ : Level).takes (p.requestedLength rect) (p.requestedSize rect) =
          true := by
        obtain ⟨hlt, -, -⟩ := hfits
        rw [Level.takes, wrapInt_of_lt (by dsimp only; omega) hlt]
        simp only [Bool.and_eq_true, decide_eq_true_eq]
        omega
      obtain ⟨filled, r, hplace, hpacked, hsizes⟩ := hgrown.addTo horigin rfl hlength htakes hfits
      have hplace : Level.place rect p.x p.y (p.requestedLength rect) p.vertical _ = (filled, r) := hplace
      rw [Level.add, if_pos htakes, hplace, wrapInt_of_lt (by omega) hsum]
      have hindex : (p.levels.take index).length = index := by
        rw [List.length_take]
        have := hsplits.2.1
        omega
      rw [hindex] at hpacked
      exact ⟨⟨rfl, rfl, rfl, rfl, rfl⟩, Or.inr ⟨rfl, hpacked, hsizes⟩⟩
    · rw [Bool.not_eq_true] at hflag
      rw [hflag]
      exact ⟨hsame, Or.inl ⟨rfl, h⟩⟩
  · rw [hsome]
    have hlevels : p.levels = (p.levels.take (p.startIndex newSize) ++ front) ++ level :: back := by
      rw [List.append_assoc, ← hdrop, List.take_append_drop]
    have hindex : p.startIndex newSize + front.length = (p.levels.take (p.startIndex newSize) ++ front).length := by
      have hdropped := congrArg List.length hdrop
      rw [List.length_drop, List.length_append, List.length_cons] at hdropped
      rw [List.length_append, List.length_take]
      omega
    obtain ⟨filled, r, hplace, hpacked, hsizes⟩ := h.addTo horigin hlevels hlength htakes hfits
    dsimp only
    rw [hplace, hindex, ← List.append_assoc]
    exact ⟨⟨rfl, rfl, rfl, rfl, rfl⟩, Or.inr ⟨rfl, hpacked, hsizes⟩⟩

/-! ## Runs -/

inductive Call where
  | add (rect : Rectangle)
  | clear

/-- A packer with the arguments of the successful calls since the last `clear`, and where they
were placed. -/
structure Page where
  packer : RectanglePacker
  placed : List (Rectangle × Rectangle)

def step : Call → Page → Page
  | .add rect, s => match s.packer.add rect with
      | (packer, placed, true) => ⟨packer, (rect, placed) :: s.placed⟩
      | (packer, _, false) => ⟨packer, s.placed⟩
  | .clear, s => ⟨s.packer.clear, []⟩

def Guard : Call → Page → Prop
  | .add rect, s => s.packer.Unwrapped rect
  | .clear, _ => True

def Call.Positive : Call → Prop
  | .add rect => 0 < rect.width ∧ 0 < rect.height
  | .clear => True

/-- What is placed lies in the area and does not overlap, and the levels are sorted. -/
structure Right (x y width height : Int) (s : Page) : Prop where
  inside : ∀ pair ∈ s.placed, x ≤ pair.2.x ∧ pair.2.x + pair.2.width ≤ x + width ∧
    y ≤ pair.2.y ∧ pair.2.y + pair.2.height ≤ y + height
  apart : s.placed.Pairwise fun a b => Apart a.2 b.2
  same : ∀ pair ∈ s.placed, pair.2.width = pair.1.width ∧ pair.2.height = pair.1.height
  sorted : Sorted s.packer.levels

/-- The invariant of a run in an area. -/
structure Kept (start : RectanglePacker) (s : Page) : Prop where
  packed : Packed s.packer (s.placed.map Prod.snd)
  area : start.SameArea s.packer
  same : ∀ pair ∈ s.placed, pair.2.width = pair.1.width ∧ pair.2.height = pair.1.height

theorem SameArea.trans {p p' p'' : RectanglePacker} (h : p.SameArea p') (h' : p'.SameArea p'') : p.SameArea p'' := by
  obtain ⟨h1, h2, h3, h4, h5⟩ := h
  obtain ⟨h1', h2', h3', h4', h5'⟩ := h'
  exact ⟨h1'.trans h1, h2'.trans h2, h3'.trans h3, h4'.trans h4, h5'.trans h5⟩

theorem Kept.step {start : RectanglePacker} (horigin : start.IntOrigin) {call : Call} {s : Page} (h : Kept start s)
    (hpositive : call.Positive) (hguard : Guard call s) : Kept start (step call s) := by
  cases call with
  | clear => exact ⟨h.packed.clear, h.area, fun _ hpair => absurd hpair List.not_mem_nil⟩
  | add rect =>
    have horigin' : s.packer.IntOrigin := by
      rw [IntOrigin, h.area.1, h.area.2.1]
      exact horigin
    obtain ⟨harea, hadd⟩ := h.packed.add horigin' hpositive.1 hpositive.2 hguard
    rw [RectanglePacker.step]
    rcases hresult : s.packer.add rect with ⟨packer, r, answer⟩
    rw [hresult] at harea hadd
    rcases hadd with ⟨hfalse, hpacked⟩ | ⟨htrue, hpacked, hsizes⟩
    · dsimp only at hfalse
      subst hfalse
      exact ⟨hpacked, h.area.trans harea, h.same⟩
    · dsimp only at htrue
      subst htrue
      refine ⟨hpacked, h.area.trans harea, fun pair hpair => ?_⟩
      rcases List.mem_cons.mp hpair with rfl | hold
      · exact hsizes
      · exact h.same pair hold

theorem Kept.right {x y width height : Int} {vertical : Bool} {s : Page}
    (h : Kept (RectanglePacker.new x y width height vertical) s) : Right x y width height s := by
  refine ⟨fun pair hpair => ?_, List.pairwise_map.mp h.packed.apart, h.same, h.packed.sorted⟩
  obtain ⟨level, hlevel, hin⟩ := h.packed.home pair.2 (List.mem_map.mpr ⟨pair, hpair, rfl⟩)
  have hfits := h.packed.levels level hlevel
  have hstart := hin.start
  have hlength := Int.le_trans hin.filled hfits.filled
  have htop := Int.le_trans hfits.top hin.top
  have hsize := Int.le_trans hin.bottom (Int.le_trans hfits.bottom h.packed.offset.2)
  obtain ⟨hx, hy, hl, hs, hv⟩ := h.area
  rw [alongStart, requestedLength] at hlength
  rw [acrossStart, requestedSize] at hsize
  rw [alongStart] at hstart
  rw [acrossStart] at htop
  cases vertical with
  | true =>
    simp only [RectanglePacker.new, if_true] at hx hy hl hs hv
    simp only [hv, if_true, hx, hy, hl, hs] at hstart hlength htop hsize
    omega
  | false =>
    simp only [RectanglePacker.new, Bool.false_eq_true, if_false] at hx hy hl hs hv
    simp only [hv, Bool.false_eq_true, if_false, hx, hy, hl, hs] at hstart hlength htop hsize
    omega

/-- In every run whose sums are `int`s the placed rectangles do not collide. -/
theorem placed_apart {x y width height : Int} {vertical : Bool} (hx : -2 ^ 31 ≤ x) (hy : -2 ^ 31 ≤ y) (hwidth : 0 < width)
    (hheight : 0 < height) {calls : List Call} (hpositive : ∀ call ∈ calls, call.Positive)
    (hguard : Guarded Guard step calls ⟨new x y width height vertical, []⟩) :
    Right x y width height (exec step calls ⟨new x y width height vertical, []⟩) ∧
      ∀ rect, ((exec step calls ⟨new x y width height vertical, []⟩).packer.add rect).2.2 = false →
        ((exec step calls ⟨new x y width height vertical, []⟩).packer.add rect).2.1 = rect ∧
          (exec step (calls ++ [.add rect]) ⟨new x y width height vertical, []⟩).placed =
            (exec step calls ⟨new x y width height vertical, []⟩).placed := by
  have horigin : (new x y width height vertical).IntOrigin := by
    rw [IntOrigin, new]
    split
    · exact ⟨hx, hy⟩
    · exact ⟨hx, hy⟩
  have hkept : ∀ (calls : List Call) (s : Page), Kept (new x y width height vertical) s →
      (∀ call ∈ calls, call.Positive) → Guarded Guard step calls s →
      Kept (new x y width height vertical) (exec step calls s) := by
    intro calls
    induction calls with
    | nil => exact fun s hs _ _ => hs
    | cons call rest ih =>
        intro s hs hpos hguard
        exact ih _ (hs.step horigin (hpos call (List.mem_cons_self ..)) hguard.1)
          (fun c hc => hpos c (List.mem_cons_of_mem _ hc)) hguard.2
  have hend := hkept calls _ ⟨Packed.new x y hwidth hheight vertical, ⟨rfl, rfl, rfl, rfl, rfl⟩,
    fun _ hpair => absurd hpair List.not_mem_nil⟩ hpositive hguard
  refine ⟨hend.right, fun rect hfailed => ⟨add_failed rect _ hfailed, ?_⟩⟩
  rw [exec_append]
  generalize exec step calls ⟨new x y width height vertical, []⟩ = s at hfailed
  change (step (.add rect) s).placed = s.placed
  rw [step]
  rcases hresult : s.packer.add rect with ⟨packer, r, answer⟩
  rw [hresult] at hfailed
  dsimp only at hfailed
  subst hfailed
  rfl

theorem placed_apart_two :
    Right 0 0 512 512 (exec step [.add ⟨0, 0, 20, 10⟩, .add ⟨0, 0, 500, 12⟩] ⟨new 0 0 512 512 false, []⟩) := by
  refine (placed_apart (by decide) (by decide) (by decide) (by decide) ?_ ?_).1
  · intro call hcall
    simp only [List.mem_cons, List.not_mem_nil, or_false] at hcall
    rcases hcall with rfl | rfl
    · exact ⟨by decide, by decide⟩
    · exact ⟨by decide, by decide⟩
  · exact ⟨fun _ _ => ⟨by decide, fun _ => ⟨by decide, by decide, by decide, by decide⟩⟩,
      fun _ _ => ⟨by decide, fun _ => ⟨by decide, by decide, by decide, by decide⟩⟩, trivial⟩

/-- The second rectangle reaches out of an area of the greatest height. -/
theorem second_outside :
    (exec step [.add ⟨0, 0, 1, 1073741828⟩, .add ⟨0, 0, 1, 1073741828⟩] ⟨new 0 0 1 2147483647 false, []⟩).placed =
        [(⟨0, 0, 1, 1073741828⟩, ⟨0, 1073741828, 1, 1073741828⟩), (⟨0, 0, 1, 1073741828⟩, ⟨0, 0, 1, 1073741828⟩)] ∧
      ¬ Right 0 0 1 2147483647
        (exec step [.add ⟨0, 0, 1, 1073741828⟩, .add ⟨0, 0, 1, 1073741828⟩] ⟨new 0 0 1 2147483647 false, []⟩) := by
  have hplaced : (exec step [.add ⟨0, 0, 1, 1073741828⟩, .add ⟨0, 0, 1, 1073741828⟩]
      ⟨new 0 0 1 2147483647 false, []⟩).placed =
      [(⟨0, 0, 1, 1073741828⟩, ⟨0, 1073741828, 1, 1073741828⟩), (⟨0, 0, 1, 1073741828⟩, ⟨0, 0, 1, 1073741828⟩)] := by
    decide
  refine ⟨hplaced, fun h => ?_⟩
  have hinside := h.inside (⟨0, 0, 1, 1073741828⟩, ⟨0, 1073741828, 1, 1073741828⟩) (by rw [hplaced]; simp)
  exact absurd hinside.2.2.2 (by decide)

end RectanglePacker
end OpenJfx.Prism
