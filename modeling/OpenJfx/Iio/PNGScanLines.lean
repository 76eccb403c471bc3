import OpenJfx.Lib.Java
import Mathlib.Tactic.Ring

/-! # The scan lines of a PNG image

What `PNGImageLoader2.load` makes of the inflated data, for samples of 8 or 16 bits without a
tRNS colour: each line is unfiltered in place, then its pixels are put where the
pass of the interlacing has them.  With a tRNS colour (`tRNS_GRAY_RGB`) `copy` and `downsample16to8`
also add an alpha byte to each pixel; that is not modelled here. -/
set_option autoImplicit false
namespace OpenJfx.Iio.PNGScanLines
open OpenJfx.Lib

/-! ## Filters -/

/-- `for (int i = lo; i != hi; ++i) line[i] = (byte) (line[i] + value)`. -/
def addLoop (value : List Byte → Nat → Int) (lo hi : Nat) (line : List Byte) : List Byte :=
  (List.range' lo (hi - lo)).foldl (fun line i => line.set i (line.getD i 0 + BitVec.ofInt 8 (value line i))) line

def doSubFilter (line : List Byte) (bpp : Nat) : List Byte :=
  addLoop (fun line i => (line.getD (i - bpp) 0).toInt) bpp line.length line

def doUpFilter (line pline : List Byte) : List Byte :=
  addLoop (fun _ i => (pline.getD i 0).toInt) 0 line.length line

def doAvrgFilter (line pline : List Byte) (bpp : Nat) : List Byte :=
  addLoop (fun line i => ((line.getD (i - bpp) 0).toNat + (pline.getD i 0).toNat) / 2) bpp line.length
    (addLoop (fun _ i => (pline.getD i 0).toNat / 2) 0 bpp line)

def paethPr (a b c : Int) : Int :=
  let pa := |b - c|
  let pb := |a - c|
  let pc := |b - c + a - c|
  if pa ≤ pb ∧ pa ≤ pc then a else if pb ≤ pc then b else c

def doPaethFilter (line pline : List Byte) (bpp : Nat) : List Byte :=
  addLoop (fun line i => paethPr (line.getD (i - bpp) 0).toNat (pline.getD i 0).toNat (pline.getD (i - bpp) 0).toNat)
    bpp line.length (addLoop (fun _ i => (pline.getD i 0).toInt) 0 bpp line)

def doFilter (line pline : List Byte) (fType bpp : Nat) : List Byte :=
  match fType with
  | 1 => doSubFilter line bpp
  | 2 => doUpFilter line pline
  | 3 => doAvrgFilter line pline bpp
  | 4 => doPaethFilter line pline bpp
  | _ => line

inductive FilterType where
  | none
  | sub
  | up
  | average
  | paeth
deriving DecidableEq, Repr

def FilterType.code : FilterType → Byte
  | .none => 0
  | .sub => 1
  | .up => 2
  | .average => 3
  | .paeth => 4

/-- What the format predicts of a byte from the one on its left, the one above and the one above
on the left. -/
def FilterType.predictor (a b c : Nat) : FilterType → Int
  | .none => 0
  | .sub => a
  | .up => b
  | .average => (a + b) / 2
  | .paeth =>
    let p : Int := a + b - c
    if |p - a| ≤ |p - b| ∧ |p - a| ≤ |p - c| then a else if |p - b| ≤ |p - c| then b else c

/-- The byte `bpp` in front of `i`; in front of the line the bytes are 0. -/
def left (bpp : Nat) (line : List Byte) (i : Nat) : Nat := if i < bpp then 0 else (line.getD (i - bpp) 0).toNat

/-- The filtered line, as the format defines it. -/
def encodeLine (ft : FilterType) (bpp : Nat) (prior raw : List Byte) : List Byte :=
  (List.range raw.length).map fun i =>
    raw.getD i 0 - BitVec.ofInt 8 (ft.predictor (left bpp raw i) (prior.getD i 0).toNat (left bpp prior i))

section Filters
variable {raw filt prior : List Byte} {value : List Byte → Nat → Int} {bpp : Nat}

/-- A line of which the bytes in front of `i` are unfiltered. -/
def mixed (raw filt : List Byte) (i : Nat) : List Byte := raw.take i ++ filt.drop i

theorem mixed_set {i : Nat} (hi : i < raw.length) (hlen : filt.length = raw.length) :
    (mixed raw filt i).set i (raw.getD i 0) = mixed raw filt (i + 1) := by
  have htake : (raw.take i).length = i := by
    rw [List.length_take]
    omega
  have hdrop : filt.drop i = filt[i] :: filt.drop (i + 1) := List.drop_eq_getElem_cons (by omega)
  rw [mixed, mixed, List.set_append_right _ _ (by omega), htake, Nat.sub_self, hdrop, List.set_cons_zero,
    List.take_succ_eq_append_getElem hi, List.append_assoc, List.getD_eq_getElem?_getD, List.getElem?_eq_getElem hi]
  rfl

theorem mixed_getD_left {i k : Nat} (hk : k < i) (hi : i ≤ raw.length) :
    (mixed raw filt i).getD k 0 = raw.getD k 0 := by
  rw [List.getD_eq_getElem?_getD, List.getD_eq_getElem?_getD, mixed,
    List.getElem?_append_left (by rw [List.length_take]; omega), List.getElem?_take_of_lt hk]

theorem mixed_getD_self {i : Nat} (hi : i ≤ raw.length) (hlen : filt.length = raw.length) :
    (mixed raw filt i).getD i 0 = filt.getD i 0 := by
  have htake : (raw.take i).length = i := by
    rw [List.length_take]
    omega
  rw [List.getD_eq_getElem?_getD, List.getD_eq_getElem?_getD, mixed, List.getElem?_append_right (by omega), htake,
    List.getElem?_drop, Nat.sub_self, Nat.add_zero]

theorem addLoop_mixed (hlen : filt.length = raw.length) {lo hi : Nat} (hlo : lo ≤ hi) (hhi : hi ≤ raw.length)
    (hturn : ∀ i, lo ≤ i → i < hi → filt.getD i 0 + BitVec.ofInt 8 (value (mixed raw filt i) i) = raw.getD i 0) :
    addLoop value lo hi (mixed raw filt lo) = mixed raw filt hi := by
  obtain ⟨n, rfl⟩ := Nat.exists_eq_add_of_le hlo
  induction n generalizing lo with
  | zero =>
    rw [addLoop, Nat.add_zero, Nat.sub_self]
    rfl
  | succ n ih =>
    have hcount : lo + (n + 1) - lo = n + 1 := by omega
    have hrest := @ih (lo + 1) (by omega) (by omega) fun i hi hlt => hturn i (by omega) (by omega)
    rw [addLoop, show lo + 1 + n - (lo + 1) = n by omega, show lo + 1 + n = lo + (n + 1) by omega] at hrest
    rw [addLoop, hcount, List.range'_succ, List.foldl_cons, mixed_getD_self (by omega) hlen,
      hturn lo (le_refl _) (by omega), mixed_set (by omega) hlen]
    exact hrest

theorem mixed_of_agree (hlen : filt.length = raw.length) {n : Nat} (hn : n ≤ raw.length)
    (h : ∀ i, i < n → filt.getD i 0 = raw.getD i 0) : mixed raw filt n = filt := by
  induction n with
  | zero => rfl
  | succ n ih =>
    rw [← mixed_set (by omega) hlen, ih (by omega) fun i hi => h i (by omega), ← h n (by omega),
      List.getD_eq_getElem?_getD, List.getElem?_eq_getElem (by omega : n < filt.length)]
    exact List.set_getElem_self _

theorem encodeLine_length (ft : FilterType) : (encodeLine ft bpp prior raw).length = raw.length := by
  rw [encodeLine, List.length_map, List.length_range]

theorem encodeLine_getD (ft : FilterType) {i : Nat} (hi : i < raw.length) :
    (encodeLine ft bpp prior raw).getD i 0 =
      raw.getD i 0 - BitVec.ofInt 8 (ft.predictor (left bpp raw i) (prior.getD i 0).toNat (left bpp prior i)) := by
  rw [encodeLine, List.getD_eq_getElem?_getD, List.getElem?_map, List.getElem?_range hi]
  rfl

theorem turn_restores (ft : FilterType) {i : Nat} (hi : i < raw.length) {v : Int}
    (hv : BitVec.ofInt 8 v =
      BitVec.ofInt 8 (ft.predictor (left bpp raw i) (prior.getD i 0).toNat (left bpp prior i))) :
    (encodeLine ft bpp prior raw).getD i 0 + BitVec.ofInt 8 v = raw.getD i 0 := by
  rw [encodeLine_getD ft hi, hv, BitVec.sub_add_cancel]

theorem ofInt_toInt (b : Byte) : BitVec.ofInt 8 b.toInt = BitVec.ofInt 8 (b.toNat : Int) := by
  rw [BitVec.ofInt_toInt, BitVec.ofInt_natCast, BitVec.ofNat_toNat, BitVec.setWidth_eq]

theorem paethPr_eq (a b c : Nat) : paethPr a b c = FilterType.paeth.predictor a b c := by
  have ha : (a : Int) + b - c - a = b - c := by omega
  have hb : (a : Int) + b - c - b = a - c := by omega
  have hc : (a : Int) + b - c - c = b - c + a - c := by omega
  rw [paethPr, FilterType.predictor, ha, hb, hc]

theorem paeth_above (b : Nat) : FilterType.paeth.predictor 0 b 0 = b := by
  rw [FilterType.predictor]
  split
  · rename_i h
    have hb : b = 0 := by simpa using h
    rw [hb]
  · simp

theorem doFilter_encodeLine (ft : FilterType) (hbpp : 0 < bpp) (hle : bpp ≤ raw.length) :
    doFilter (encodeLine ft bpp prior raw) prior ft.code.toNat bpp = raw := by
  have hlen := @encodeLine_length raw prior bpp ft
  have hstart : mixed raw (encodeLine ft bpp prior raw) 0 = encodeLine ft bpp prior raw := rfl
  have hend : mixed raw (encodeLine ft bpp prior raw) raw.length = raw := by
    rw [mixed, List.take_length, List.drop_of_length_le (by omega), List.append_nil]
  have hleft : ∀ i, bpp ≤ i → i < raw.length →
      ((mixed raw (encodeLine ft bpp prior raw) i).getD (i - bpp) 0).toNat = left bpp raw i := fun i hi hlt => by
    rw [mixed_getD_left (by omega) (by omega), left, if_neg (by omega)]
  have hfirst : ∀ i, i < bpp → left bpp raw i = 0 ∧ left bpp prior i = 0 := fun i hi => ⟨if_pos hi, if_pos hi⟩
  cases ft with
  | none =>
    change encodeLine _ bpp prior raw = raw
    refine (mixed_of_agree hlen (le_refl _) fun i hi => ?_).symm.trans hend
    have hturn := @turn_restores raw prior bpp .none i hi 0 rfl
    exact (BitVec.add_zero _).symm.trans hturn
  | sub =>
    have hagree : mixed raw (encodeLine .sub bpp prior raw) bpp = encodeLine .sub bpp prior raw := by
      refine mixed_of_agree hlen hle fun i hi => ?_
      rw [encodeLine_getD _ (by omega), (hfirst i hi).1]
      exact BitVec.sub_zero _
    change doSubFilter _ bpp = raw
    rw [doSubFilter, hlen, ← hagree]
    refine (addLoop_mixed hlen hle (le_refl _) fun i hi hlt => turn_restores .sub hlt ?_).trans hend
    rw [ofInt_toInt, hleft i hi hlt]
    rfl
  | up =>
    change doUpFilter _ prior = raw
    rw [doUpFilter, hlen, ← hstart]
    refine (addLoop_mixed hlen (Nat.zero_le _) (le_refl _) fun i hi hlt => turn_restores .up hlt ?_).trans hend
    exact ofInt_toInt _
  | average =>
    change doAvrgFilter _ prior bpp = raw
    have hinner := @addLoop_mixed raw _ (fun _ i => (prior.getD i 0).toNat / 2) hlen 0 bpp (Nat.zero_le bpp) hle
      fun i _ hlt => turn_restores .average (by omega) (by
        rw [(hfirst i hlt).1, FilterType.predictor, Nat.cast_zero, Int.zero_add])
    rw [hstart] at hinner
    rw [doAvrgFilter, hlen, hinner]
    refine (addLoop_mixed hlen hle (le_refl _) fun i hi hlt => turn_restores .average hlt ?_).trans hend
    rw [hleft i hi hlt]
    rfl
  | paeth =>
    change doPaethFilter _ prior bpp = raw
    have hinner := @addLoop_mixed raw _ (fun _ i => (prior.getD i 0).toInt) hlen 0 bpp (Nat.zero_le bpp) hle
      fun i _ hlt => turn_restores .paeth (by omega) (by
        rw [(hfirst i hlt).1, (hfirst i hlt).2, paeth_above, ofInt_toInt])
    rw [hstart] at hinner
    rw [doPaethFilter, hlen, hinner]
    refine (addLoop_mixed hlen hle (le_refl _) fun i hi hlt => turn_restores .paeth hlt ?_).trans hend
    have habove : ((prior.getD (i - bpp) 0).toNat : Int) = left bpp prior i := by
      rw [left, if_neg (by omega)]
    rw [hleft i hi hlt, habove, paethPr_eq]

end Filters

/-! ## Passes -/

def starting_y : List Nat := [0, 0, 4, 0, 2, 0, 1, 0]

def starting_x : List Nat := [0, 4, 0, 2, 0, 1, 0, 0]

def increment_y : List Nat := [8, 8, 8, 4, 4, 2, 2, 1]

def increment_x : List Nat := [8, 8, 4, 4, 2, 2, 1, 1]

def mipSize (size mip : Nat) (start increment : List Nat) : Nat :=
  (size - start.getD mip 0 + increment.getD mip 1 - 1) / increment.getD mip 1

def mipPos (pos mip : Nat) (start increment : List Nat) : Nat := start.getD mip 0 + pos * increment.getD mip 1

/-- What the loader knows of the image; `numBands` is that of the colour type. -/
structure Format where
  width : Nat
  height : Nat
  bitDepth : Nat
  numBands : Nat
  isInterlaced : Bool

def store (image : List Byte) (writes : List (Nat × Byte)) : List Byte :=
  writes.foldl (fun image w => image.set w.1 w.2) image

namespace Format

def bytesPerColor (f : Format) : Nat := if f.bitDepth = 16 then 2 else 1

def mipWidth (f : Format) (mip : Nat) : Nat := mipSize f.width mip starting_x increment_x

def mipHeight (f : Format) (mip : Nat) : Nat := mipSize f.height mip starting_y increment_y

/-- The product is an `int`: it may wrap, and then the size may be negative. -/
def scanLineSize (f : Format) (mip : Nat) : Int := (wrapInt (f.mipWidth mip * f.bitDepth * f.numBands + 7)).tdiv 8

/-- `copy_plain`, or `downsample16to8_plain` when a sample has two bytes. -/
def copyPlain (f : Format) (line : List Byte) (pos step : Nat) : List (Nat × Byte) :=
  (List.range (line.length / f.bytesPerColor / f.numBands)).flatMap fun i =>
    (List.range f.numBands).map fun b =>
      (pos + i * (step * f.numBands) + b, line.getD ((i * f.numBands + b) * f.bytesPerColor) 0)

/-- The stores for a line; a line of bytes that is not interlaced is copied as a whole. -/
def copy (f : Format) (line : List Byte) (pos step : Nat) : List (Nat × Byte) :=
  if f.bitDepth ≠ 16 ∧ step = 1 then (List.range line.length).map fun k => (pos + k, line.getD k 0)
  else f.copyPlain line pos step

def loadLines (f : Format) (mip : Nat) : Nat → Nat → List Byte → List Byte → List Byte → Option (List Byte × List Byte)
  | 0, _, _, image, data => some (image, data)
  | lines + 1, y, scanLine1, image, data =>
    match data with
    | [] => none
    | filterByte :: data =>
      if data.length < f.scanLineSize mip then none
      else
        let scanLine0 := doFilter (data.take (f.scanLineSize mip).toNat) scanLine1 filterByte.toNat
          (f.numBands * f.bytesPerColor)
        let pos := (mipPos y mip starting_y increment_y * f.width + starting_x.getD mip 0) * f.numBands
        f.loadLines mip lines (y + 1) scanLine0 (store image (f.copy scanLine0 pos (increment_x.getD mip 1)))
          (data.drop (f.scanLineSize mip).toNat)

def loadMip (f : Format) (mip : Nat) (image data : List Byte) : Option (List Byte × List Byte) :=
  if f.scanLineSize mip < 0 then none
  else f.loadLines mip (f.mipHeight mip) 0 (List.replicate (f.scanLineSize mip).toNat 0) image data

/-- The passes that are not empty. -/
def mips (f : Format) : List Nat :=
  if f.isInterlaced then
    (List.range 7).filter fun mip => f.width > starting_x.getD mip 0 && f.height > starting_y.getD mip 0
  else [7]

/-- The image and the data that are left; `none` is an `EOFException`, or that a line has a
negative size. -/
def load (f : Format) (image data : List Byte) : Option (List Byte × List Byte) :=
  f.mips.foldlM (fun s mip => f.loadMip mip s.1 s.2) (image, data)

/-! ## The format -/

/-- The line of a pass; `samples` are those of the image, row by row. -/
def rawLine (f : Format) (samples : List Byte) (mip y : Nat) : List Byte :=
  (List.range (f.mipWidth mip * (f.numBands * f.bytesPerColor))).map fun k =>
    let pixel := mipPos y mip starting_y increment_y * f.width +
      mipPos (k / (f.numBands * f.bytesPerColor)) mip starting_x increment_x
    samples.getD (pixel * (f.numBands * f.bytesPerColor) + k % (f.numBands * f.bytesPerColor)) 0

/-- The lines of a pass from line `y` on, each with a filter of its own. -/
def encodeLines (f : Format) (choice : Nat → Nat → FilterType) (samples : List Byte) (mip : Nat) :
    Nat → Nat → List Byte → List Byte
  | 0, _, _ => []
  | lines + 1, y, prior =>
    (choice mip y).code :: (encodeLine (choice mip y) (f.numBands * f.bytesPerColor) prior (f.rawLine samples mip y) ++
      f.encodeLines choice samples mip lines (y + 1) (f.rawLine samples mip y))

def encode (f : Format) (choice : Nat → Nat → FilterType) (samples : List Byte) : List Byte :=
  f.mips.flatMap fun mip =>
    f.encodeLines choice samples mip (f.mipHeight mip) 0
      (List.replicate (f.mipWidth mip * (f.numBands * f.bytesPerColor)) 0)

/-- The image of the high bytes of the samples. -/
def shown (f : Format) (samples : List Byte) : List Byte :=
  (List.range (f.width * f.height * f.numBands)).map fun k => samples.getD (k * f.bytesPerColor) 0

end Format

section Stores
variable {src : List Byte}

theorem store_append (image : List Byte) (ws vs : List (Nat × Byte)) :
    store image (ws ++ vs) = store (store image ws) vs := List.foldl_append

theorem store_length (image : List Byte) (ws : List (Nat × Byte)) : (store image ws).length = image.length := by
  induction ws generalizing image with
  | nil => rfl
  | cons w ws ih => rw [store, List.foldl_cons, ← store, ih, List.length_set]

theorem store_eq {image : List Byte} {ws : List (Nat × Byte)} (hlen : image.length = src.length)
    (hsound : ∀ w ∈ ws, src[w.1]? = some w.2) (hcover : ∀ p, p < src.length → ∃ w ∈ ws, w.1 = p) :
    store image ws = src := by
  have hat : ∀ p, (∃ w ∈ ws, w.1 = p) ∨ image[p]? = src[p]? → (store image ws)[p]? = src[p]? := by
    clear hcover
    intro p
    induction ws generalizing image with
    | nil =>
      rintro (⟨w, hw, -⟩ | hp)
      · cases hw
      · exact hp
    | cons w ws ih =>
      intro hp
      have hw := hsound w List.mem_cons_self
      have hlt := (List.getElem?_eq_some_iff.mp hw).1
      have hset : (image.set w.1 w.2).length = src.length := by rw [List.length_set, hlen]
      apply ih hset fun v hv => hsound v (List.mem_cons_of_mem _ hv)
      by_cases heq : w.1 = p
      · right
        rw [← heq, List.getElem?_set_self (by omega), hw]
      · rw [List.getElem?_set_ne heq]
        rcases hp with ⟨v, hv, hvp⟩ | hp
        · rcases List.mem_cons.mp hv with rfl | hv
          · exact absurd hvp heq
          · exact Or.inl ⟨v, hv, hvp⟩
        · exact Or.inr hp
  apply List.ext_getElem?
  intro p
  by_cases hp : p < src.length
  · exact hat p (Or.inl (hcover p hp))
  · rw [List.getElem?_eq_none (by rw [store_length]; omega), List.getElem?_eq_none (by omega)]

end Stores

/-! ## Positions -/

theorem lt_mipSize_iff {size mip i : Nat} {start increment : List Nat} (hinc : 0 < increment.getD mip 1)
    (hstart : start.getD mip 0 < size) :
    i < mipSize size mip start increment ↔ mipPos i mip start increment < size := by
  rw [mipSize, mipPos, Nat.lt_iff_add_one_le, Nat.le_div_iff_mul_le hinc, Nat.add_mul]
  omega

theorem exists_mipPos {x mip : Nat} {start increment : List Nat}
    (h : x % increment.getD mip 1 = start.getD mip 0) : ∃ i, mipPos i mip start increment = x :=
  ⟨x / increment.getD mip 1, by rw [mipPos, ← h, Nat.mod_add_div']⟩

theorem pass_of_pixel (x y : Nat) : ∃ mip, mip < 7 ∧ x % increment_x.getD mip 1 = starting_x.getD mip 0 ∧
    y % increment_y.getD mip 1 = starting_y.getD mip 0 := by
  by_cases hy2 : y % 2 = 1
  · exact ⟨6, by omega, Nat.mod_one x, hy2⟩
  · have hy2 : y % 2 = 0 := by omega
    by_cases hx2 : x % 2 = 1
    · exact ⟨5, by omega, hx2, hy2⟩
    · have hx2 : x % 2 = 0 := by omega
      by_cases hy4 : y % 4 = 2
      · exact ⟨4, by omega, hx2, hy4⟩
      · have hy4 : y % 4 = 0 := by omega
        by_cases hx4 : x % 4 = 2
        · exact ⟨3, by omega, hx4, hy4⟩
        · have hx4 : x % 4 = 0 := by omega
          by_cases hy8 : y % 8 = 4
          · exact ⟨2, by omega, hx4, hy8⟩
          · have hy8 : y % 8 = 0 := by omega
            by_cases hx8 : x % 8 = 4
            · exact ⟨1, by omega, hx8, hy8⟩
            · exact ⟨0, by omega, (by omega : x % 8 = 0), hy8⟩

namespace Format

/-- Samples of 8 or 16 bits; the sizes of a line and of the image are `int`s, and no sum
that `mipSize` makes of the height leaves the range. -/
structure Supported (f : Format) : Prop where
  width : 0 < f.width
  height : 0 < f.height
  numBands : 0 < f.numBands
  bitDepth : f.bitDepth = 8 ∨ f.bitDepth = 16
  line : f.width * f.bitDepth * f.numBands + 7 < 2 ^ 31
  rows : f.height + 7 < 2 ^ 31
  image : f.width * f.height * f.numBands < 2 ^ 31

variable {f : Format} {samples : List Byte} {mip : Nat}

theorem Supported.bytesPerColor_pos (_ : f.Supported) : 0 < f.bytesPerColor := by
  rw [bytesPerColor]
  split
  · omega
  · omega

theorem Supported.pixel_pos (h : f.Supported) : 0 < f.numBands * f.bytesPerColor :=
  Nat.mul_pos h.numBands h.bytesPerColor_pos

theorem mipSize_le {size mip : Nat} {start increment : List Nat} (hsize : 0 < size)
    (hinc : 0 < increment.getD mip 1) : mipSize size mip start increment ≤ size := by
  rw [mipSize]
  apply Nat.div_le_of_le_mul
  obtain ⟨k, hk⟩ := Nat.exists_eq_add_of_le hinc
  have hproduct : k ≤ k * size := Nat.le_mul_of_pos_right k hsize
  rw [hk, Nat.add_mul]
  omega

/-- No product wraps, so a line of a pass has the size that the format gives it. -/
theorem Supported.scanLineSize_eq (h : f.Supported) (hinc : 0 < increment_x.getD mip 1) :
    f.scanLineSize mip = (f.mipWidth mip * (f.numBands * f.bytesPerColor) : Nat) := by
  have hbits : f.mipWidth mip * f.bitDepth * f.numBands = 8 * (f.mipWidth mip * (f.numBands * f.bytesPerColor)) := by
    rw [bytesPerColor]
    rcases h.bitDepth with hdepth | hdepth
    · rw [if_neg (by omega), hdepth]
      ring
    · rw [if_pos hdepth, hdepth]
      ring
  have hlt : f.mipWidth mip * f.bitDepth * f.numBands + 7 < 2 ^ 31 := by
    have hwidth : f.mipWidth mip ≤ f.width := mipSize_le h.width hinc
    have hproduct : f.mipWidth mip * f.bitDepth * f.numBands ≤ f.width * f.bitDepth * f.numBands :=
      Nat.mul_le_mul_right _ (Nat.mul_le_mul_right _ hwidth)
    have hline := h.line
    omega
  have hwrap : wrapInt (f.mipWidth mip * f.bitDepth * f.numBands + 7) =
      (f.mipWidth mip * f.bitDepth * f.numBands + 7 : Nat) := wrapInt_of_lt (by positivity) (by exact_mod_cast hlt)
  rw [scanLineSize, hwrap, hbits, Int.tdiv_eq_ediv_of_nonneg (Int.natCast_nonneg _)]
  omega

theorem rawLine_length (y : Nat) : (f.rawLine samples mip y).length = f.mipWidth mip * (f.numBands * f.bytesPerColor) := by
  rw [rawLine, List.length_map, List.length_range]

/-- Where byte `b` of the pixel `(x, y)` is in the image. -/
def position (f : Format) (x y b : Nat) : Nat := (y * f.width + x) * f.numBands + b

theorem rawLine_getD (h : f.Supported) {i b y : Nat} (hi : i < f.mipWidth mip) (hb : b < f.numBands) :
    (f.rawLine samples mip y).getD ((i * f.numBands + b) * f.bytesPerColor) 0 =
      samples.getD (f.position (mipPos i mip starting_x increment_x) (mipPos y mip starting_y increment_y) b *
        f.bytesPerColor) 0 := by
  have hpos := h.pixel_pos
  have hinside : b * f.bytesPerColor < f.numBands * f.bytesPerColor :=
    Nat.mul_lt_mul_of_pos_right hb h.bytesPerColor_pos
  have hk : (i * f.numBands + b) * f.bytesPerColor = b * f.bytesPerColor + f.numBands * f.bytesPerColor * i := by ring
  have hlt : (i * f.numBands + b) * f.bytesPerColor < f.mipWidth mip * (f.numBands * f.bytesPerColor) := by
    calc (i * f.numBands + b) * f.bytesPerColor = b * f.bytesPerColor + f.numBands * f.bytesPerColor * i := hk
      _ < (i + 1) * (f.numBands * f.bytesPerColor) := by
        rw [Nat.succ_mul, Nat.mul_comm i]
        omega
      _ ≤ f.mipWidth mip * (f.numBands * f.bytesPerColor) := Nat.mul_le_mul_right _ hi
  rw [rawLine, List.getD_eq_getElem?_getD, List.getElem?_map, List.getElem?_range hlt, Option.map_some,
    Option.getD_some, hk, Nat.add_mul_div_left _ _ hpos, Nat.div_eq_of_lt hinside, Nat.zero_add, Nat.add_mul_mod_self_left,
    Nat.mod_eq_of_lt hinside, position]
  refine congrArg (samples.getD · 0) ?_
  ring

theorem mem_copy (h : f.Supported) {line : List Byte} {pos step : Nat} {w : Nat × Byte}
    (hline : line.length = f.mipWidth mip * (f.numBands * f.bytesPerColor)) :
    w ∈ f.copy line pos step ↔ ∃ i b, i < f.mipWidth mip ∧ b < f.numBands ∧
      w = (pos + i * (step * f.numBands) + b, line.getD ((i * f.numBands + b) * f.bytesPerColor) 0) := by
  rw [copy]
  split
  · rename_i hwhole
    have hbytes : f.bytesPerColor = 1 := if_neg hwhole.1
    rw [hbytes, Nat.mul_one] at hline
    rw [hbytes, hwhole.2, List.mem_map, hline]
    constructor
    · rintro ⟨k, hk, rfl⟩
      rw [List.mem_range] at hk
      refine ⟨k / f.numBands, k % f.numBands, Nat.div_lt_of_lt_mul (by rwa [Nat.mul_comm]), Nat.mod_lt _ h.numBands, ?_⟩
      rw [Nat.one_mul, Nat.mul_one, Nat.add_assoc, Nat.div_add_mod']
    · rintro ⟨i, b, hi, hb, rfl⟩
      refine ⟨i * f.numBands + b, List.mem_range.mpr ?_, by rw [Nat.one_mul, Nat.mul_one, Nat.add_assoc]⟩
      calc i * f.numBands + b < (i + 1) * f.numBands := by
            rw [Nat.succ_mul]
            omega
        _ ≤ f.mipWidth mip * f.numBands := Nat.mul_le_mul_right _ hi
  · have hpixels : line.length / f.bytesPerColor / f.numBands = f.mipWidth mip := by
      rw [hline, Nat.div_div_eq_div_mul, Nat.mul_comm f.bytesPerColor, Nat.mul_div_cancel _ h.pixel_pos]
    simp only [copyPlain, hpixels, List.mem_flatMap, List.mem_map, List.mem_range]
    constructor
    · rintro ⟨i, hi, b, hb, rfl⟩
      exact ⟨i, b, hi, hb, rfl⟩
    · rintro ⟨i, b, hi, hb, rfl⟩
      exact ⟨i, hi, b, hb, rfl⟩

def lineStores (f : Format) (samples : List Byte) (mip y : Nat) : List (Nat × Byte) :=
  f.copy (f.rawLine samples mip y)
    ((mipPos y mip starting_y increment_y * f.width + starting_x.getD mip 0) * f.numBands) (increment_x.getD mip 1)

theorem mem_lineStores (h : f.Supported) {y : Nat} {w : Nat × Byte} :
    w ∈ f.lineStores samples mip y ↔ ∃ i b, i < f.mipWidth mip ∧ b < f.numBands ∧
      w.1 = f.position (mipPos i mip starting_x increment_x) (mipPos y mip starting_y increment_y) b ∧
      w.2 = samples.getD (w.1 * f.bytesPerColor) 0 := by
  have hposition : ∀ i b, (mipPos y mip starting_y increment_y * f.width + starting_x.getD mip 0) * f.numBands +
      i * (increment_x.getD mip 1 * f.numBands) + b =
        f.position (mipPos i mip starting_x increment_x) (mipPos y mip starting_y increment_y) b := fun i b => by
    simp only [position, mipPos]
    ring
  rw [lineStores, mem_copy h (rawLine_length y)]
  constructor
  · rintro ⟨i, b, hi, hb, rfl⟩
    refine ⟨i, b, hi, hb, hposition i b, ?_⟩
    rw [rawLine_getD h hi hb, ← hposition]
  · rintro ⟨i, b, hi, hb, hfirst, hsecond⟩
    refine ⟨i, b, hi, hb, Prod.ext (hfirst.trans (hposition i b).symm) ?_⟩
    rw [hsecond, hfirst, rawLine_getD h hi hb]

theorem loadLines_encodeLines (h : f.Supported) (choice : Nat → Nat → FilterType) (hwidth : 0 < f.mipWidth mip)
    (hinc : 0 < increment_x.getD mip 1) (rest : List Byte) (lines : Nat) : ∀ (y : Nat) (prior image : List Byte),
    f.loadLines mip lines y prior image (f.encodeLines choice samples mip lines y prior ++ rest) =
      some (store image ((List.range' y lines).flatMap (f.lineStores samples mip)), rest) := by
  induction lines with
  | zero =>
    intro y prior image
    rfl
  | succ lines ih =>
    intro y prior image
    have hscan := h.scanLineSize_eq hinc
    have hsize : (encodeLine (choice mip y) (f.numBands * f.bytesPerColor) prior (f.rawLine samples mip y)).length =
        (f.scanLineSize mip).toNat := by
      rw [encodeLine_length, rawLine_length, hscan, Int.toNat_natCast]
    have hline := @doFilter_encodeLine (f.rawLine samples mip y) prior _ (choice mip y) h.pixel_pos
      (by rw [rawLine_length]; exact Nat.le_mul_of_pos_left _ hwidth)
    rw [encodeLines, List.cons_append, List.append_assoc, loadLines, if_neg (by rw [List.length_append]; omega),
      List.take_left' hsize, List.drop_left' hsize, hline]
    dsimp only
    rw [ih, List.range'_succ, List.flatMap_cons, store_append]
    rfl

def stores (f : Format) (samples : List Byte) (mips : List Nat) : List (Nat × Byte) :=
  mips.flatMap fun mip => (List.range (f.mipHeight mip)).flatMap (f.lineStores samples mip)

theorem start_lt (hmip : mip ∈ f.mips) (h : f.Supported) :
    starting_x.getD mip 0 < f.width ∧ starting_y.getD mip 0 < f.height := by
  rw [mips] at hmip
  split at hmip
  · simpa using (List.mem_filter.mp hmip).2
  · rw [List.mem_singleton.mp hmip]
    exact ⟨h.width, h.height⟩

theorem increment_pos (hmip : mip ∈ f.mips) : 0 < increment_x.getD mip 1 ∧ 0 < increment_y.getD mip 1 := by
  have hlt : mip < 8 := by
    rw [mips] at hmip
    split at hmip
    · have := List.mem_range.mp (List.mem_filter.mp hmip).1
      omega
    · rw [List.mem_singleton.mp hmip]
      omega
  have hall : ∀ m < 8, 0 < increment_x.getD m 1 ∧ 0 < increment_y.getD m 1 := by decide
  exact hall mip hlt

theorem shown_getElem? (samples : List Byte) {p : Nat} (hp : p < f.width * f.height * f.numBands) :
    (f.shown samples)[p]? = some (samples.getD (p * f.bytesPerColor) 0) := by
  rw [shown, List.getElem?_map, List.getElem?_range hp]
  rfl

theorem position_lt {x y b : Nat} (hx : x < f.width) (hy : y < f.height) (hb : b < f.numBands) :
    f.position x y b < f.width * f.height * f.numBands := by
  rw [position]
  calc (y * f.width + x) * f.numBands + b < (y * f.width + x + 1) * f.numBands := by
        rw [Nat.succ_mul]
        omega
    _ ≤ f.width * f.height * f.numBands := by
        apply Nat.mul_le_mul_right
        calc y * f.width + x + 1 ≤ (y + 1) * f.width := by
              rw [Nat.succ_mul]
              omega
          _ ≤ f.height * f.width := Nat.mul_le_mul_right _ hy
          _ = f.width * f.height := Nat.mul_comm _ _

theorem exists_position (h : f.Supported) {p : Nat} (hp : p < f.width * f.height * f.numBands) :
    ∃ x y b, x < f.width ∧ y < f.height ∧ b < f.numBands ∧ f.position x y b = p := by
  have hpixel : p / f.numBands < f.width * f.height := Nat.div_lt_of_lt_mul (by rwa [Nat.mul_comm])
  refine ⟨p / f.numBands % f.width, p / f.numBands / f.width, p % f.numBands, Nat.mod_lt _ h.width,
    Nat.div_lt_of_lt_mul hpixel, Nat.mod_lt _ h.numBands, ?_⟩
  rw [position, Nat.div_add_mod', Nat.div_add_mod']

theorem mip_of_pixel {x y : Nat} (hx : x < f.width) (hy : y < f.height) : ∃ mip ∈ f.mips,
    (∃ i, mipPos i mip starting_x increment_x = x) ∧ ∃ j, mipPos j mip starting_y increment_y = y := by
  rw [mips]
  split
  · obtain ⟨mip, hlt, hmodx, hmody⟩ := pass_of_pixel x y
    have hxle := Nat.mod_le x (increment_x.getD mip 1)
    have hyle := Nat.mod_le y (increment_y.getD mip 1)
    refine ⟨mip, List.mem_filter.mpr ⟨List.mem_range.mpr hlt, ?_⟩, exists_mipPos hmodx, exists_mipPos hmody⟩
    simp only [Bool.and_eq_true, decide_eq_true_eq]
    omega
  · exact ⟨7, List.mem_singleton_self _, exists_mipPos (Nat.mod_one x), exists_mipPos (Nat.mod_one y)⟩

theorem load_encode_stores (h : f.Supported) (choice : Nat → Nat → FilterType) (rest image : List Byte)
    (hwidth : ∀ mip ∈ f.mips, 0 < f.mipWidth mip) (hinc : ∀ mip ∈ f.mips, 0 < increment_x.getD mip 1) :
    f.load image (f.encode choice samples ++ rest) = some (store image (f.stores samples f.mips), rest) := by
  rw [load, encode, stores]
  generalize f.mips = mips at hwidth hinc
  induction mips generalizing image with
  | nil => rfl
  | cons mip mips ih =>
    have hscan := h.scanLineSize_eq (hinc mip List.mem_cons_self)
    rw [List.flatMap_cons, List.append_assoc, List.foldlM_cons, loadMip, if_neg (by omega), hscan, Int.toNat_natCast,
      loadLines_encodeLines h choice (hwidth mip List.mem_cons_self) (hinc mip List.mem_cons_self), List.flatMap_cons,
      store_append, List.range_eq_range']
    exact ih _ (fun m hm => hwidth m (List.mem_cons_of_mem _ hm)) fun m hm => hinc m (List.mem_cons_of_mem _ hm)

/-- An image comes back from its encoding, whatever filter each line has, with or without
interlacing. -/
theorem load_encode (h : f.Supported) (choice : Nat → Nat → FilterType) (rest image : List Byte)
    (himage : image.length = f.width * f.height * f.numBands) :
    f.load image (f.encode choice samples ++ rest) = some (f.shown samples, rest) := by
  have hlength : (f.shown samples).length = f.width * f.height * f.numBands := by
    rw [shown, List.length_map, List.length_range]
  have hx : ∀ mip ∈ f.mips, ∀ i, i < f.mipWidth mip ↔ mipPos i mip starting_x increment_x < f.width := fun mip hmip i =>
    lt_mipSize_iff (increment_pos hmip).1 (start_lt hmip h).1
  have hy : ∀ mip ∈ f.mips, ∀ j, j < f.mipHeight mip ↔ mipPos j mip starting_y increment_y < f.height := fun mip hmip j =>
    lt_mipSize_iff (increment_pos hmip).2 (start_lt hmip h).2
  rw [load_encode_stores h choice rest image, store_eq (himage.trans hlength.symm)]
  · intro w hw
    obtain ⟨mip, hmip, hw⟩ := List.mem_flatMap.mp hw
    obtain ⟨j, hj, hw⟩ := List.mem_flatMap.mp hw
    obtain ⟨i, b, hi, hb, hposition, hvalue⟩ := (mem_lineStores h).mp hw
    rw [hvalue, shown_getElem?]
    rw [hposition]
    exact position_lt ((hx mip hmip i).mp hi) ((hy mip hmip j).mp (List.mem_range.mp hj)) hb
  · intro p hp
    obtain ⟨x, y, b, hxlt, hylt, hb, rfl⟩ := exists_position h (hlength ▸ hp)
    obtain ⟨mip, hmip, ⟨i, rfl⟩, j, rfl⟩ := mip_of_pixel hxlt hylt
    have hstore : (f.position (mipPos i mip starting_x increment_x) (mipPos j mip starting_y increment_y) b,
        samples.getD (f.position (mipPos i mip starting_x increment_x) (mipPos j mip starting_y increment_y) b *
          f.bytesPerColor) 0) ∈ f.lineStores samples mip j :=
      (mem_lineStores h).mpr ⟨i, b, (hx mip hmip i).mpr hxlt, hb, rfl, rfl⟩
    have hline : j ∈ List.range (f.mipHeight mip) := List.mem_range.mpr ((hy mip hmip j).mpr hylt)
    exact ⟨_, List.mem_flatMap.mpr ⟨mip, hmip, List.mem_flatMap.mpr ⟨j, hline, hstore⟩⟩, rfl⟩
  · intro mip hmip
    rw [hx mip hmip, mipPos, Nat.zero_mul, Nat.add_zero]
    exact (start_lt hmip h).1
  · exact fun mip hmip => (increment_pos hmip).1

/-- Two rows of three gray pixels, interlaced. -/
theorem load_encode_gray :
    load ⟨3, 2, 8, 1, true⟩ (List.replicate 6 0)
        (encode ⟨3, 2, 8, 1, true⟩ (fun _ y => if y = 0 then .paeth else .average) [1, 2, 3, 4, 5, 6] ++ []) =
      some (shown ⟨3, 2, 8, 1, true⟩ [1, 2, 3, 4, 5, 6], []) :=
  load_encode ⟨by decide, by decide, by decide, Or.inl rfl, by decide, by decide, by decide⟩ _ _ _ rfl

end Format

end OpenJfx.Iio.PNGScanLines
