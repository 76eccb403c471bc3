import OpenJfx.Lib.Java
import OpenJfx.Lib.NearestEven
import Mathlib.Algebra.Group.Action.Defs
import Mathlib.Algebra.Order.BigOperators.Group.List
import Mathlib.Logic.Function.Basic

/-! # `SmoothMinifier`

Box averages of an image whose lines are pushed one by one, over a ring of
`boxHeight` averaged lines.  Arrays are functions of the index.  Of the products
`(int) (dx * scaleX)` and `(int) (dy * scaleY)` of doubles the result only uses what `Scale` has. -/
set_option autoImplicit false
namespace OpenJfx.Iio
open OpenJfx.Lib

/-- The sizes that the constructor admits; its sums stay in the range of an `int`. -/
structure Sizes where
  sourceWidth : Nat
  sourceHeight : Nat
  numBands : Nat
  destWidth : Nat
  destHeight : Nat
  numBands_pos : 0 < numBands
  destWidth_pos : 0 < destWidth
  destHeight_pos : 0 < destHeight
  width_le : destWidth ≤ sourceWidth
  height_le : destHeight ≤ sourceHeight
  widths : sourceWidth + destWidth ≤ 2 ^ 31
  heights : sourceHeight + destHeight ≤ 2 ^ 31

namespace Sizes
variable (S : Sizes)

def boxHeight : Nat := (S.sourceHeight + S.destHeight - 1) / S.destHeight
def boxTop : Nat := S.boxHeight / 2
def boxBottom : Nat := S.boxHeight - S.boxTop - 1

theorem boxHeight_bounds : 0 < S.boxHeight ∧ S.boxHeight < 2 ^ 31 := by
  have hpos := S.destHeight_pos
  have hle := S.height_le
  have hsum := S.heights
  refine ⟨Nat.div_pos (by omega) hpos, ?_⟩
  have := Nat.div_le_self (S.sourceHeight + S.destHeight - 1) S.destHeight
  rw [boxHeight]
  omega

end Sizes

/-- The rounded positions `(int) (dx * scaleX)` and `(int) (dy * scaleY)`: successive rows are at least
one line apart, the boxes in front of the last one end before the last line, and the last row is off
by one line at most. -/
structure Scale extends Sizes where
  column : Nat → Nat
  row : Nat → Nat
  row_lt : ∀ dy, dy + 1 < destHeight → row dy < row (dy + 1)
  row_inside : ∀ dy, dy + 1 < destHeight → row dy + toSizes.boxBottom + 1 < sourceHeight
  row_last : sourceHeight ≤ row (destHeight - 1) + toSizes.boxHeight + 1

structure SmoothMinifier where
  sourceData : Nat → Nat → Byte
  sourceLine : Nat
  sourceDataLine : Nat
  destLine : Nat
  dest : Nat → Byte

/-- The sum of the samples in an `int`, divided and cut to a byte. -/
def average (samples : List Byte) (count : Int) : Byte :=
  BitVec.ofInt 8 ((samples.foldl (fun val sample => wrapInt (val + sample.toNat)) 0).tdiv count)

namespace Scale
variable (S : Scale)

end Scale

namespace SmoothMinifier
variable (S : Scale)

def new : SmoothMinifier := ⟨fun _ _ => 0, 0, 0, 0, fun _ => 0⟩

def increment (m : SmoothMinifier) : SmoothMinifier :=
  { m with
    sourceLine := m.sourceLine + 1
    sourceDataLine :=
      if m.sourceLine + 1 ≠ S.sourceHeight then (m.sourceDataLine + 1) % S.boxHeight else m.sourceDataLine }

end SmoothMinifier

/-! ## The box average -/

namespace Scale
variable (S : Scale)

end Scale

section Lines
variable {S : Scale}

/-- The slots hold the lines before `t`, as far as they are not overwritten. -/
def Ring (S : Scale) (lines : Nat → Nat → Byte) (t : Nat) (data : Nat → Nat → Byte) : Prop :=
  ∀ i, i < t → t ≤ i + S.boxHeight → data (i % S.boxHeight) = lines i

theorem Ring.push {lines : Nat → Nat → Byte} {t : Nat} {data : Nat → Nat → Byte} (h : Ring S lines t data) :
    Ring S lines (t + 1) (Function.update data (t % S.boxHeight) (lines t)) := by
  intro i hi hnear
  by_cases hnew : i = t
  · rw [hnew, Function.update_self]
  · have hother : i % S.boxHeight ≠ t % S.boxHeight := by
      intro heq
      have hzero := Nat.sub_mod_eq_zero_of_mod_eq heq.symm
      rw [Nat.mod_eq_of_lt (by omega)] at hzero
      omega
    rw [Function.update_of_ne hother]
    exact h i (by omega) (by omega)

/-- The line that the ring holds at the end in the slot of line `i`. -/
def Scale.held (S : Scale) (i : Nat) : Nat := S.sourceHeight - 1 - (S.sourceHeight - 1 - i) % S.boxHeight

end Lines

def scaleBits (source dest : Nat) : Nat := 52 - (source / dest).log2

/-- `(double) source / (double) dest`. -/
def scaleUnits (source dest : Nat) : Nat := roundEven dest (source * 2 ^ scaleBits source dest)

/-- `(int) (d * scale)`. -/
def scaled (source dest d : Nat) : Nat :=
  nearestEven 53 (d * scaleUnits source dest) / 2 ^ scaleBits source dest

section Scaled
variable {source dest d : Nat} (hdest : 0 < dest) (hle : dest ≤ source) (hsum : source + dest ≤ 2 ^ 31)
include hdest hle hsum

/-- The quotient is less than `2 ^ 31`, so at least 22 places are left. -/
theorem scaleBits_spec :
    2 ^ scaleBits source dest * 2 ^ (source / dest).log2 = 2 ^ 52 ∧ dest * 2 ^ (source / dest).log2 ≤ source := by
  have hpos : source / dest ≠ 0 := Nat.ne_of_gt (Nat.div_pos hle hdest)
  have hself : 2 ^ (source / dest).log2 ≤ source / dest := Nat.log2_self_le hpos
  have hsource : dest * 2 ^ (source / dest).log2 ≤ source :=
    (Nat.mul_le_mul_left dest hself).trans (Nat.mul_div_le source dest)
  have hlog : (source / dest).log2 < 31 := by
    have hquot := Nat.div_le_self source dest
    exact (Nat.log2_lt hpos).mpr (by omega)
  refine ⟨?_, hsource⟩
  rw [scaleBits, ← Nat.pow_add]
  exact congrArg (2 ^ ·) (by omega)

omit hsum in
theorem scaleUnits_ge : 2 ^ scaleBits source dest ≤ scaleUnits source dest := by
  obtain ⟨-, hbelow⟩ := roundEven_error hdest (source * 2 ^ scaleBits source dest)
  have hsource := Nat.mul_le_mul_right (2 ^ scaleBits source dest) hle
  have hcancel : dest * (2 * 2 ^ scaleBits source dest) ≤ dest * (2 * scaleUnits source dest + 1) := by
    rw [scaleUnits]
    linarith
  have := Nat.le_of_mul_le_mul_left hcancel hdest
  omega

/-- The integers that are rounded keep 21 of their 53 bits for the places. -/
theorem product_lt (hd : d < dest) :
    8 * (d * scaleUnits source dest) ≤ 2 ^ 53 * 2 ^ scaleBits source dest ∧ 4 * d ≤ 2 ^ scaleBits source dest := by
  obtain ⟨hplaces, hquot⟩ := scaleBits_spec hdest hle hsum
  obtain ⟨habove, -⟩ := roundEven_error hdest (source * 2 ^ scaleBits source dest)
  have hpos : 0 < 2 ^ scaleBits source dest := Nat.two_pow_pos _
  have hproduct : d * scaleUnits source dest ≤ scaleUnits source dest * dest := by
    rw [Nat.mul_comm]
    exact Nat.mul_le_mul_left _ (by omega)
  have hsource : source * 2 ^ scaleBits source dest ≤ 2 ^ 31 * 2 ^ scaleBits source dest :=
    Nat.mul_le_mul_right _ (by omega)
  have hself : source ≤ source * 2 ^ scaleBits source dest := Nat.le_mul_of_pos_right _ hpos
  refine ⟨?_, ?_⟩
  · rw [← scaleUnits] at habove
    omega
  · have hunits := Nat.mul_le_mul_right (2 ^ (source / dest).log2) (by omega : d ≤ dest)
    refine Nat.le_of_mul_le_mul_right ?_ (Nat.two_pow_pos (source / dest).log2)
    rw [hplaces, Nat.mul_assoc]
    omega

/-- Both roundings together are off by less than a quarter. -/
theorem product_error (hd : d < dest) :
    4 * (dest * nearestEven 53 (d * scaleUnits source dest)) ≤
        4 * (d * source * 2 ^ scaleBits source dest) + dest * 2 ^ scaleBits source dest ∧
      4 * (d * source * 2 ^ scaleBits source dest) ≤
        4 * (dest * nearestEven 53 (d * scaleUnits source dest)) + dest * 2 ^ scaleBits source dest := by
  obtain ⟨hbits, hplaces⟩ := product_lt hdest hle hsum hd
  obtain ⟨hscaleAbove, hscaleBelow⟩ := roundEven_error hdest (source * 2 ^ scaleBits source dest)
  obtain ⟨habove, hbelow⟩ := nearestEven_error (by decide : 0 < 53) (d * scaleUnits source dest)
  rw [← scaleUnits] at hscaleAbove hscaleBelow
  generalize 2 ^ scaleBits source dest = places at *
  generalize scaleUnits source dest = units at *
  generalize nearestEven 53 (d * units) = rounded at *
  have hroundAbove := Nat.mul_le_mul_left dest (by omega : 8 * rounded ≤ 8 * (d * units) + places)
  have hroundBelow := Nat.mul_le_mul_left dest (by omega : 8 * (d * units) ≤ 8 * rounded + places)
  have hunitsAbove := Nat.mul_le_mul_left d hscaleAbove
  have hunitsBelow := Nat.mul_le_mul_left d hscaleBelow
  have hquarter := Nat.mul_le_mul_left dest hplaces
  constructor
  · linarith
  · linarith

theorem scaled_le (hd : d < dest) : 4 * (dest * scaled source dest d) ≤ 4 * (d * source) + dest := by
  obtain ⟨habove, -⟩ := product_error hdest hle hsum hd
  have hcut := Nat.mul_le_mul_left dest (Nat.div_mul_le_self (nearestEven 53 (d * scaleUnits source dest))
    (2 ^ scaleBits source dest))
  refine Nat.le_of_mul_le_mul_right ?_ (Nat.two_pow_pos (scaleBits source dest))
  rw [scaled]
  linarith

theorem lt_scaled (hd : d < dest) : 4 * (d * source) < 4 * (dest * (scaled source dest d + 1)) + dest := by
  obtain ⟨-, hbelow⟩ := product_error hdest hle hsum hd
  have hcut := Nat.mul_lt_mul_of_pos_left (Nat.lt_div_mul_add (a := nearestEven 53 (d * scaleUnits source dest))
    (Nat.two_pow_pos (scaleBits source dest))) hdest
  refine Nat.lt_of_mul_lt_mul_right (a := 2 ^ scaleBits source dest) ?_
  rw [scaled]
  linarith

/-- The positions grow: adding 1 to a product adds 1 to what it is rounded to, or more. -/
theorem scaled_lt (hd : d + 1 < dest) : scaled source dest d < scaled source dest (d + 1) := by
  obtain ⟨hbits, hplaces⟩ := product_lt hdest hle hsum (by omega : d < dest)
  have hgrows := scaleUnits_ge hdest hle
  have hpos : 0 < 2 ^ scaleBits source dest := Nat.two_pow_pos _
  have hlog : (d * scaleUnits source dest + 2 ^ scaleBits source dest).log2 < 51 + scaleBits source dest := by
    refine (Nat.log2_lt (by omega)).mpr ?_
    rw [Nat.pow_add]
    omega
  have hpositive : 0 < scaleBits source dest := by
    by_contra hzero
    obtain ⟨hfull, hquot⟩ := scaleBits_spec hdest hle hsum
    rw [Nat.eq_zero_of_not_pos hzero, Nat.pow_zero, Nat.one_mul] at hfull
    have hone := Nat.mul_le_mul_right (2 ^ (source / dest).log2) hdest
    omega
  have hunits : 2 * unitAt 53 (d * scaleUnits source dest + 2 ^ scaleBits source dest) ∣ 2 ^ scaleBits source dest := by
    rw [unitAt, Nat.mul_comm, ← Nat.pow_succ]
    exact Nat.pow_dvd_pow 2 (by omega)
  have hnext := nearestEven_add (by decide) hunits hpos (Nat.div_mul_le_self _ _)
  rw [scaled, scaled, ← Nat.succ_le_iff, Nat.le_div_iff_mul_le hpos, Nat.succ_mul d]
  exact hnext.trans (nearestEven_mono (by decide) (by omega))

end Scaled

section Positions
variable (S : Sizes)

theorem boxHeight_exact :
    S.sourceHeight ≤ S.boxHeight * S.destHeight ∧ S.boxHeight * S.destHeight < S.sourceHeight + S.destHeight := by
  have hpos := S.destHeight_pos
  have hadd := Nat.div_add_mod (S.sourceHeight + S.destHeight - 1) S.destHeight
  have hlt := Nat.mod_lt (S.sourceHeight + S.destHeight - 1) hpos
  have hheight : S.destHeight * ((S.sourceHeight + S.destHeight - 1) / S.destHeight) = S.boxHeight * S.destHeight :=
    Nat.mul_comm _ _
  omega

/-- The positions that the constructor computes. -/
def Sizes.positions : Scale where
  toSizes := S
  column := scaled S.sourceWidth S.destWidth
  row := scaled S.sourceHeight S.destHeight
  row_lt := fun _ h => scaled_lt S.destHeight_pos S.height_le S.heights h
  row_inside := fun dy h => by
    have hle := S.height_le
    have hrow := scaled_le S.destHeight_pos S.height_le S.heights (by omega : dy < S.destHeight)
    obtain ⟨-, hhigh⟩ := boxHeight_exact S
    obtain ⟨hbox, -⟩ := S.boxHeight_bounds
    have hrows := Nat.mul_le_mul_right S.sourceHeight (by omega : dy + 2 ≤ S.destHeight)
    have hbottom : 2 * (S.boxBottom + 1) ≤ S.boxHeight + 1 := by
      rw [Sizes.boxBottom, Sizes.boxTop]
      omega
    have hheight := Nat.mul_le_mul_left S.destHeight hbottom
    by_contra hno
    have hall := Nat.mul_le_mul_left S.destHeight (not_lt.mp hno)
    linarith
  row_last := by
    have hpos := S.destHeight_pos
    have hrow := lt_scaled S.destHeight_pos S.height_le S.heights (by omega : S.destHeight - 1 < S.destHeight)
    obtain ⟨hlow, -⟩ := boxHeight_exact S
    obtain ⟨d, hd⟩ : ∃ d, S.destHeight = d + 1 := ⟨S.destHeight - 1, by omega⟩
    by_contra hno
    have hall := Nat.mul_le_mul_left S.destHeight (not_le.mp hno)
    have hlast : (S.destHeight - 1) * S.sourceHeight + S.sourceHeight = S.destHeight * S.sourceHeight := by
      rw [hd, Nat.add_sub_cancel, Nat.succ_mul]
    linarith

end Positions

end OpenJfx.Iio
