import OpenJfx.Lib.Arrays
import OpenJfx.Lib.Java

/-! # `ImageTools.convert`

The loops over the rows and the pixels of an image, with the offsets into both
arrays.  Offsets stay inside of the arrays and are natural numbers.  The product
of a sample with its opacity, a `float` one, is a parameter. -/
set_option autoImplicit false
namespace OpenJfx.Iio
open OpenJfx.Lib

inductive ImageType where
  | gray
  | grayAlpha
  | grayAlphaPre
  | palette
  | paletteAlpha
  | paletteAlphaPre
  | paletteTrans
  | rgb
  | rgba
  | rgbaPre
deriving DecidableEq, Repr

/-- The planes of `byte[][] palette`. -/
structure Palette where
  red : List Byte
  green : List Byte
  blue : List Byte
  alpha : List Byte

/-- The two arrays and the offsets of a row's loop; without `input` the image is converted in place. -/
structure Conversion where
  input : Option (List Byte)
  output : List Byte
  inOff : Nat
  outOff : Nat
deriving DecidableEq, Repr

namespace Conversion

def array (s : Conversion) : List Byte := s.input.getD s.output

/-- `input[inOff++]`. -/
def take (next : Byte → Conversion → Outcome Exn Conversion) (s : Conversion) : Outcome Exn Conversion :=
  match readAt s.array s.inOff with
  | .error x => .thrown x s
  | .ok b => next b { s with inOff := s.inOff + 1 }

/-- `plane[index]`. -/
def look (plane : List Byte) (index : Byte) (next : Byte → Conversion → Outcome Exn Conversion) (s : Conversion) :
    Outcome Exn Conversion :=
  match readAt plane index.toNat with
  | .error x => .thrown x s
  | .ok b => next b s

/-- `output[outOff++] = b`. -/
def put (b : Byte) (s : Conversion) : Outcome Exn Conversion :=
  match writeAt s.output s.outOff b with
  | .error x => .thrown x s
  | .ok output => .done { s with output := output, outOff := s.outOff + 1 }

def putAll (bs : List Byte) (s : Conversion) : Outcome Exn Conversion := Outcome.run put bs s

/-! ## The pixels -/

section Pixels
variable (premultiply : Byte → Byte → Byte) (palette : Palette)

def grayAlpha : Conversion → Outcome Exn Conversion :=
  take fun gray => take fun alpha =>
    let gray := premultiply alpha gray
    putAll [gray, gray, gray, alpha]

def grayAlphaPre : Conversion → Outcome Exn Conversion :=
  take fun gray s => (s.putAll [gray, gray, gray]).bind (take put)

/-- The planes are read between the writes. -/
def palettePixel : Conversion → Outcome Exn Conversion :=
  take fun index s =>
    ((look palette.red index put s).bind (look palette.green index put)).bind (look palette.blue index put)

def paletteAlpha : Conversion → Outcome Exn Conversion :=
  take fun index => look palette.red index fun r => look palette.green index fun g => look palette.blue index fun b =>
    look palette.alpha index fun a => putAll [premultiply a r, premultiply a g, premultiply a b, a]

def paletteAlphaPre : Conversion → Outcome Exn Conversion :=
  take fun index s =>
    (((look palette.red index put s).bind (look palette.green index put)).bind (look palette.blue index put)).bind
      (look palette.alpha index put)

def paletteTrans (transparentIndex : Int) (skipTransparent : Bool) : Conversion → Outcome Exn Conversion :=
  take fun index s =>
    if (index.toNat : Int) = transparentIndex then
      if skipTransparent then .done { s with outOff := s.outOff + 4 } else s.putAll [0, 0, 0, 0]
    else
      (((look palette.red index put s).bind (look palette.green index put)).bind (look palette.blue index put)).bind
        (put 255)

def rgba : Conversion → Outcome Exn Conversion :=
  take fun red => take fun green => take fun blue => take fun alpha =>
    putAll [premultiply alpha red, premultiply alpha green, premultiply alpha blue, alpha]

end Pixels

/-! ## The loops -/

/-- The loop over `x`, with the number of pixels left. -/
def columns (pixel : Conversion → Outcome Exn Conversion) : Nat → Conversion → Outcome Exn Conversion
  | 0, s => .done s
  | x + 1, s => (pixel s).bind (columns pixel x)

end Conversion

/-- `input` and `output`. -/
abbrev Arrays := Option (List Byte) × List Byte

def scanline (pixel : Conversion → Outcome Exn Conversion) (width inOffset outOffset : Nat) (a : Arrays) :
    Outcome Exn Arrays :=
  (Conversion.columns pixel width ⟨a.1, a.2, inOffset, outOffset⟩).map fun s => (s.input, s.output)

def copyRow (bytesPerRow inOffset outOffset : Nat) (a : Arrays) : Outcome Exn Arrays :=
  match arraycopy (a.1.getD a.2) inOffset a.2 outOffset bytesPerRow with
  | .error x => .thrown x a
  | .ok output => .done (a.1, output)

def rowLoop (inRowStride outRowStride : Nat) (row : Nat → Nat → Arrays → Outcome Exn Arrays) :
    Nat → Nat → Nat → Arrays → Outcome Exn Arrays
  | 0, _, _, a => .done a
  | y + 1, inOffset, outOffset, a =>
      (row inOffset outOffset a).bind
        (rowLoop inRowStride outRowStride row y (inOffset + inRowStride) (outOffset + outRowStride))

/-- What does not change from row to row. -/
structure Format where
  premultiply : Byte → Byte → Byte
  palette : Palette
  transparentIndex : Int
  skipTransparent : Bool

namespace ImageTools

def convert (f : Format) (width height : Nat) (inputType : ImageType)
    (inputOffset inRowStride outputOffset outRowStride : Nat) (a : Arrays) : Outcome Exn Arrays :=
  let copy (bytesPerRow : Nat) : Outcome Exn Arrays :=
    if a.1 = none then .done a
    else if height = 1 then copyRow bytesPerRow inputOffset outputOffset a
    else rowLoop inRowStride outRowStride (copyRow bytesPerRow) height inputOffset outputOffset a
  let loop (pixel : Conversion → Outcome Exn Conversion) : Outcome Exn Arrays :=
    rowLoop inRowStride outRowStride (scanline pixel width) height inputOffset outputOffset a
  match inputType with
  | .gray => copy width
  | .rgb => copy (width * 3)
  | .rgbaPre => copy (width * 4)
  | .grayAlpha => loop (Conversion.grayAlpha f.premultiply)
  | .grayAlphaPre => loop Conversion.grayAlphaPre
  -- these two have no loop over the rows
  | .palette => scanline (Conversion.palettePixel f.palette) width inputOffset outputOffset a
  | .paletteAlpha => scanline (Conversion.paletteAlpha f.premultiply f.palette) width inputOffset outputOffset a
  | .paletteAlphaPre => loop (Conversion.paletteAlphaPre f.palette)
  | .paletteTrans => loop (Conversion.paletteTrans f.palette f.transparentIndex f.skipTransparent)
  | .rgba => loop (Conversion.rgba f.premultiply)

/-- Each row on its own, with height 1. -/
def convertRows (f : Format) (width height : Nat) (inputType : ImageType)
    (inputOffset inRowStride outputOffset outRowStride : Nat) (a : Arrays) : Outcome Exn Arrays :=
  Outcome.run (fun y => convert f width 1 inputType (inputOffset + y * inRowStride) inRowStride
    (outputOffset + y * outRowStride) outRowStride) (List.range height) a

end ImageTools

/-- Bytes of a pixel in the input and in the output. -/
def ImageType.pixelBytes : ImageType → Nat × Nat
  | .gray => (1, 1)
  | .rgb => (3, 3)
  | .rgbaPre | .rgba => (4, 4)
  | .grayAlpha | .grayAlphaPre => (2, 4)
  | .palette => (1, 3)
  | .paletteAlpha | .paletteAlphaPre | .paletteTrans => (1, 4)

/-- All rows lie inside of both arrays, and the planes have all indices. -/
structure Fits (f : Format) (width height : Nat) (inputType : ImageType)
    (inputOffset inRowStride outputOffset outRowStride : Nat) (a : Arrays) : Prop where
  input : inputOffset + height * inRowStride ≤ (a.1.getD a.2).length
  output : outputOffset + height * outRowStride ≤ a.2.length
  planes : ∀ plane ∈ [f.palette.red, f.palette.green, f.palette.blue, f.palette.alpha], plane.length = 256

/-! ## Rows of a loop -/

theorem rowLoop_eq_run (inRowStride outRowStride : Nat) (row : Nat → Nat → Arrays → Outcome Exn Arrays) (height : Nat)
    (inOffset outOffset : Nat) (a : Arrays) :
    rowLoop inRowStride outRowStride row height inOffset outOffset a =
      Outcome.run (fun y => row (inOffset + y * inRowStride) (outOffset + y * outRowStride)) (List.range height) a := by
  induction height generalizing inOffset outOffset a with
  | zero => rfl
  | succ height ih =>
    have hnext : rowLoop inRowStride outRowStride row height (inOffset + inRowStride) (outOffset + outRowStride) =
        Outcome.run (fun y => row (inOffset + y * inRowStride) (outOffset + y * outRowStride))
          ((List.range height).map Nat.succ) := by
      funext b
      rw [ih, Outcome.run_map]
      congr 1
      funext y
      rw [Nat.succ_mul, Nat.succ_mul, Nat.add_right_comm, Nat.add_right_comm outOffset, Nat.add_assoc, Nat.add_assoc]
    rw [rowLoop, List.range_succ_eq_map, Outcome.run_cons, Nat.zero_mul, Nat.zero_mul, hnext]
    rfl

theorem rowLoop_one (inRowStride outRowStride : Nat) (row : Nat → Nat → Arrays → Outcome Exn Arrays)
    (inOffset outOffset : Nat) : rowLoop inRowStride outRowStride row 1 inOffset outOffset = row inOffset outOffset := by
  funext a
  rw [rowLoop]
  cases row inOffset outOffset a with
  | done b => rfl
  | thrown x b => rfl

/-! ## The two loops that are missing -/

section Paint
variable {k n : Nat} {pixel : Conversion → Outcome Exn Conversion} {s : Conversion}

/-- The bytes of `[lo, hi)` are all 255, the others are as before. -/
def Painted (lo hi : Nat) (old new : List Byte) : Prop :=
  new.length = old.length ∧ ∀ i, new[i]? = if lo ≤ i ∧ i < hi then some 255 else old[i]?

theorem Painted.trans {lo mid hi : Nat} {a b c : List Byte} (hab : Painted lo mid a b) (hbc : Painted mid hi b c)
    (h1 : lo ≤ mid) (h2 : mid ≤ hi) : Painted lo hi a c := by
  refine ⟨hbc.1.trans hab.1, fun i => ?_⟩
  rw [hbc.2, hab.2]
  by_cases hfirst : lo ≤ i ∧ i < mid
  · rw [if_neg (by omega), if_pos hfirst, if_pos (by omega)]
  · by_cases hlast : mid ≤ i ∧ i < hi
    · rw [if_pos hlast, if_pos (by omega)]
    · rw [if_neg hlast, if_neg hfirst, if_neg (by omega)]

/-- What a pixel of `k` bytes does where the palette has only the color white. -/
def Paints (k : Nat) (pixel : Conversion → Outcome Exn Conversion) : Prop :=
  ∀ (m : Nat) (output : List Byte) (inOff outOff : Nat), inOff < m → outOff + k ≤ output.length →
    ∃ output', pixel ⟨some (List.replicate m 0), output, inOff, outOff⟩
        = .done ⟨some (List.replicate m 0), output', inOff + 1, outOff + k⟩ ∧
      Painted outOff (outOff + k) output output'

theorem put_paints {input : Option (List Byte)} {output : List Byte} {inOff outOff : Nat}
    (hroom : outOff < output.length) :
    ∃ output', Conversion.put 255 ⟨input, output, inOff, outOff⟩ = .done ⟨input, output', inOff, outOff + 1⟩ ∧
      Painted outOff (outOff + 1) output output' := by
  refine ⟨output.set outOff 255, ?_, List.length_set, fun i => ?_⟩
  · rw [Conversion.put]
    dsimp only
    rw [writeAt_natCast _ _ _ hroom]
  · rw [List.getElem?_set]
    by_cases hi : outOff = i
    · subst hi
      rw [if_pos rfl, if_pos hroom, if_pos ⟨le_rfl, Nat.lt_succ_self _⟩]
    · rw [if_neg hi, if_neg (by omega)]

theorem putAll_paints {input : Option (List Byte)} (k : Nat) {output : List Byte} {inOff outOff : Nat}
    (hroom : outOff + k ≤ output.length) :
    ∃ output', Conversion.putAll (List.replicate k 255) ⟨input, output, inOff, outOff⟩
        = .done ⟨input, output', inOff, outOff + k⟩ ∧ Painted outOff (outOff + k) output output' := by
  induction k generalizing output outOff with
  | zero => exact ⟨output, rfl, rfl, fun i => by rw [if_neg (by omega)]⟩
  | succ k ih =>
    obtain ⟨next, hput, hpainted⟩ := @put_paints input output inOff outOff (by omega)
    obtain ⟨last, hrest, hpainted'⟩ := @ih next (outOff + 1) (by rw [hpainted.1]; omega)
    rw [Nat.add_right_comm] at hrest hpainted'
    refine ⟨last, ?_, hpainted.trans hpainted' (by omega) (by omega)⟩
    rw [Conversion.putAll, List.replicate_succ, Outcome.run_cons, hput, Outcome.bind_done]
    exact hrest

theorem scanline_paints (h : Paints k pixel) (m : Nat) {width inOffset outOffset : Nat} {output : List Byte}
    (hin : inOffset + width ≤ m) (hout : outOffset + width * k ≤ output.length) :
    ∃ output', scanline pixel width inOffset outOffset (some (List.replicate m 0), output)
        = .done (some (List.replicate m 0), output') ∧ Painted outOffset (outOffset + width * k) output output' := by
  suffices hcolumns : ∃ output', Conversion.columns pixel width ⟨some (List.replicate m 0), output, inOffset, outOffset⟩
      = .done ⟨some (List.replicate m 0), output', inOffset + width, outOffset + width * k⟩ ∧
        Painted outOffset (outOffset + width * k) output output' by
    obtain ⟨output', hdone, hpainted⟩ := hcolumns
    exact ⟨output', by rw [scanline, hdone]; rfl, hpainted⟩
  induction width generalizing inOffset outOffset output with
  | zero => exact ⟨output, by rw [Nat.zero_mul]; rfl, rfl, fun i => by rw [if_neg (by omega)]⟩
  | succ width ih =>
    rw [Nat.succ_mul] at hout ⊢
    obtain ⟨next, hpixel, hpainted⟩ := h m output inOffset outOffset (by omega) (by omega)
    obtain ⟨last, hrest, hpainted'⟩ := @ih (inOffset + 1) (outOffset + k) next (by omega) (by rw [hpainted.1]; omega)
    rw [Nat.add_right_comm, Nat.add_right_comm outOffset, Nat.add_assoc outOffset] at hrest
    rw [Nat.add_right_comm, Nat.add_assoc outOffset] at hpainted'
    refine ⟨last, ?_, hpainted.trans hpainted' (by omega) (by omega)⟩
    rw [Conversion.columns, hpixel, Outcome.bind_done]
    exact hrest

end Paint

/-- All colors of the palette are opaque white. -/
def white (premultiply : Byte → Byte → Byte) : Format :=
  ⟨premultiply, ⟨.replicate 256 255, .replicate 256 255, .replicate 256 255, .replicate 256 255⟩, 0, false⟩

theorem take_zero {m inOff : Nat} (hin : inOff < m) (next : Byte → Conversion → Outcome Exn Conversion)
    (output : List Byte) (outOff : Nat) :
    Conversion.take next ⟨some (List.replicate m 0), output, inOff, outOff⟩ =
      next 0 ⟨some (List.replicate m 0), output, inOff + 1, outOff⟩ := by
  have hread : readAt (List.replicate m (0 : Byte)) inOff = .ok 0 := by
    rw [readAt_natCast _ _ (by simpa using hin), List.getElem_replicate]
  rw [Conversion.take]
  dsimp only [Conversion.array, Option.getD_some]
  rw [hread]

theorem look_white (next : Byte → Conversion → Outcome Exn Conversion) :
    Conversion.look (List.replicate 256 255) 0 next = next 255 := by
  have hread : readAt (List.replicate 256 (255 : Byte)) ((0 : Byte).toNat : Nat) = .ok 255 := by
    rw [readAt_natCast _ _ (by rw [List.length_replicate]; decide), List.getElem_replicate]
  funext s
  rw [Conversion.look, hread]

theorem paints_palettePixel (premultiply : Byte → Byte → Byte) :
    Paints 3 (Conversion.palettePixel (white premultiply).palette) := by
  intro m output inOff outOff hin hout
  obtain ⟨output', hdone, hpainted⟩ := @putAll_paints (some (List.replicate m 0)) 3 output (inOff + 1) outOff hout
  refine ⟨output', ?_, hpainted⟩
  have hlast : Outcome.run Conversion.put [255] = Conversion.put 255 := funext fun s => Outcome.bind_pure _
  rw [Conversion.palettePixel, take_zero hin, ← hdone]
  simp only [white, look_white, Outcome.bind_assoc]
  change _ = Outcome.run Conversion.put [255, 255, 255] _
  rw [Outcome.run_cons]
  congr 1
  funext s
  rw [Outcome.run_cons, hlast]

theorem paints_paletteAlpha {premultiply : Byte → Byte → Byte} (hwhite : premultiply 255 255 = 255) :
    Paints 4 (Conversion.paletteAlpha premultiply (white premultiply).palette) := by
  intro m output inOff outOff hin hout
  obtain ⟨output', hdone, hpainted⟩ := @putAll_paints (some (List.replicate m 0)) 4 output (inOff + 1) outOff hout
  refine ⟨output', ?_, hpainted⟩
  rw [Conversion.paletteAlpha, take_zero hin, ← hdone]
  simp only [white, look_white, hwhite]
  rfl

section Missing
variable {k : Nat} {pixel : Conversion → Outcome Exn Conversion}

theorem scanline_ne_rows (h : Paints k pixel) (hk : 0 < k) {width height inRowStride outRowStride : Nat}
    (hwidth : 0 < width) (hheight : height ≠ 1) (hin : width ≤ inRowStride) (hout : width * k ≤ outRowStride)
    (inputOffset outputOffset : Nat) :
    ∃ a : Arrays, inputOffset + height * inRowStride ≤ (a.1.getD a.2).length ∧
      outputOffset + height * outRowStride ≤ a.2.length ∧
      scanline pixel width inputOffset outputOffset a ≠
        Outcome.run (fun y => scanline pixel width (inputOffset + y * inRowStride) (outputOffset + y * outRowStride))
          (List.range height) a := by
  have hpos : 0 < width * k := Nat.mul_pos hwidth hk
  -- room for two rows even where the image has none
  let m := inputOffset + (height + 1) * inRowStride
  let n := outputOffset + (height + 1) * outRowStride
  have hm : m = inputOffset + height * inRowStride + inRowStride := by rw [Nat.add_assoc, ← Nat.succ_mul]
  have hn : n = outputOffset + height * outRowStride + outRowStride := by rw [Nat.add_assoc, ← Nat.succ_mul]
  have hlength : (List.replicate n (0 : Byte)).length = n := List.length_replicate
  obtain ⟨b, hrow, hb⟩ := @scanline_paints k pixel h m width inputOffset outputOffset (List.replicate n 0) (by omega)
    (by omega)
  refine ⟨(some (List.replicate m 0), List.replicate n 0), ?_, ?_, ?_⟩
  · rw [Option.getD_some, List.length_replicate]
    omega
  · rw [hlength]
    omega
  · rw [hrow]
    intro heq
    rcases Nat.lt_or_ge height 1 with hnone | hmore
    · -- without rows nothing is written
      rw [Nat.lt_one_iff.mp hnone] at heq
      have hsame : b = List.replicate n 0 := by simpa using heq
      have hfirst := hb.2 outputOffset
      rw [hsame, if_pos (by omega), List.getElem?_replicate] at hfirst
      split at hfirst
      · cases hfirst
      · cases hfirst
    · obtain ⟨rest, rfl⟩ : ∃ rest, height = rest + 2 := ⟨height - 2, by omega⟩
      rw [List.range_succ_eq_map, Outcome.run_cons, Nat.zero_mul, Nat.zero_mul, Nat.add_zero, Nat.add_zero, hrow,
        Outcome.bind_done, List.range_succ_eq_map, List.map_cons, Outcome.run_cons] at heq
      have hspace : ∀ y < rest + 2, inputOffset + y * inRowStride + width ≤ m ∧
          outputOffset + y * outRowStride + width * k ≤ n := by
        intro y hy
        have hle := Nat.mul_le_mul_right inRowStride (by omega : y ≤ rest + 2)
        have hle' := Nat.mul_le_mul_right outRowStride (by omega : y ≤ rest + 2)
        omega
      -- row 1 writes where row 0 does not, and what is written stays
      obtain ⟨next, hsecond, hnext⟩ := @scanline_paints k pixel h m width (inputOffset + 1 * inRowStride)
        (outputOffset + 1 * outRowStride) b (hspace 1 (by omega)).1
        (by rw [hb.1, hlength]; exact (hspace 1 (by omega)).2)
      have hone : next[outputOffset + outRowStride]? = some 255 := by
        rw [hnext.2, if_pos (by omega)]
      have hzero : b[outputOffset + outRowStride]? ≠ some 255 := by
        rw [hb.2, if_neg (by omega), List.getElem?_replicate]
        split
        · decide
        · decide
      have hkept : Outcome.Ends False (fun d : Arrays => d.1 = some (List.replicate m 0) ∧ d.2.length = n ∧
          d.2[outputOffset + outRowStride]? = some 255)
          (Outcome.run (fun y => scanline pixel width (inputOffset + y * inRowStride) (outputOffset + y * outRowStride))
            (((List.range rest).map Nat.succ).map Nat.succ) (some (List.replicate m 0), next)) := by
        refine Outcome.Ends.run ?_ ⟨rfl, (hnext.1.trans hb.1).trans hlength, hone⟩
        rintro y hy ⟨input, d⟩ ⟨hinput, hsize, hd⟩
        dsimp only at hinput hsize hd ⊢
        obtain ⟨i, hi, rfl⟩ := List.mem_map.mp hy
        obtain ⟨j, hj, rfl⟩ := List.mem_map.mp hi
        have hroom := hspace j.succ.succ (by have := List.mem_range.mp hj; omega)
        obtain ⟨e, hdone, he⟩ := @scanline_paints k pixel h m width _ _ d hroom.1 (by rw [hsize]; exact hroom.2)
        rw [hinput, hdone]
        refine ⟨rfl, he.1.trans hsize, ?_⟩
        rw [he.2]
        split
        · rfl
        · exact hd
      rw [Outcome.ends_false] at hkept
      obtain ⟨d, hdone, -, -, hd⟩ := hkept
      rw [hsecond, Outcome.bind_done, hdone, Outcome.done.injEq] at heq
      rw [← heq] at hd
      exact hzero hd

end Missing

/-! ## The conversion -/

theorem loop_rows (inRowStride outRowStride : Nat) (row : Nat → Nat → Arrays → Outcome Exn Arrays) (height : Nat)
    (inOffset outOffset : Nat) (a : Arrays) :
    rowLoop inRowStride outRowStride row height inOffset outOffset a =
      Outcome.run (fun y => rowLoop inRowStride outRowStride row 1 (inOffset + y * inRowStride)
        (outOffset + y * outRowStride)) (List.range height) a := by
  rw [rowLoop_eq_run]
  simp only [rowLoop_one]

theorem copy_rows (inRowStride outRowStride bytesPerRow height inOffset outOffset : Nat) (a : Arrays) :
    (if a.1 = none then Outcome.done a
      else if height = 1 then copyRow bytesPerRow inOffset outOffset a
      else rowLoop inRowStride outRowStride (copyRow bytesPerRow) height inOffset outOffset a) =
    Outcome.run (fun y b => if b.1 = none then Outcome.done b
      else copyRow bytesPerRow (inOffset + y * inRowStride) (outOffset + y * outRowStride) b) (List.range height) a := by
  by_cases inPlace : a.1 = none
  · rw [if_pos inPlace, Outcome.run_skip]
    intro y _
    exact if_pos inPlace
  · have hloop : (if height = 1 then copyRow bytesPerRow inOffset outOffset a
        else rowLoop inRowStride outRowStride (copyRow bytesPerRow) height inOffset outOffset a) =
        rowLoop inRowStride outRowStride (copyRow bytesPerRow) height inOffset outOffset a := by
      by_cases single : height = 1
      · rw [if_pos single, single, rowLoop_one]
      · rw [if_neg single]
    rw [if_neg inPlace, hloop, rowLoop_eq_run]
    -- the two arrays stay two
    clear hloop
    generalize List.range height = ys
    induction ys generalizing a with
    | nil => rfl
    | cons y ys ih =>
      rw [Outcome.run_cons, Outcome.run_cons, if_neg inPlace]
      cases hcopy : copyRow bytesPerRow (inOffset + y * inRowStride) (outOffset + y * outRowStride) a with
      | thrown x b => rfl
      | done b =>
        have hinput : b.1 = a.1 := by
          rw [copyRow] at hcopy
          split at hcopy
          · cases hcopy
          · cases hcopy
            rfl
        exact ih b (hinput ▸ inPlace)

/-- The whole image is converted row by row: exactly if the type is none of the two without a loop,
or there is a single row, or the rows are empty.  Where it is, the arrays may have any size; where it is
not, this is so for each product of a sample and its opacity that leaves white samples white when they
are opaque. -/
theorem convert_rowwise_iff {premultiply : Byte → Byte → Byte} (hwhite : premultiply 255 255 = 255)
    (inputType : ImageType) (width height inputOffset inRowStride outputOffset outRowStride : Nat)
    (hin : width * inputType.pixelBytes.1 ≤ inRowStride) (hout : width * inputType.pixelBytes.2 ≤ outRowStride) :
    ((∀ f a, f.premultiply = premultiply →
        Fits f width height inputType inputOffset inRowStride outputOffset outRowStride a →
        ImageTools.convert f width height inputType inputOffset inRowStride outputOffset outRowStride a =
          ImageTools.convertRows f width height inputType inputOffset inRowStride outputOffset outRowStride a) ↔
      (inputType = .palette ∨ inputType = .paletteAlpha → height = 1 ∨ width = 0)) ∧
    ((inputType = .palette ∨ inputType = .paletteAlpha → height = 1 ∨ width = 0) → ∀ f a,
      ImageTools.convert f width height inputType inputOffset inRowStride outputOffset outRowStride a =
        ImageTools.convertRows f width height inputType inputOffset inRowStride outputOffset outRowStride a) := by
  have single : ∀ (pixel : Conversion → Outcome Exn Conversion) (a : Arrays), height = 1 ∨ width = 0 →
      scanline pixel width inputOffset outputOffset a =
        Outcome.run (fun y => scanline pixel width (inputOffset + y * inRowStride) (outputOffset + y * outRowStride))
          (List.range height) a := by
    rintro pixel a (rfl | rfl)
    · rw [List.range_one, Outcome.run_cons, Nat.zero_mul, Nat.zero_mul]
      exact (Outcome.bind_pure _).symm
    · exact (Outcome.run_skip fun y _ => rfl).symm
  have holds : (inputType = .palette ∨ inputType = .paletteAlpha → height = 1 ∨ width = 0) → ∀ f a,
      ImageTools.convert f width height inputType inputOffset inRowStride outputOffset outRowStride a =
        ImageTools.convertRows f width height inputType inputOffset inRowStride outputOffset outRowStride a := by
    intro hcond f a
    cases inputType with
    | gray => exact copy_rows inRowStride outRowStride width height inputOffset outputOffset a
    | rgb => exact copy_rows inRowStride outRowStride (width * 3) height inputOffset outputOffset a
    | rgbaPre => exact copy_rows inRowStride outRowStride (width * 4) height inputOffset outputOffset a
    | palette => exact single _ a (hcond (Or.inl rfl))
    | paletteAlpha => exact single _ a (hcond (Or.inr rfl))
    | grayAlpha | grayAlphaPre | paletteAlphaPre | paletteTrans | rgba =>
        exact loop_rows inRowStride outRowStride _ height inputOffset outputOffset a
  refine ⟨⟨fun h hmissing => ?_, fun hcond f a _ _ => holds hcond f a⟩, holds⟩
  by_contra hno
  have hheight : height ≠ 1 := fun h => hno (Or.inl h)
  have hwidth : 0 < width := Nat.pos_of_ne_zero fun h => hno (Or.inr h)
  have hplanes : ∀ plane ∈ [(white premultiply).palette.red, (white premultiply).palette.green,
      (white premultiply).palette.blue, (white premultiply).palette.alpha], plane.length = 256 := by
    simp only [List.forall_mem_cons]
    exact ⟨List.length_replicate, List.length_replicate, List.length_replicate, List.length_replicate, nofun⟩
  rcases hmissing with rfl | rfl
  · obtain ⟨a, hina, houta, hne⟩ := scanline_ne_rows (paints_palettePixel premultiply) (by decide) hwidth hheight
      (by simpa [ImageType.pixelBytes] using hin) hout inputOffset outputOffset
    exact hne (h (white premultiply) a rfl ⟨hina, houta, hplanes⟩)
  · obtain ⟨a, hina, houta, hne⟩ := scanline_ne_rows (paints_paletteAlpha hwhite) (by decide) hwidth hheight
      (by simpa [ImageType.pixelBytes] using hin) hout inputOffset outputOffset
    exact hne (h (white premultiply) a rfl ⟨hina, houta, hplanes⟩)

/-- The product in whole numbers. -/
def premultiplied (alpha b : Byte) : Byte := BitVec.ofNat 8 (alpha.toNat * b.toNat / 255)

theorem convert_rowwise_rgba :
    (∀ f a, f.premultiply = premultiplied → Fits f 2 2 .rgba 0 8 0 8 a →
      ImageTools.convert f 2 2 .rgba 0 8 0 8 a = ImageTools.convertRows f 2 2 .rgba 0 8 0 8 a) ∧
    ∀ f a, ImageTools.convert f 3 1 .palette 0 3 0 9 a = ImageTools.convertRows f 3 1 .palette 0 3 0 9 a :=
  ⟨(@convert_rowwise_iff premultiplied (by decide) .rgba 2 2 0 8 0 8 (by decide) (by decide)).1.mpr (by decide),
    (@convert_rowwise_iff premultiplied (by decide) .palette 3 1 0 3 0 9 (by decide) (by decide)).2 (by decide)⟩

/-- Of two rows with one pixel each only the first one is converted. -/
theorem second_row_missing :
    ImageTools.convert (white premultiplied) 1 2 .palette 0 1 0 3 (some [0, 0], [0, 0, 0, 0, 0, 0])
      = .done (some [0, 0], [255, 255, 255, 0, 0, 0]) ∧
    ImageTools.convertRows (white premultiplied) 1 2 .palette 0 1 0 3 (some [0, 0], [0, 0, 0, 0, 0, 0])
      = .done (some [0, 0], [255, 255, 255, 255, 255, 255]) ∧
    ImageTools.convert (white premultiplied) 1 2 .paletteAlpha 0 1 0 4 (some [0, 0], [0, 0, 0, 0, 0, 0, 0, 0]) ≠
      ImageTools.convertRows (white premultiplied) 1 2 .paletteAlpha 0 1 0 4
        (some [0, 0], [0, 0, 0, 0, 0, 0, 0, 0]) := by
  refine ⟨by decide, by decide, by decide⟩

end OpenJfx.Iio
