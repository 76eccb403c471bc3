import OpenJfx.Lib.Java
import Mathlib.Tactic.Ring

/-! # Run-length encoded bitmaps

`BMPImageLoader.readRLE` over the bytes of the bitmap.  An exception leaves no
image behind, so that the functions return nothing with it. -/
set_option autoImplicit false
namespace OpenJfx.Iio
open OpenJfx.Lib

/-- What `readRLE` knows of the bitmap; three bytes are stored for a pixel. -/
structure Bitmap where
  biWidth : Nat
  hght : Nat
  isBottomUp : Bool
  isRLE4 : Bool

namespace BMPImageLoader

/-- The bytes of `imgData` from `i` on, the image and the two counters. -/
structure Reading where
  imgData : List Byte
  image : List Byte
  line : Int
  dstOffset : Int
deriving DecidableEq, Repr

section Code
variable (bih : Bitmap) (palette : List Byte)

def rowLength : Int := bih.biWidth * 3

/-- `getByte(imgData, i++)`. -/
def getByte (next : Byte → Reading → Except Exn Reading) (s : Reading) : Except Exn Reading :=
  match s.imgData with
  | [] => .error .arrayIndexOutOfBounds
  | b :: rest => next b { s with imgData := rest }

/-- The image and the offset behind the pixel. -/
def setRGBFromPalette (image : List Byte) (dstOffset : Int) (index : Nat) : Except Exn (List Byte × Int) :=
  (readAt palette (index * 4 + 2 : Nat)).bind fun red =>
  (writeAt image dstOffset red).bind fun image =>
  (readAt palette (index * 4 + 1 : Nat)).bind fun green =>
  (writeAt image (dstOffset + 1) green).bind fun image =>
  (readAt palette (index * 4 : Nat)).bind fun blue =>
  (writeAt image (dstOffset + 2) blue).bind fun image =>
  .ok (image, dstOffset + 3)

/-- `dstOffset = setRGBFromPalette(image, dstOffset, index)`. -/
def store (index : Nat) (s : Reading) : Except Exn Reading :=
  (setRGBFromPalette palette s.image s.dstOffset index).map fun (image, dstOffset) =>
    { s with image := image, dstOffset := dstOffset }

/-- The loop over the pixels of an absolute run, with the number of pixels left. -/
def absoluteLoop : Nat → Nat → Byte → Reading → Except Exn Reading
  | 0, _, _, s => .ok s
  | rest + 1, p, indexData, s =>
      if bih.isRLE4 then
        if p % 2 = 0 then
          getByte (fun indexData s =>
            (store palette (indexData.toNat / 16) s).bind (absoluteLoop rest (p + 1) indexData)) s
        else (store palette (indexData.toNat % 16) s).bind (absoluteLoop rest (p + 1) indexData)
      else
        getByte (fun index s =>
          (store palette index.toNat s).bind (absoluteLoop rest (p + 1) indexData)) s

def setAll : List Nat → Reading → Except Exn Reading
  | [], s => .ok s
  | index :: rest, s => (store palette index s).bind (setAll rest)

def runIndices (isRLE4 : Bool) (count : Nat) (b2 : Byte) : List Nat :=
  (List.range count).map fun p =>
    if isRLE4 then if p % 2 = 0 then b2.toNat / 16 else b2.toNat % 16 else b2.toNat

/-- Whether a byte is skipped behind an absolute run. -/
def padded (isRLE4 : Bool) (b2 : Nat) : Bool :=
  if isRLE4 then b2 % 4 = 1 ∨ b2 % 4 = 2 else b2 % 2 = 1

/-- `while (i < imgSize)`; each turn takes two bytes at least. -/
def loop : Nat → Reading → Except Exn Reading
  | 0, s => .ok s
  | turns + 1, s =>
      if s.imgData = [] then .ok s
      else
        getByte (fun b1 => getByte fun b2 s =>
          if b1 = 0 then
            if b2 = 0 then
              let line := s.line + if bih.isBottomUp then -1 else 1
              loop turns { s with line := line, dstOffset := line * rowLength bih }
            else if b2 = 1 then .ok s
            else if b2 = 2 then
              getByte (fun deltaX => getByte fun deltaY s =>
                loop turns { s with
                  line := s.line + deltaY.toNat
                  dstOffset := s.dstOffset + deltaY.toNat * rowLength bih + deltaX.toNat * 3 }) s
            else
              (absoluteLoop bih palette b2.toNat 0 0 s).bind fun s =>
                loop turns (if padded bih.isRLE4 b2.toNat then { s with imgData := s.imgData.drop 1 } else s)
          else (setAll palette (runIndices bih.isRLE4 b1.toNat b2) s).bind (loop turns)) s

end Code
end BMPImageLoader

/-! ## Encodings -/

/-- The codes of a bitmap; `filler` and `pad` are the unused half of a byte and the unused byte. -/
inductive RunCode where
  | encoded (count : Nat) (b2 : Byte)
  | absolute (indices : List Nat) (filler : Nat) (pad : Byte)
  | endOfLine
  | delta (deltaX deltaY : Nat)

/-- Where a pixel is set: the column, the lines ended and the lines skipped so far. -/
structure Pen where
  x : Nat
  ended : Nat
  skipped : Nat
deriving DecidableEq, Repr

namespace RunCode

/-- Two indices a byte. -/
def pack (filler : Nat) : List Nat → List Byte
  | [] => []
  | [i] => [BitVec.ofNat 8 (16 * i + filler)]
  | i :: j :: rest => BitVec.ofNat 8 (16 * i + j) :: pack filler rest

def packed (isRLE4 : Bool) (filler : Nat) (indices : List Nat) : List Byte :=
  if isRLE4 then pack filler indices else indices.map (BitVec.ofNat 8)

/-- The ranges of the fields. -/
def Valid (isRLE4 : Bool) : RunCode → Prop
  | .encoded count _ => 1 ≤ count ∧ count ≤ 255
  | .absolute indices filler _ =>
      3 ≤ indices.length ∧ indices.length ≤ 255 ∧ filler < 16 ∧ ∀ i ∈ indices, i < if isRLE4 then 16 else 256
  | .endOfLine => True
  | .delta deltaX deltaY => deltaX ≤ 255 ∧ deltaY ≤ 255

def indices (isRLE4 : Bool) : RunCode → List Nat
  | .encoded count b2 => BMPImageLoader.runIndices isRLE4 count b2
  | .absolute indices _ _ => indices
  | .endOfLine | .delta _ _ => []

def move (isRLE4 : Bool) (p : Pen) : RunCode → Pen
  | .endOfLine => ⟨0, p.ended + 1, p.skipped⟩
  | .delta deltaX deltaY => ⟨p.x + deltaX, p.ended, p.skipped + deltaY⟩
  | c => { p with x := p.x + (c.indices isRLE4).length }

end RunCode

def pixels : Pen → List Nat → List (Pen × Nat)
  | _, [] => []
  | p, i :: rest => (p, i) :: pixels { p with x := p.x + 1 } rest

/-- The pixels that an encoding sets, with their indices. -/
def steps (isRLE4 : Bool) : Pen → List RunCode → List (Pen × Nat)
  | _, [] => []
  | p, c :: rest => pixels p (c.indices isRLE4) ++ steps isRLE4 (c.move isRLE4 p) rest

/-- The pixel at the place `q` of the image, and the colour of an index. -/
def pixelAt (image : List Byte) (q : Nat) : Option Byte × Option Byte × Option Byte :=
  (image[3 * q]?, image[3 * q + 1]?, image[3 * q + 2]?)

def colour (palette : List Byte) (index : Nat) : Option Byte × Option Byte × Option Byte :=
  (palette[index * 4 + 2]?, palette[index * 4 + 1]?, palette[index * 4]?)

def spot (bih : Bitmap) (x y : Nat) : Nat := (if bih.isBottomUp then bih.hght - 1 - y else y) * bih.biWidth + x

/-- Each pixel that the encoding sets has the colour of its index, the others are unset. -/
def Shows (bih : Bitmap) (palette : List Byte) (matrix : Nat → Nat → Nat) (codes : List RunCode)
    (image : List Byte) : Prop :=
  ∀ x y, x < bih.biWidth → y < bih.hght →
    ((∃ q ∈ steps bih.isRLE4 ⟨0, 0, 0⟩ codes, q.1.x = x ∧ q.1.ended + q.1.skipped = y) →
      pixelAt image (spot bih x y) = colour palette (matrix x y)) ∧
    ((¬ ∃ q ∈ steps bih.isRLE4 ⟨0, 0, 0⟩ codes, q.1.x = x ∧ q.1.ended + q.1.skipped = y) →
      pixelAt image (spot bih x y) = (some 0, some 0, some 0))

/-! ## One pixel -/

namespace BMPImageLoader

section Pixel
variable {palette image : List Byte} {index : Nat} {dstOffset : Int}

end Pixel

/-! ## The codes one by one -/

section Codes
variable (bih : Bitmap) {palette : List Byte}

/-- The line as the code counts it: a skipped line moves down in every bitmap. -/
def lineOf (p : Pen) : Int :=
  if bih.isBottomUp then bih.hght - 1 - p.ended + p.skipped else p.ended + p.skipped

def place (p : Pen) : Int := lineOf bih p * bih.biWidth + p.x

end Codes

section Steps
variable {isRLE4 : Bool} {codes : List RunCode}

end Steps

end BMPImageLoader

end OpenJfx.Iio
