import OpenJfx.Geometry.RectBounds

/-! # `DirtyRegionContainer`

The regions in use are those before `emptyIndex`.  A full container is
compressed: the pairs of regions are taken from a heap by the area of their
union and merged through an index map, then the regions that were merged away
are moved behind the others.

The heap is an array of references to `int[3]` arrays.  Taking the minimum
stores the reference of the root a second time, so that two slots share an
array from then on; references are therefore kept apart from the arrays.  The
area of a union is a parameter. -/
set_option autoImplicit false
namespace OpenJfx.Geometry

/-- What keeps a call from returning. -/
inductive Fault where
  | arrayIndexOutOfBounds
  | outOfFuel
deriving DecidableEq, Repr

section Arrays
variable {α : Type}

def readSlot (a : List α) (i : Nat) : Except Fault α :=
  match a[i]? with
  | some v => .ok v
  | none => .error .arrayIndexOutOfBounds

def writeSlot (a : List α) (i : Nat) (v : α) : Except Fault (List α) :=
  if i < a.length then .ok (a.set i v) else .error .arrayIndexOutOfBounds

def swapSlots (a : List α) (i j : Nat) : Except Fault (List α) := do
  let x ← readSlot a i
  let y ← readSlot a j
  let a ← writeSlot a i y
  writeSlot a j x

end Arrays

/-- An `int[3]` of the heap: an area and the two regions it is of. -/
structure HeapEntry where
  area : Int
  first : Nat
  second : Nat
deriving DecidableEq, Repr

structure DirtyRegionContainer (F : Type) where
  dirtyRegions : List (RectBounds F)
  emptyIndex : Nat
  /-- The slots of the heap, `none` before the first compression. -/
  heap : Option (List Nat)
  /-- The arrays the slots refer to. -/
  entries : List HeapEntry
deriving DecidableEq, Repr

namespace DirtyRegionContainer

/-! ## The heap -/

section Heap

/-- `heap[k][0]`. -/
def areaAt (entries : List HeapEntry) (heap : List Nat) (k : Nat) : Except Fault Int := do
  let ref ← readSlot heap k
  let entry ← readSlot entries ref
  return entry.area

/-- The child of `i` that `siftDown` compares with: the right one if it exists
and has the smaller area. -/
def smallerChild (entries : List HeapEntry) (heapSize : Nat) (heap : List Nat) (i : Nat) :
    Except Fault Nat := do
  let child := 2 * i + 1
  let left ← areaAt entries heap child
  if child + 1 < heapSize then
    let right ← areaAt entries heap (child + 1)
    return if right < left then child + 1 else child
  else return child

def siftDown (entries : List HeapEntry) (heapSize : Nat) : Nat → Nat → List Nat → Except Fault (List Nat)
  | 0, _, _ => .error .outOfFuel
  | fuel + 1, i, heap =>
      if i < heapSize / 2 then do
        let child ← smallerChild entries heapSize heap i
        let childArea ← areaAt entries heap child
        let area ← areaAt entries heap i
        if area ≤ childArea then return heap
        else
          let heap ← swapSlots heap child i
          siftDown entries heapSize fuel child heap
      else return heap

/-- The loop of `heapify`, from `i` down to `0`. -/
def heapify (entries : List HeapEntry) (heapSize : Nat) : Nat → List Nat → Except Fault (List Nat)
  | 0, heap => siftDown entries heapSize (heapSize + 1) 0 heap
  | i + 1, heap => do
      let heap ← siftDown entries heapSize (heapSize + 1) (i + 1) heap
      heapify entries heapSize i heap

def resolveMap (map : List Nat) : Nat → Nat → Except Fault Nat
  | 0, _ => .error .outOfFuel
  | fuel + 1, idx => do
      let next ← readSlot map idx
      if next = idx then return idx else resolveMap map fuel next

/-- `1 << idx`, an `int`, as the `long` it is widened to. -/
def bit (idx : Nat) : BitVec 64 := ((1#32) <<< (idx % 32)).signExtend 64

/-- `((1 << temp[1] | 1 << temp[2]) & invalidMask) > 0`. -/
def isInvalid (invalidMask : BitVec 64) (entry : HeapEntry) : Bool :=
  decide (0 < ((bit entry.first ||| bit entry.second) &&& invalidMask).toInt)

end Heap

section Compress
variable {F : Type} [LinearOrder F] (unionArea : RectBounds F → Int)

/-- `unifiedRegionArea`: the area of the smallest rectangle around two regions. -/
def unifiedRegionArea (dirtyRegions : List (RectBounds F)) (i0 i1 : Nat) : Except Fault Int := do
  let r0 ← readSlot dirtyRegions i0
  let r1 ← readSlot dirtyRegions i1
  return unionArea ⟨if r0.minX < r1.minX then r0.minX else r1.minX,
    if r0.minY < r1.minY then r0.minY else r1.minY,
    if r0.maxX > r1.maxX then r0.maxX else r1.maxX,
    if r0.maxY > r1.maxY then r0.maxY else r1.maxY⟩

/-- The loop of `takeMinWithMap`: the root is computed anew and pushed down for
as long as it was computed with a region merged since. -/
def refreshRoot (dirtyRegions : List (RectBounds F)) (map : List Nat) (invalidMask : BitVec 64)
    (heapSize : Nat) : Nat → List Nat → List HeapEntry → Except Fault (List Nat × List HeapEntry)
  | 0, _, _ => .error .outOfFuel
  | fuel + 1, heap, entries => do
      let temp ← readSlot heap 0
      let entry ← readSlot entries temp
      if isInvalid invalidMask entry then
        let i0 ← resolveMap map (map.length + 1) entry.first
        let i1 ← resolveMap map (map.length + 1) entry.second
        let area ← unifiedRegionArea unionArea dirtyRegions i0 i1
        let entries ← writeSlot entries temp { entry with area := area }
        let heap ← siftDown entries heapSize (heapSize + 1) 0 heap
        let root ← readSlot heap 0
        if root = temp then return (heap, entries)
        else refreshRoot dirtyRegions map invalidMask heapSize fuel heap entries
      else return (heap, entries)

/-- `takeMinWithMap`, with the reference it returns.  The root is stored in the
last slot and stays where it is. -/
def takeMinWithMap (dirtyRegions : List (RectBounds F)) (map : List Nat) (invalidMask : BitVec 64)
    (heapSize : Nat) (heap : List Nat) (entries : List HeapEntry) :
    Except Fault (HeapEntry × List Nat × List HeapEntry) := do
  let (heap, entries) ← refreshRoot unionArea dirtyRegions map invalidMask heapSize
    ((entries.length + 1) * (entries.length + 1)) heap entries
  let temp ← readSlot heap 0
  let min ← readSlot entries temp
  let heap ← writeSlot heap (heapSize - 1) temp
  let heap ← siftDown entries heapSize (heapSize + 1) 0 heap
  return (min, heap, entries)

/-- The variables of the merging loop of `heapCompress`. -/
structure Merging (F : Type) where
  dirtyRegions : List (RectBounds F)
  map : List Nat
  invalidMask : BitVec 64
  heapSize : Nat
  heap : List Nat
  entries : List HeapEntry
deriving DecidableEq, Repr

def mergePair (s : Merging F) : Except Fault (Merging F) := do
  let (min, heap, entries) ← takeMinWithMap unionArea s.dirtyRegions s.map s.invalidMask s.heapSize s.heap s.entries
  let s := { s with heap := heap, entries := entries, heapSize := s.heapSize - 1 }
  let idx0 ← resolveMap s.map (s.map.length + 1) min.first
  let idx1 ← resolveMap s.map (s.map.length + 1) min.second
  if idx0 = idx1 then return s
  else
    let r0 ← readSlot s.dirtyRegions idx0
    let r1 ← readSlot s.dirtyRegions idx1
    let dirtyRegions ← writeSlot s.dirtyRegions idx0 (r0.unionWith r1)
    let map ← writeSlot s.map idx1 idx0
    return { s with
      dirtyRegions := dirtyRegions
      map := map
      invalidMask := s.invalidMask ||| bit idx0 ||| bit idx1 }

def mergePairs : Nat → Merging F → Except Fault (Merging F)
  | 0, s => return s
  | rounds + 1, s => do
      let s ← mergePair unionArea s
      mergePairs rounds s

/-- The inner loop of the compaction: the unused regions at the end are left
out. -/
def dropUnused (map : List Nat) : Nat → Except Fault Nat
  | 0 => .error .arrayIndexOutOfBounds
  | emptyIndex + 1 => do
      let target ← readSlot map emptyIndex
      if target = emptyIndex then return emptyIndex + 1 else dropUnused map emptyIndex

omit [LinearOrder F] in
/-- The loop that moves the unused regions to the end, with the regions and
their number. -/
def compact : Nat → Nat → Nat → List Nat → List (RectBounds F) → Except Fault (Nat × List (RectBounds F))
  | 0, _, _, _, _ => .error .outOfFuel
  | fuel + 1, i, emptyIndex, map, dirtyRegions =>
      if i < emptyIndex then do
        let target ← readSlot map i
        if target = i then compact fuel (i + 1) emptyIndex map dirtyRegions
        else
          let emptyIndex ← dropUnused map emptyIndex
          if i < emptyIndex - 1 then
            let dirtyRegions ← swapSlots dirtyRegions (emptyIndex - 1) i
            let map ← writeSlot map i i
            compact fuel (i + 1) (emptyIndex - 1) map dirtyRegions
          else compact fuel (i + 1) emptyIndex map dirtyRegions
      else return (emptyIndex, dirtyRegions)

/-- The pairs in the order of the two loops of `compress_heap`. -/
def indexPairs (n : Nat) : List (Nat × Nat) :=
  (List.range (n - 1)).flatMap (fun i => (List.range (n - (i + 1))).map (fun j => (i, i + 1 + j)))

/-- The two loops of `compress_heap`, from slot `k` on. -/
def fillHeap (dirtyRegions : List (RectBounds F)) (heap : List Nat) :
    List (Nat × Nat) → Nat → List HeapEntry → Except Fault (List HeapEntry)
  | [], _, entries => return entries
  | (i, j) :: rest, k, entries => do
      let area ← unifiedRegionArea unionArea dirtyRegions i j
      let ref ← readSlot heap k
      let entries ← writeSlot entries ref ⟨area, i, j⟩
      fillHeap dirtyRegions heap rest (k + 1) entries

/-- `heap = new int[n * (n-1) / 2][3]` when there is no heap yet. -/
def allocateHeap (c : DirtyRegionContainer F) : List Nat × List HeapEntry :=
  match c.heap with
  | some heap => (heap, c.entries)
  | none =>
      let n := c.dirtyRegions.length
      (List.range (n * (n - 1) / 2), List.replicate (n * (n - 1) / 2) ⟨0, 0, 0⟩)

/-- `compress_heap` with `heapCompress`. -/
def compressHeap (c : DirtyRegionContainer F) : Except Fault (DirtyRegionContainer F) := do
  let n := c.dirtyRegions.length
  let (heap, entries) := c.allocateHeap
  let entries ← fillHeap unionArea c.dirtyRegions heap (indexPairs n) 0 entries
  let heap ← heapify entries heap.length (heap.length / 2) heap
  let s ← mergePairs unionArea (n / 2) ⟨c.dirtyRegions, List.range n, 0, heap.length, heap, entries⟩
  let (emptyIndex, dirtyRegions) ← compact (n + 1) 0 c.emptyIndex s.map s.dirtyRegions
  return ⟨dirtyRegions, emptyIndex, some s.heap, s.entries⟩

/-! ## Adding a region -/

/-- The loop of `addDirtyRegion`: the regions that the new one meets are merged
into it. -/
def absorb : Nat → Nat → RectBounds F → List (RectBounds F) → Nat →
    Except Fault (RectBounds F × List (RectBounds F) × Nat)
  | 0, _, region, dirtyRegions, emptyIndex => return (region, dirtyRegions, emptyIndex)
  | rounds + 1, tempIndex, region, dirtyRegions, emptyIndex => do
      let dr ← readSlot dirtyRegions tempIndex
      if region.intersects dr then
        if emptyIndex = 0 then .error .arrayIndexOutOfBounds
        else
          let dirtyRegions ← swapSlots dirtyRegions tempIndex (emptyIndex - 1)
          absorb rounds tempIndex (region.unionWith dr) dirtyRegions (emptyIndex - 1)
      else absorb rounds (tempIndex + 1) region dirtyRegions emptyIndex

/-- `addDirtyRegion`; the fuel bounds the depth of its recursion through
`compress`. -/
def addDirtyRegion (blank : RectBounds F) : Nat → RectBounds F → DirtyRegionContainer F →
    Except Fault (DirtyRegionContainer F)
  | 0, _, _ => .error .outOfFuel
  | fuel + 1, region, c =>
      if region.isEmpty then return c
      else do
        let (region, dirtyRegions, emptyIndex) ← absorb c.emptyIndex 0 region c.dirtyRegions c.emptyIndex
        let c := { c with dirtyRegions := dirtyRegions, emptyIndex := emptyIndex }
        if c.emptyIndex < c.dirtyRegions.length then
          let dirtyRegions ← writeSlot c.dirtyRegions c.emptyIndex (RectBounds.deriveWithNewBounds blank region)
          return { c with dirtyRegions := dirtyRegions, emptyIndex := c.emptyIndex + 1 }
        else if c.dirtyRegions.length = 1 then
          let dr ← readSlot c.dirtyRegions 0
          let dirtyRegions ← writeSlot c.dirtyRegions 0 (dr.unionWith region)
          return { c with dirtyRegions := dirtyRegions }
        else
          let c ← compressHeap unionArea c
          addDirtyRegion blank fuel region c

end Compress

/-- `new DirtyRegionContainer(count)`. -/
def create {F : Type} (blank : RectBounds F) (count : Nat) : DirtyRegionContainer F :=
  ⟨List.replicate count blank, 0, none, []⟩

def regions {F : Type} (c : DirtyRegionContainer F) : List (RectBounds F) :=
  c.dirtyRegions.take c.emptyIndex

end DirtyRegionContainer
end OpenJfx.Geometry
