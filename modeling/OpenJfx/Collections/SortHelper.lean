import OpenJfx.Lib.Arrays

/-! # `com.sun.javafx.collections.SortHelper`

A merge sort that also reports where every element went.  The three copies of
`mergeSort` in the source differ only in how two elements are compared, so there
is one here, with the comparator as argument.  The recursion is on a fuel that
bounds the length of the range. -/
set_option autoImplicit false
namespace OpenJfx.Collections
open OpenJfx.Lib

namespace SortHelper
variable {α : Type}

def insertionSortThreshold : Int := 7

/-- The arguments `src` and `dest` of `mergeSort` and the two fields that follow
the elements: `permutation[i]` is the place of the element that was at `i`, and
`reversePermutation` is meant to be its inverse. -/
structure State (α : Type) where
  src : List α
  dest : List α
  permutation : List Int
  reversePermutation : List Int
deriving DecidableEq, Repr

def initPermutation (length : Nat) : List Int := intRange 0 length

/-- The arguments of the recursive calls, `mergeSort(dest, src, ..)`. -/
def State.exchange (s : State α) : State α := { s with src := s.dest, dest := s.src }

def swap (a b : Int) (s : State α) : Except Exn (State α) := do
  let t ← readAt s.dest a
  let u ← readAt s.dest b
  let dest ← writeAt s.dest a u
  let dest ← writeAt dest b t
  let ra ← readAt s.reversePermutation a
  let rb ← readAt s.reversePermutation b
  let permutation ← writeAt s.permutation ra b
  let permutation ← writeAt permutation rb a
  let reverse ← writeAt s.reversePermutation a rb
  let reverse ← writeAt reverse b ra
  .ok { s with dest := dest, permutation := permutation, reversePermutation := reverse }

/-- The inner loop of the insertion sort, from `j = low + k` down. -/
def sink (c : Comparator α) (low : Int) : Nat → State α → Except Exn (State α)
  | 0, s => .ok s
  | k + 1, s => do
      let x ← readAt s.dest (low + k)
      let y ← readAt s.dest (low + k + 1)
      if c.compare x y > 0 then do
        let s ← swap (low + k + 1) (low + k) s
        sink c low k s
      else .ok s

def insertionSort (c : Comparator α) (low high : Int) (s : State α) : Except Exn (State α) :=
  (intRange low high).foldlM (fun s i => sink c low (i - low).toNat s) s

/-- The condition `q >= high || p < mid && compare(src[p], src[q]) <= 0`. -/
def takesLeft (c : Comparator α) (mid high p q : Int) (src : List α) : Except Exn Bool :=
  if q ≥ high then .ok true
  else if p < mid then do
    let x ← readAt src p
    let y ← readAt src q
    .ok (c.compare x y ≤ 0)
  else .ok false

/-- The loop that merges the two halves of `src` into `dest`; the first argument
counts the rounds left. -/
def mergeLoop (c : Comparator α) (mid high : Int) :
    Nat → Int → Int → Int → State α → Except Exn (State α)
  | 0, _, _, _, s => .ok s
  | n + 1, i, p, q, s => do
      let left ← takesLeft c mid high p q s.src
      let k := if left then p else q
      let x ← readAt s.src k
      let dest ← writeAt s.dest i x
      let r ← readAt s.reversePermutation k
      let permutation ← writeAt s.permutation r i
      mergeLoop c mid high n (i + 1) (if left then p + 1 else p) (if left then q else q + 1)
        { s with dest := dest, permutation := permutation }

/-- The loop behind the merge, `reversePermutation[permutation[i]] = i`. -/
def renewReverse (destLow destHigh : Int) (s : State α) : Except Exn (State α) :=
  (intRange destLow destHigh).foldlM (fun s i => do
    let p ← readAt s.permutation i
    let reverse ← writeAt s.reversePermutation p i
    .ok { s with reversePermutation := reverse }) s

/-- The part of `mergeSort` behind the recursive calls. -/
def joinHalves (c : Comparator α) (destLow destHigh low mid high : Int) (s : State α) :
    Except Exn (State α) := do
  let x ← readAt s.src (mid - 1)
  let y ← readAt s.src mid
  if c.compare x y ≤ 0 then do
    let dest ← arraycopy s.src low s.dest destLow (destHigh - destLow)
    .ok { s with dest := dest }
  else do
    let s ← mergeLoop c mid high (destHigh - destLow).toNat destLow low mid s
    renewReverse destLow destHigh s

def mergeSort (c : Comparator α) : Nat → Int → Int → Int → State α → Except Exn (State α)
  | 0, _, _, _, s => .ok s
  | fuel + 1, low, high, off, s =>
      if high - low < insertionSortThreshold then insertionSort c low high s
      else do
        let mid := (low + off + (high + off)) / 2
        let s ← mergeSort c fuel (low + off) mid (-off) s.exchange
        let s ← mergeSort c fuel mid (high + off) (-off) s
        joinHalves c low high (low + off) mid (high + off) s.exchange

def rangeCheck (arrayLen : Nat) (fromIndex toIndex : Int) : Except Exn Unit :=
  if fromIndex > toIndex then .error .illegalArgument
  else if fromIndex < 0 then .error .arrayIndexOutOfBounds
  else if toIndex > arrayLen then .error .arrayIndexOutOfBounds
  else .ok ()

/-- `sort(a, fromIndex, toIndex)`: the sorted array and the permutation.  The
copy `aux` is the range itself, as the range has been checked. -/
def sort (c : Comparator α) (a : List α) (fromIndex toIndex : Int) :
    Except Exn (List α × List Int) := do
  rangeCheck a.length fromIndex toIndex
  let aux := (a.drop fromIndex.toNat).take (toIndex - fromIndex).toNat
  let s ← mergeSort c (a.length + 1) fromIndex toIndex (-fromIndex)
    ⟨aux, a, initPermutation a.length, initPermutation a.length⟩
  let result ← copyOfRange 0 s.permutation fromIndex toIndex
  .ok (s.dest, result)

/-- `sort(T[] a, Comparator c)`: the sorted array and the permutation. -/
def sortArray (c : Comparator α) (a : List α) : Except Exn (List α × List Int) := do
  let s ← mergeSort c (a.length + 1) 0 a.length 0 ⟨a, a, initPermutation a.length, initPermutation a.length⟩
  .ok (s.dest, s.permutation)

/-- `sort(int[] a, int fromIndex, int toIndex)`. -/
def sortInts (a : List Int) (fromIndex toIndex : Int) : Except Exn (List Int × List Int) :=
  sort compareInts a fromIndex toIndex

end SortHelper
end OpenJfx.Collections
