import OpenJfx.Collections.Change

/-! # `javafx.collections.ListChangeBuilder`

The recorder behind `beginChange`/`endChange`.  Every method is written as a
function on the builder's fields; `Outcome` keeps the fields as they are when a
method throws.  `list.size()` is the argument `size` of `nextPermutation`, and
the changes handed to `list.fireChange` are appended to `fired`.

Positions are integers, as in the source: a builder whose bookkeeping went
wrong can hold negative positions. -/
set_option autoImplicit false
namespace OpenJfx.Collections
open OpenJfx.Lib

structure ListChangeBuilder (E : Type) where
  changeLock : Nat
  addRemoveChanges : Option (List (SubChange E))
  updateChanges : Option (List (SubChange E))
  permutationChange : Option (SubChange E)
  fired : List (Change E)
deriving DecidableEq, Repr

namespace ListChangeBuilder
variable {E : Type}

def new : ListChangeBuilder E := ⟨0, none, none, none, []⟩

/-- The recorded add/remove sub-changes; a null list has none. -/
def addRemove (b : ListChangeBuilder E) : List (SubChange E) := b.addRemoveChanges.getD []

def updates (b : ListChangeBuilder E) : List (SubChange E) := b.updateChanges.getD []

/-- `findSubChange`; a miss is `~from`. -/
def findSubChange (idx : Int) (list : List (SubChange E)) : Int :=
  bisect (fun changeIdx => match list[changeIdx]? with
    | some change =>
        if idx ≥ change.toIdx then .lt else if idx < change.fromIdx then .gt else .eq
    | none => .gt) list.length

/-- The loop `for (int i = k; i < list.size(); ++i)` that moves the sub-changes
from index `k` on by `d`. -/
def shiftFrom (k : Nat) (d : Int) (list : List (SubChange E)) : List (SubChange E) :=
  list.take k ++ (list.drop k).map (SubChange.shift d)

/-- `list.get(idx - 1)` when `idx > 0`. -/
def getBefore (idx : Nat) (list : List (SubChange E)) : Option (SubChange E) :=
  if idx > 0 then list[idx - 1]? else none

def insertUpdate (pos : Int) (list : List (SubChange E)) : List (SubChange E) :=
  match findSubChange pos list with
  | .negSucc idx =>
      if (getBefore idx list).any (fun change => change.toIdx == pos) then
        list.modify (idx - 1) (fun change => { change with toIdx := pos + 1 })
      else if (list[idx]?).any (fun change => change.fromIdx == pos + 1) then
        list.modify idx (fun change => { change with fromIdx := pos })
      else list.insertIdx idx ⟨pos, pos + 1, none, [], true⟩
  | .ofNat _ => list

/-- A store into the `removed` list of the sub-change at index `i`. -/
def changeRemoved (i : Nat) (f : List E → List E) (list : List (SubChange E)) :
    Outcome Exn (List (SubChange E)) :=
  match list[i]? with
  | some change =>
      match change.removed with
      | some removed => .done (list.set i { change with removed := some (f removed) })
      | none => .thrown .nullPointer list
  | none => .thrown .indexOutOfBounds list

def insertRemoved (pos : Int) (removed : E) (list : List (SubChange E)) :
    Outcome Exn (List (SubChange E)) :=
  match findSubChange pos list with
  | .negSucc idx =>
      if (getBefore idx list).any (fun change => change.toIdx == pos) then
        -- `--idx`, so the loop below starts at the old `idx`
        (changeRemoved (idx - 1) (fun r => r ++ [removed]) list).map (shiftFrom idx (-1))
      else if (list[idx]?).any (fun change => change.fromIdx == pos + 1) then
        (changeRemoved idx (fun r => removed :: r) (list.modify idx (SubChange.shift (-1)))).bind
          (fun list => .done (shiftFrom (idx + 1) (-1) list))
      else
        .done (shiftFrom (idx + 1) (-1)
          (list.insertIdx idx ⟨pos, pos, some [removed], [], false⟩))
  | .ofNat idx =>
      match list[idx]? with
      | some change =>
          if change.fromIdx = change.toIdx - 1 ∧ change.getRemoved = [] then
            -- the list is one shorter now, but the loop still starts at `idx + 1`
            .done (shiftFrom (idx + 1) (-1) (list.eraseIdx idx))
          else
            .done (shiftFrom (idx + 1) (-1) (list.set idx { change with toIdx := change.toIdx - 1 }))
      | none => .thrown .indexOutOfBounds list

def insertAdd (fromIdx toIdx : Int) (list : List (SubChange E)) : List (SubChange E) :=
  match findSubChange fromIdx list with
  | .negSucc idx =>
      if (getBefore idx list).any (fun change => change.toIdx == fromIdx) then
        shiftFrom idx (toIdx - fromIdx)
          (list.modify (idx - 1) (fun change => { change with toIdx := toIdx }))
      else
        shiftFrom (idx + 1) (toIdx - fromIdx) (list.insertIdx idx ⟨fromIdx, toIdx, some [], [], false⟩)
  | .ofNat idx =>
      shiftFrom (idx + 1) (toIdx - fromIdx)
        (list.modify idx (fun change => { change with toIdx := change.toIdx + (toIdx - fromIdx) }))

/-- The part of `nextRemove` that records in `addRemoveChanges`: two fast paths
against the last sub-change, else `insertRemoved`. -/
def recordRemove (idx : Int) (removed : E) (list : List (SubChange E)) :
    Outcome Exn (List (SubChange E)) :=
  match list.getLast? with
  | some last =>
      if last.toIdx = idx then
        changeRemoved (list.length - 1) (fun r => r ++ [removed]) list
      else if last.fromIdx = idx + 1 then
        changeRemoved (list.length - 1) (fun r => removed :: r)
          (list.modify (list.length - 1) (SubChange.shift (-1)))
      else insertRemoved idx removed list
  | none => insertRemoved idx removed list

/-- The part of `nextRemove` that adjusts `updateChanges`. -/
def removeFromUpdates (idx : Int) (list : List (SubChange E)) : List (SubChange E) :=
  match findSubChange idx list with
  | .negSucc uPos => shiftFrom uPos (-1) list
  | .ofNat uPos =>
      match list[uPos]? with
      | some change =>
          if change.fromIdx = change.toIdx - 1 then shiftFrom uPos (-1) (list.eraseIdx uPos)
          else shiftFrom (uPos + 1) (-1) (list.set uPos { change with toIdx := change.toIdx - 1 })
      | none => list

def nextRemove (idx : Int) (removed : E) (b : ListChangeBuilder E) :
    Outcome Exn (ListChangeBuilder E) :=
  if b.changeLock = 0 then .thrown .illegalState b
  else
    ((recordRemove idx removed b.addRemove).map
      (fun list => { b with addRemoveChanges := some list })).bind
      (fun b => .done { b with updateChanges := b.updateChanges.map (removeFromUpdates idx) })

/-- `nextRemove(int, List)`. -/
def nextRemoveAll (idx : Int) (removed : List E) (b : ListChangeBuilder E) :
    Outcome Exn (ListChangeBuilder E) :=
  if b.changeLock = 0 then .thrown .illegalState b
  else Outcome.run (fun e b => nextRemove idx e b) removed b

/-- The part of `nextAdd` that records in `addRemoveChanges`. -/
def recordAdd (fromIdx toIdx : Int) (list : List (SubChange E)) : List (SubChange E) :=
  match list.getLast? with
  | some last =>
      if last.toIdx = fromIdx then
        list.modify (list.length - 1) (fun change => { change with toIdx := toIdx })
      else if fromIdx ≥ last.fromIdx ∧ fromIdx < last.toIdx then
        list.modify (list.length - 1) (fun change => { change with toIdx := change.toIdx + (toIdx - fromIdx) })
      else insertAdd fromIdx toIdx list
  | none => insertAdd fromIdx toIdx list

/-- The part of `nextAdd` that adjusts `updateChanges`: a range with the
insertion point in it is split in two. -/
def addToUpdates (fromIdx toIdx : Int) (list : List (SubChange E)) : List (SubChange E) :=
  match findSubChange fromIdx list with
  | .negSucc uPos => shiftFrom uPos (toIdx - fromIdx) list
  | .ofNat uPos =>
      match list[uPos]? with
      | some change =>
          shiftFrom (uPos + 2) (toIdx - fromIdx)
            ((list.insertIdx (uPos + 1) ⟨toIdx, change.toIdx + toIdx - fromIdx, none, [], true⟩).set uPos
              { change with toIdx := fromIdx })
      | none => list

def nextAdd (fromIdx toIdx : Int) (b : ListChangeBuilder E) : Outcome Exn (ListChangeBuilder E) :=
  if b.changeLock = 0 then .thrown .illegalState b
  else .done { b with
    addRemoveChanges := some (recordAdd fromIdx toIdx b.addRemove)
    updateChanges := b.updateChanges.map (addToUpdates fromIdx toIdx) }

/-! ## `nextPermutation` -/

/-- `j < from || j >= to ? j : perm[j - from]`. -/
def permuted (fromIdx toIdx : Int) (perm : List Int) (j : Int) : Except Exn Int :=
  if j < fromIdx ∨ j ≥ toIdx then .ok j else readAt perm (j - fromIdx)

/-- The local variables of the loop that maps the current list to the original
one; `removed` is the set of original indices that were removed. -/
structure Reconstruction where
  mapToOriginal : List Int
  removed : List Int
  last : Int
  offset : Int
deriving DecidableEq, Repr

def fillMap (target : Int → Except Exn Int) (value : Int → Int) (js : List Int) (map : List Int) :
    Except Exn (List Int) :=
  js.foldlM (fun map j => do writeAt map (← target j) (value j)) map

def reconstructStep (target : Int → Except Exn Int) (r : Reconstruction) (change : SubChange E) :
    Except Exn Reconstruction := do
  let map ← fillMap target (fun j => j + r.offset) (intRange r.last change.fromIdx) r.mapToOriginal
  let map ← fillMap target (fun _ => -1) (intRange change.fromIdx change.toIdx) map
  let start := change.fromIdx + r.offset
  .ok {
    mapToOriginal := map
    removed := r.removed ++ intRange start (start + change.getRemoved.length)
    last := change.toIdx
    offset := r.offset + (change.getRemoved.length - (change.toIdx - change.fromIdx)) }

/-- `rest` is `mapToOriginal` from `mapPtr` on. -/
def newPermLoop (removed : List Int) : List Int → List Int → List Int → Except Exn (List Int)
  | [], _, newPerm => .ok newPerm
  | i :: is, rest, newPerm =>
      if removed.contains i then do
        newPermLoop removed is rest (← writeAt newPerm i i)
      else
        match rest.dropWhile (· == -1) with
        | [] => .error .arrayIndexOutOfBounds
        | m :: rest => do newPermLoop removed is rest (← writeAt newPerm m i)

/-- The permutation of the original list, removed elements included. -/
def reconstruct (fromIdx toIdx : Int) (perm : List Int) (size : Nat) (changes : List (SubChange E)) :
    Except Exn (List Int) := do
  let start : Reconstruction := ⟨List.replicate size 0, [], 0, 0⟩
  let r ← changes.foldlM (reconstructStep (permuted fromIdx toIdx perm)) start
  let map ← fillMap (permuted fromIdx toIdx perm) (fun j => j + r.offset) (intRange r.last size)
    r.mapToOriginal
  let length := size + r.offset
  if length < 0 then .error .negativeArraySize
  else newPermLoop r.removed (intRange 0 length) map (List.replicate length.toNat 0)

/-- The in-place loop `permutationChange.perm[i] = prePerm[...]` for two arrays. -/
def composeLoop (prePermFrom : Int) (prePerm : List Int) : List Nat → List Int → Outcome Exn (List Int)
  | [], perm => .done perm
  | i :: is, perm =>
      match readAt perm i >>= fun p => readAt prePerm (p - prePermFrom) with
      | .ok v => composeLoop prePermFrom prePerm is (perm.set i v)
      | .error x => .thrown x perm

/-- The same loop when `prePerm` is the array `permutationChange.perm` itself: it reads
what it has written. -/
def composeSelfLoop (fromIdx : Int) : List Nat → List Int → Outcome Exn (List Int)
  | [], perm => .done perm
  | i :: is, perm =>
      match readAt perm i >>= fun p => readAt perm (p - fromIdx) with
      | .ok v => composeSelfLoop fromIdx is (perm.set i v)
      | .error x => .thrown x perm

/-- The entry for index `i` when the two permutations have different ranges. -/
def composeAt (change : SubChange E) (prePermFrom prePermTo : Int) (prePerm : List Int) (i : Int) :
    Except Exn Int :=
  if i < change.fromIdx ∨ i ≥ change.toIdx then readAt prePerm (i - prePermFrom)
  else do
    let p ← readAt change.perm (i - change.fromIdx)
    if p < prePermFrom ∨ p ≥ prePermTo then .ok p else readAt prePerm (p - prePermFrom)

def mergePermutation (prePermFrom prePermTo : Int) (prePerm : List Int) :
    Option (SubChange E) → Outcome Exn (Option (SubChange E))
  | none => .done (some ⟨prePermFrom, prePermTo, none, prePerm, false⟩)
  | some change =>
      if prePermFrom = change.fromIdx ∧ prePermTo = change.toIdx then
        (composeLoop prePermFrom prePerm (List.range prePerm.length) change.perm).map
          (fun perm => some { change with perm := perm })
      else
        let newTo := max change.toIdx prePermTo
        let newFrom := min change.fromIdx prePermFrom
        .ofExcept (some change)
          (fun newPerm => some { change with fromIdx := newFrom, toIdx := newTo, perm := newPerm })
          ((intRange newFrom newTo).mapM (composeAt change prePermFrom prePermTo prePerm))

/-- The next index of `newAdded`: it extends the last sub-change or starts one,
and takes over the elements removed there. -/
def groupStep (updated : Bool) (newRemoved : List (Int × List E)) (list : List (SubChange E))
    (i : Int) : List (SubChange E) :=
  let list := match list.getLast? with
    | some last =>
        if last.toIdx ≠ i then list ++ [⟨i, i + 1, none, [], updated⟩]
        else list.modify (list.length - 1) (fun change => { change with toIdx := i + 1 })
    | none => [⟨i, i + 1, none, [], updated⟩]
  match mapGet i newRemoved with
  | some removed =>
      list.modify (list.length - 1) (fun change =>
        { change with removed := some (change.getRemoved ++ removed) })
  | none => list

/-- A removal that is not at an added element; the assertion in the source says
that the index is not found. -/
def insertRemovedAt (list : List (SubChange E)) (entry : Int × List E) :
    Except Exn (List (SubChange E)) :=
  match findSubChange entry.1 list with
  | .negSucc idx => .ok (list.insertIdx idx ⟨entry.1, entry.1, some entry.2, [], false⟩)
  | .ofNat _ => .error .indexOutOfBounds

/-- `newAdded` and `newRemoved` of the recorded sub-changes. -/
def newPositions (fromIdx toIdx : Int) (perm : List Int) (changes : List (SubChange E)) :
    Except Exn (List Int × List (Int × List E)) :=
  changes.foldlM (fun acc change => do
    let added ← (intRange change.fromIdx change.toIdx).mapM (permuted fromIdx toIdx perm)
    match change.removed with
    | some removed => do
        let key ← permuted fromIdx toIdx perm change.fromIdx
        .ok (acc.1 ++ added, mapPut key removed acc.2)
    | none => .ok (acc.1 ++ added, acc.2)) ([], [])

def permuteAddRemove (fromIdx toIdx : Int) (perm : List Int) (changes : List (SubChange E)) :
    Except Exn (List (SubChange E)) := do
  let (added, newRemoved) ← newPositions fromIdx toIdx perm changes
  let newAdded := treeSet added
  let list := newAdded.foldl (groupStep false newRemoved) []
  let rest := newRemoved.filter (fun e => !newAdded.contains e.1)
  rest.foldlM insertRemovedAt list

def permuteUpdates (fromIdx toIdx : Int) (perm : List Int) (changes : List (SubChange E)) :
    Except Exn (List (SubChange E)) := do
  let updated ← (changes.flatMap fun c => intRange c.fromIdx c.toIdx).mapM (permuted fromIdx toIdx perm)
  .ok ((treeSet updated).foldl (groupStep true []) [])

/-- `prePermFrom`, `prePermTo` and `prePerm`. -/
def prePermutation (fromIdx toIdx : Int) (perm : List Int) (size : Nat) (changes : List (SubChange E)) :
    Except Exn (Int × Int × List Int) :=
  if changes = [] then .ok (fromIdx, toIdx, perm)
  else do
    let newPerm ← reconstruct fromIdx toIdx perm size changes
    .ok (0, newPerm.length, newPerm)

/-- The part of `nextPermutation` that renews `addRemoveChanges`. -/
def renewAddRemove (fromIdx toIdx : Int) (perm : List Int) (b : ListChangeBuilder E) :
    Outcome Exn (ListChangeBuilder E) :=
  if b.addRemove = [] then .done b
  else .ofExcept b (fun list => { b with addRemoveChanges := some list })
    (permuteAddRemove fromIdx toIdx perm b.addRemove)

/-- The part of `nextPermutation` that renews `updateChanges`. -/
def renewUpdates (fromIdx toIdx : Int) (perm : List Int) (b : ListChangeBuilder E) :
    Outcome Exn (ListChangeBuilder E) :=
  if b.updates = [] then .done b
  else .ofExcept b (fun list => { b with updateChanges := some list })
    (permuteUpdates fromIdx toIdx perm b.updates)

/-- The builder keeps the array object of the caller; `perm` is not the one that
`permutationChange` holds. -/
def nextPermutation (fromIdx toIdx : Int) (perm : List Int) (size : Nat) (b : ListChangeBuilder E) :
    Outcome Exn (ListChangeBuilder E) :=
  if b.changeLock = 0 then .thrown .illegalState b
  else
    match prePermutation fromIdx toIdx perm size b.addRemove with
    | .error x => .thrown x b
    | .ok (prePermFrom, prePermTo, prePerm) =>
        (((mergePermutation prePermFrom prePermTo prePerm b.permutationChange).map
          (fun p => { b with permutationChange := p })).bind
          (renewAddRemove fromIdx toIdx perm)).bind
          (renewUpdates fromIdx toIdx perm)

/-- `nextPermutation` with the array object that `permutationChange` holds, in a block
without adds and removes. -/
def nextPermutationAgain (fromIdx toIdx : Int) (size : Nat) (b : ListChangeBuilder E) :
    Outcome Exn (ListChangeBuilder E) :=
  match b.permutationChange with
  | none => .done b
  | some change =>
      if b.changeLock ≠ 0 ∧ fromIdx = change.fromIdx ∧ toIdx = change.toIdx then
        ((composeSelfLoop fromIdx (List.range change.perm.length) change.perm).map
          (fun perm => { b with permutationChange := some { change with perm := perm } })).bind
          (fun b => renewUpdates fromIdx toIdx ((b.permutationChange.map SubChange.perm).getD []) b)
      else nextPermutation fromIdx toIdx change.perm size b

/-! ## Composite calls, updates and the commit -/

def nextReplace (fromIdx toIdx : Int) (removed : List E) (b : ListChangeBuilder E) :
    Outcome Exn (ListChangeBuilder E) :=
  (nextRemoveAll fromIdx removed b).bind (nextAdd fromIdx toIdx)

def nextSet (idx : Int) (old : E) (b : ListChangeBuilder E) : Outcome Exn (ListChangeBuilder E) :=
  (nextRemove idx old b).bind (nextAdd idx (idx + 1))

/-- The part of `nextUpdate` that records in `updateChanges`. -/
def recordUpdate (idx : Int) (list : List (SubChange E)) : List (SubChange E) :=
  match list.getLast? with
  | some last =>
      if last.toIdx = idx then
        list.modify (list.length - 1) (fun change => { change with toIdx := idx + 1 })
      else insertUpdate idx list
  | none => insertUpdate idx list

def nextUpdate (idx : Int) (b : ListChangeBuilder E) : Outcome Exn (ListChangeBuilder E) :=
  if b.changeLock = 0 then .thrown .illegalState b
  else .done { b with updateChanges := some (recordUpdate idx b.updates) }

/-- `compress` from the current `prev` on; the entries it sets to null are left
out. -/
def compressFrom (prev : SubChange E) : List (SubChange E) → Except Exn (List (SubChange E))
  | [] => .ok [prev]
  | cur :: rest =>
      if prev.toIdx = cur.fromIdx then
        match prev.removed, cur.removed with
        | none, none => compressFrom { prev with toIdx := cur.toIdx } rest
        | some _, none => .error .nullPointer
        | removed, some added =>
            compressFrom { prev with toIdx := cur.toIdx, removed := some (removed.getD [] ++ added) }
              rest
      else do
        let out ← compressFrom cur rest
        .ok (prev :: out)

def compress : List (SubChange E) → Except Exn (List (SubChange E))
  | [] => .ok []
  | prev :: rest => compressFrom prev rest

def finalizeSubChange (c : SubChange E) : SubChange E := { c with removed := some c.getRemoved }

/-- The sub-changes of the fired change.  A single sub-change is fired as it is;
several are compressed, permutation first, updates last. -/
def commitChange (b : ListChangeBuilder E) : Except Exn (Change E) :=
  let permutation := b.permutationChange.toList
  if b.updates.length + b.addRemove.length + permutation.length = 1 then
    .ok ((permutation ++ b.addRemove ++ b.updates).map finalizeSubChange)
  else do
    let updates ← compress b.updates
    let addRemove ← compress b.addRemove
    .ok ((permutation ++ addRemove ++ updates).map finalizeSubChange)

/-- When `compress` throws, the outcome keeps the lists as they were; the
entries it had overwritten by then are not described. -/
def commit (b : ListChangeBuilder E) : Outcome Exn (ListChangeBuilder E) :=
  if b.changeLock = 0 ∧ (b.addRemove ≠ [] ∨ b.updates ≠ [] ∨ b.permutationChange.isSome) then
    .ofExcept b (fun change => { b with
      addRemoveChanges := b.addRemoveChanges.map (fun _ => [])
      updateChanges := b.updateChanges.map (fun _ => [])
      permutationChange := none
      fired := b.fired ++ [change] }) (commitChange b)
  else .done b

def beginChange (b : ListChangeBuilder E) : ListChangeBuilder E :=
  { b with changeLock := b.changeLock + 1 }

def endChange (b : ListChangeBuilder E) : Outcome Exn (ListChangeBuilder E) :=
  if b.changeLock = 0 then .thrown .illegalState b
  else commit { b with changeLock := b.changeLock - 1 }

end ListChangeBuilder
end OpenJfx.Collections
