import OpenJfx.Collections.InOrderRecording
import OpenJfx.Collections.SourceChange

/-! # Selected items (`SelectedItemsReadOnlyObservableList`)

The list of selected items is computed from the selected indices.  Its listener
translates a change of the indices into a change of the items; a removed item is
looked up in `itemsRefList`, the items as they were after the last change.  The
item model does not change, so a weak reference never loses its item, and null
is `none`. -/
set_option autoImplicit false
namespace OpenJfx.Controls
open OpenJfx.Lib OpenJfx.Collections

/-- What a subclass supplies: `getModelItem` and `modelSizeSupplier`. -/
structure ItemModel (E : Type) where
  size : Int
  getModelItem : Int → Option E

structure SelectedItems (E : Type) where
  itemsRefList : List (Option E)
  builder : ListChangeBuilder (Option E)
deriving DecidableEq, Repr

namespace SelectedItems
variable {E : Type}

def new : SelectedItems E := ⟨[], ListChangeBuilder.new⟩

/-- The items at the selected indices: `get(index)` for every index. -/
def items (model : ItemModel E) (selectedIndices : List Int) : List (Option E) :=
  selectedIndices.map model.getModelItem

def getRemovedModelItem (refs : List (Option E)) (index : Int) : Option E :=
  if index < 0 ∨ index ≥ refs.length then none else (refs[index.toNat]?).getD none

def _getModelItem (model : ItemModel E) (refs : List (Option E)) (index : Int) : Option E :=
  if index ≥ model.size then getRemovedModelItem refs index else model.getModelItem index

/-- The references in `[startPos, startPos + removedSize)`. -/
def removedElements (refs : List (Option E)) (startPos : Int) (removedSize : Nat) : List (Option E) :=
  (intRange startPos (startPos + removedSize)).map (getRemovedModelItem refs)

def getRemovedElements (refs : List (Option E)) (c : SubChange Int) : List (Option E) :=
  removedElements refs c.fromIdx c.getRemovedSize

def getAddedElements (model : ItemModel E) (selectedIndices : List Int) (refs : List (Option E))
    (c : SubChange Int) : List (Option E) :=
  (c.getAddedSubList selectedIndices).map (_getModelItem model refs)

section Listener
variable [DecidableEq E]
open ListChangeBuilder

/-- The body of `while (c.next())`. -/
def onSubChange (model : ItemModel E) (selectedIndices : List Int) (refs : List (Option E))
    (c : SubChange Int) (b : ListChangeBuilder (Option E)) : Outcome Exn (ListChangeBuilder (Option E)) :=
  if c.wasAdded ∧ c.wasRemoved then
    let removed := getRemovedElements refs c
    let added := getAddedElements model selectedIndices refs c
    if removed ≠ added then nextReplace c.fromIdx c.toIdx removed b else .done b
  else if c.wasAdded then nextAdd c.fromIdx c.toIdx b
  else if c.wasRemoved then
    if c.getRemovedSize = 1 then nextRemove c.fromIdx (getRemovedModelItem refs c.fromIdx) b
    else nextRemoveAll c.fromIdx (getRemovedElements refs c) b
  else if c.wasPermutated then
    match (intRange 0 selectedIndices.length).mapM c.getPermutation with
    | .ok permutation => nextPermutation c.fromIdx c.toIdx permutation selectedIndices.length b
    | .error x => .thrown x b
  else if c.wasUpdated then Outcome.run (fun i b => nextUpdate i b) (intRange c.fromIdx c.toIdx) b
  else .done b

/-- The listener on the selected indices; it sees them as they are after the
change. -/
def selectedIndicesChanged (model : ItemModel E) (selectedIndices : List Int) (change : Change Int)
    (s : SelectedItems E) : Outcome Exn (SelectedItems E) :=
  ((Outcome.run (onSubChange model selectedIndices s.itemsRefList) change s.builder.beginChange).map
    (fun b => { s with builder := b })).bind fun s =>
      let s := { s with itemsRefList := items model selectedIndices }
      s.builder.endChange.map (fun b => { s with builder := b })

end Listener

/-! ## What the listener looks up -/

/-- The change leads from `old` to `new` by insertions, removals and
replacements, listed in the order of their positions. -/
structure Legal (old new : List Int) (change : Change Int) : Prop where
  plain : ∀ c ∈ change, c.Plain
  turns : Turns 0 (change.map SubChange.edit) old new

/-- Between two changes: the references are the selected items, and nothing is
being recorded. -/
structure Mirrors (model : ItemModel E) (selectedIndices : List Int) (s : SelectedItems E) : Prop where
  refs : s.itemsRefList = items model selectedIndices
  idle : s.builder.Idle

def itemAt (model : ItemModel E) (selectedIndices : List Int) (pos : Int) : Option E :=
  getRemovedModelItem (items model selectedIndices) pos

/-- The items that stood at the positions a sub-change reports, before the whole
change, are those of the indices it removes. -/
def SlotsAgree (model : ItemModel E) (old : List Int) (change : Change Int) : Prop :=
  ∀ c ∈ change, (intRange c.fromIdx (c.fromIdx + c.getRemovedSize)).map (itemAt model old) =
    c.getRemoved.map model.getModelItem

@[simp] theorem removedElements_length (refs : List (Option E)) (startPos : Int) (removedSize : Nat) :
    (removedElements refs startPos removedSize).length = removedSize := by
  rw [removedElements, List.length_map, intRange_length]
  omega

theorem removedElements_one (refs : List (Option E)) (startPos : Int) :
    removedElements refs startPos 1 = [getRemovedModelItem refs startPos] := by
  have hrange : intRange startPos (startPos + (1 : Nat)) = [startPos] := by
    have hone : (startPos + ((1 : Nat) : Int) - startPos).toNat = 1 := by omega
    rw [intRange, hone]
    simp
  rw [removedElements, hrange, List.map_singleton]

theorem getModelItem_inside (model : ItemModel E) (refs : List (Option E)) {index : Int}
    (inside : index < model.size) : _getModelItem model refs index = model.getModelItem index := by
  rw [_getModelItem, if_neg (by omega)]

theorem accessors {c : SubChange Int} (plain : c.Plain) {added : List (Option E)}
    (hi : c.toIdx = c.fromIdx + added.length) :
    c.wasPermutated = false ∧ c.wasUpdated = false ∧ (c.wasAdded = true ↔ added ≠ []) ∧
      (c.wasRemoved = true ↔ c.getRemoved ≠ []) := by
  obtain ⟨hperm, hupdated⟩ := SourceChange.plain_accessors plain
  refine ⟨hperm, hupdated, ?_, ?_⟩
  · rw [SubChange.wasAdded, hperm, hupdated, ← List.length_pos_iff]
    simp only [Bool.not_false, Bool.and_self, Bool.true_and, decide_eq_true_eq]
    omega
  · rw [SubChange.wasRemoved]
    simp

theorem getAddedElements_eq {model : ItemModel E} {indices : List Int} {refs front added back : List (Option E)}
    {c : SubChange Int} (inside : ∀ i ∈ indices, i < model.size)
    (hnew : items model indices = front ++ (added ++ back)) (lo : c.fromIdx = front.length)
    (hi : c.toIdx = c.fromIdx + added.length) (hadded : c.wasAdded = true) :
    getAddedElements model indices refs c = added := by
  have hmap : (c.getAddedSubList indices).map (_getModelItem model refs) =
      (c.getAddedSubList indices).map model.getModelItem := by
    apply List.map_congr_left
    intro i hi
    apply getModelItem_inside
    rw [SubChange.getAddedSubList, if_pos hadded] at hi
    exact inside i (List.mem_of_mem_drop (List.mem_of_mem_take hi))
  have hlo : c.fromIdx.toNat = front.length := by omega
  have hlen : (c.toIdx - c.fromIdx).toNat = added.length := by omega
  calc getAddedElements model indices refs c
      = (c.getAddedSubList indices).map model.getModelItem := hmap
    _ = ((items model indices).drop front.length).take added.length := by
        rw [SubChange.getAddedSubList, if_pos hadded, hlo, hlen, items, List.map_take, List.map_drop]
    _ = added := by rw [hnew, List.drop_left' rfl, List.take_left' rfl]

/-! ## The recording -/

section Recording
variable [DecidableEq E] {model : ItemModel E} {indices : List Int} {refs original : List (Option E)}
open ListChangeBuilder

theorem onSubChange_tracks {c : SubChange Int} (plain : c.Plain) (inside : ∀ i ∈ indices, i < model.size)
    {front added rest back : List (Option E)} (hnew : items model indices = front ++ (added ++ back))
    (lo : c.fromIdx = front.length) (hi : c.toIdx = c.fromIdx + added.length)
    {b : ListChangeBuilder (Option E)}
    (h : Tracks original (front ++ (getRemovedElements refs c ++ rest)) b)
    (behind : EndsBy front.length b.addRemove) :
    ∃ b', onSubChange model indices refs c b = .done b' ∧ Tracks original (front ++ (added ++ rest)) b' ∧
      EndsBy (front.length + added.length) b'.addRemove ∧ b'.changeLock = b.changeLock ∧
      b'.fired = b.fired := by
  obtain ⟨hperm, hupdated, hadded, hremoved⟩ := accessors plain hi
  have hlen : (getRemovedElements refs c).length = c.getRemoved.length := by
    rw [getRemovedElements, removedElements_length]
    rfl
  have hend : c.toIdx = front.length + added.length := by omega
  have hgrow : (front.length : Int) ≤ front.length + added.length := by omega
  rw [onSubChange]
  by_cases ha : c.wasAdded = true
  · by_cases hr : c.wasRemoved = true
    · rw [if_pos ⟨ha, hr⟩]
      dsimp only
      rw [getAddedElements_eq inside hnew lo hi ha]
      by_cases hsame : getRemovedElements refs c = added
      · rw [if_neg (by simpa using hsame)]
        rw [hsame] at h
        exact ⟨b, rfl, h, behind.mono hgrow, rfl, rfl⟩
      · rw [if_pos hsame, lo, hend]
        exact replacement_behind _ added h behind
    · rw [if_neg (by simp [hr]), if_pos ha, lo, hend]
      have hnone : getRemovedElements refs c = [] := by
        rw [← List.length_eq_zero_iff, hlen, List.length_eq_zero_iff]
        simpa using hremoved.not.mp hr
      rw [hnone] at h
      exact addition_behind added h behind
  · have hnil : added = [] := by simpa using hadded.not.mp ha
    subst hnil
    rw [if_neg (by simp [ha]), if_neg ha]
    by_cases hr : c.wasRemoved = true
    · rw [if_pos hr]
      obtain ⟨b', hrun, htracks, hbehind, hlock, hfired⟩ := removals_behind _ h behind
      refine ⟨b', ?_, htracks, hbehind.mono hgrow, hlock, hfired⟩
      rw [← hrun, lo]
      by_cases hone : c.getRemovedSize = 1
      · rw [if_pos hone, getRemovedElements, hone, removedElements_one, lo, nextRemoveAll,
          if_neg h.open_block, Outcome.run_cons]
        exact (Outcome.bind_pure _).symm
      · rw [if_neg hone]
    · rw [if_neg hr, if_neg (by simp [hperm]), if_neg (by simp [hupdated])]
      have hnone : getRemovedElements refs c = [] := by
        rw [← List.length_eq_zero_iff, hlen, List.length_eq_zero_iff]
        simpa using hremoved.not.mp hr
      rw [hnone] at h
      exact ⟨b, rfl, h, behind.mono hgrow, rfl, rfl⟩

/-- The script that the listener sees: every removal with the elements it looks
up. -/
def lookedUp (refs : List (Option E)) (e : Edit Int) : List (Option E) :=
  removedElements refs e.lo e.old.length

/-- The loop over the sub-changes.  `front` is the part of the new list that is
done, `rest` is what the builder takes to be the remaining old list. -/
theorem run_onSubChange (inside : ∀ i ∈ indices, i < model.size) {change : Change Int}
    (plain : ∀ c ∈ change, c.Plain) {front rest back : List (Option E)}
    (hnew : items model indices = front ++ back)
    (turns : Turns front.length
      ((change.map SubChange.edit).map fun e => ⟨e.lo, e.hi, lookedUp refs e⟩) rest back)
    {b : ListChangeBuilder (Option E)} (h : Tracks original (front ++ rest) b)
    (behind : EndsBy front.length b.addRemove) :
    ∃ b', Outcome.run (onSubChange model indices refs) change b = .done b' ∧
      Tracks original (items model indices) b' ∧ b'.changeLock = b.changeLock ∧ b'.fired = b.fired := by
  induction change generalizing front rest back b with
  | nil =>
    have heq : rest = back := turns
    rw [heq, ← hnew] at h
    exact ⟨b, rfl, h, rfl, rfl⟩
  | cons c change ih =>
    obtain ⟨kept, added, rest', back', rfl, rfl, hlo, hhi, hturns⟩ := turns
    simp only [SubChange.edit_lo, SubChange.edit_hi] at hlo hhi hturns
    have hkept : c.fromIdx = (front ++ kept).length := by simpa using hlo
    have hpart : items model indices = (front ++ kept) ++ (added ++ back') := by
      rw [hnew, List.append_assoc]
    have hend : c.toIdx = ((front ++ kept) ++ added).length := by
      rw [hhi, hkept, ← Nat.cast_add, ← List.length_append]
    rw [← List.append_assoc] at h
    have hgrow : (front.length : Int) ≤ (front ++ kept).length := by
      rw [List.length_append]
      omega
    obtain ⟨b₁, hstep, htracks, hbehind, hlock, hfired⟩ :=
      onSubChange_tracks (plain c (List.mem_cons_self ..)) inside hpart hkept hhi h (behind.mono hgrow)
    rw [hend] at hturns
    rw [← List.append_assoc] at htracks hpart
    rw [← Nat.cast_add, ← List.length_append] at hbehind
    obtain ⟨b₂, hrun, htracks₂, hlock₂, hfired₂⟩ :=
      ih (fun d hd => plain d (List.mem_cons_of_mem _ hd)) hpart hturns htracks hbehind
    exact ⟨b₂, by rw [Outcome.run_cons, hstep, Outcome.bind_done, hrun], htracks₂,
      hlock₂.trans hlock, hfired₂.trans hfired⟩

end Recording

/-! ## The fired change -/

section Contract
variable [DecidableEq E]

/-- What was fired leads from the old items to the new ones: one change that
replays, or nothing between equal lists. -/
def Replays (model : ItemModel E) (old new : List Int) (before after : List (Change (Option E))) : Prop :=
  after = before ∧ items model old = items model new ∨
    ∃ change, after = before ++ [change] ∧
      Change.replay (items model new) change (items model old) = some (items model new)

/-- The listener returns and holds the new items afterwards.  The change it
fires replays the old items to the new ones exactly when the positions the
sub-changes report held the removed items before the whole change, too. -/
theorem fired_change_mirrors (model : ItemModel E) {old new : List Int} {change : Change Int}
    {s : SelectedItems E} (ready : Mirrors model old s) (legal : Legal old new change)
    (inside : ∀ i ∈ new, i < model.size) :
    ∃ s', selectedIndicesChanged model new change s = .done s' ∧ Mirrors model new s' ∧
      (Replays model old new s.builder.fired s'.builder.fired ↔ SlotsAgree model old change) := by
  obtain ⟨assumed, hturns, hiff⟩ := legal.turns.reread model.getModelItem (lookedUp s.itemsRefList)
    (fun e => removedElements_length ..)
  have hagree : assumed = items model old ↔ SlotsAgree model old change := by
    rw [items, hiff, ready.refs, List.forall_mem_map]
    exact Iff.rfl
  have hnone : ListChangeBuilder.EndsBy 0 s.builder.beginChange.addRemove := by
    have hnil : s.builder.beginChange.addRemove = [] := ready.idle.addRemove
    rw [hnil]
    exact fun c hc => absurd hc (by simp)
  obtain ⟨b, hrun, htracks, hlock, hfired⟩ := @run_onSubChange E _ model new s.itemsRefList assumed inside
    change legal.plain [] assumed (items model new) rfl hturns s.builder.beginChange
    (Recording.tracks_beginChange ready.idle assumed) hnone
  have hone : b.changeLock = 1 := by
    rw [hlock, ListChangeBuilder.beginChange, ready.idle.lock]
  obtain ⟨b', hend, hidle, hcases⟩ := ListChangeBuilder.tracks_endChange htracks hone
  refine ⟨⟨items model new, b'⟩, ?_, ⟨rfl, hidle⟩, ?_⟩
  · rw [selectedIndicesChanged, hrun, Outcome.map_done, Outcome.bind_done]
    dsimp only
    rw [hend, Outcome.map_done]
  have hbefore : b.fired = s.builder.fired := hfired
  rw [← hagree, Replays, ← hbefore]
  dsimp only
  rcases hcases with ⟨hnothing, hsame⟩ | ⟨fired, hchange, hplain, hturn⟩
  · -- nothing fired: the items looked up are the new ones
    rw [hnothing, hsame]
    constructor
    · rintro (⟨-, heq⟩ | ⟨fired, habs, -⟩)
      · exact heq.symm
      · simp at habs
    · intro heq
      exact Or.inl ⟨rfl, heq.symm⟩
  · -- the fired change leads from the items looked up to the new ones
    constructor
    · rintro (⟨habs, -⟩ | ⟨fired', hfired', hreplay⟩)
      · rw [hchange] at habs
        simp at habs
      · rw [hchange] at hfired'
        have hsame : fired = fired' := by simpa using hfired'
        subst hsame
        rw [Change.replay_plain _ hplain] at hreplay
        exact hturn.injective (replay_turns_zero.mp ⟨hturn.ordered.1, hreplay⟩)
    · intro heq
      refine Or.inr ⟨fired, hchange, ?_⟩
      rw [Change.replay_plain _ hplain, ← heq]
      exact (replay_turns_zero.mpr hturn).2

/-- Three items selected, then the middle one deselected. -/
theorem fired_change_mirrors_middle :
    ∃ s', selectedIndicesChanged ⟨4, fun i => some i⟩ [0, 2] [⟨1, 1, some [1], [], false⟩]
        ⟨[some 0, some 1, some 2], ListChangeBuilder.new⟩ = .done s' ∧
      Mirrors ⟨4, fun i => some i⟩ [0, 2] s' ∧
      (Replays ⟨4, fun i => some i⟩ [0, 1, 2] [0, 2] [] s'.builder.fired ↔
        SlotsAgree ⟨4, fun i => some i⟩ [0, 1, 2] [⟨1, 1, some [1], [], false⟩]) :=
  fired_change_mirrors ⟨4, fun i => some i⟩ ⟨rfl, ListChangeBuilder.idle_new⟩
    ⟨by decide, (replay_turns_zero.mp (by decide))⟩ (by decide)

/-- Rows `0`, `1` and `2` are selected, then `0` and `2` are deselected in one
change.  The second removal is at position `1`; item `2` stood at position `2`
when the references were taken, so the change reports item `1`, which stays
selected. -/
theorem second_removal_misread :
    ∃ s₁ s₂ : SelectedItems Int,
      Legal [] [0, 1, 2] [⟨0, 3, some [], [], false⟩] ∧
      selectedIndicesChanged ⟨4, fun i => some i⟩ [0, 1, 2] [⟨0, 3, some [], [], false⟩] new = .done s₁ ∧
      Legal [0, 1, 2] [1] [⟨0, 0, some [0], [], false⟩, ⟨1, 1, some [2], [], false⟩] ∧
      selectedIndicesChanged ⟨4, fun i => some i⟩ [1]
        [⟨0, 0, some [0], [], false⟩, ⟨1, 1, some [2], [], false⟩] s₁ = .done s₂ ∧
      s₂.builder.fired = s₁.builder.fired ++
        [[⟨0, 0, some [some 0], [], false⟩, ⟨1, 1, some [some 1], [], false⟩]] ∧
      ¬ Replays ⟨4, fun i => some i⟩ [0, 1, 2] [1] s₁.builder.fired s₂.builder.fired := by
  refine ⟨⟨[some 0, some 1, some 2], ⟨0, some [], none, none, [[⟨0, 3, some [], [], false⟩]]⟩⟩,
    ⟨[some 1], ⟨0, some [], none, none, [[⟨0, 3, some [], [], false⟩],
      [⟨0, 0, some [some 0], [], false⟩, ⟨1, 1, some [some 1], [], false⟩]]⟩⟩,
    ⟨by decide, replay_turns_zero.mp (by decide)⟩, by decide,
    ⟨by decide, replay_turns_zero.mp (by decide)⟩, by decide, rfl, ?_⟩
  rintro (⟨habs, -⟩ | ⟨change, hfired, hreplay⟩)
  · simp at habs
  · have hchange : change = [⟨0, 0, some [some 0], [], false⟩, ⟨1, 1, some [some 1], [], false⟩] := by
      simpa using hfired.symm
    subst hchange
    revert hreplay
    decide

end Contract
end SelectedItems
end OpenJfx.Controls
