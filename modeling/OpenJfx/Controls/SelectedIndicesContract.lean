import OpenJfx.Controls.SelectedIndicesReplay

/-! # When a call on the selected indices reports what it did

The calls `set(i)`, `set(i, rest...)`, `clear(i)` and `clear()` outside an atomic
block, and the exact condition under which the change they fire turns the old
list of selected indices into the new one. -/
set_option autoImplicit false
namespace OpenJfx.Controls

open OpenJfx.Lib OpenJfx.Collections

namespace SelectedIndicesList

inductive Call where
  | set (index : Int)
  | setAll (index : Int) (indices : List Int)
  | clear (index : Int)
  | clearAll
deriving DecidableEq, Repr

def perform (itemCount : Int) : Call → SelectedIndicesList → Outcome Exn SelectedIndicesList
  | .set index => set itemCount index
  | .setAll index indices => setAll itemCount index indices
  | .clear index => clear index
  | .clearAll => clearAll

/-- Either nothing is fired and the list is as before, or one change is fired
and it turns the old list into the new one. -/
def Replays (old new : SelectedIndicesList) : Prop :=
  (new.builder.fired = old.builder.fired ∧ new.bitset.bits = old.bitset.bits) ∨
  ∃ change, new.builder.fired = old.builder.fired ++ [change] ∧
    Change.replay new.bitset.bits change old.bitset.bits = some new.bitset.bits

structure Outside (s : SelectedIndicesList) : Prop where
  notAtomic : s.atomicityCount = 0
  idle : ListChangeBuilder.Idle s.builder

/-! ## The condition -/

/-- Every row in front of `i` is selected: `i` is its own position. -/
def FullBelow (s : SelectedIndicesList) (i : Int) : Prop := ∀ j, 0 ≤ j → j < i → s.isSelected j = true

def contiguous : List Int → Bool
  | x :: y :: rest => decide (x = y - 1) && contiguous (y :: rest)
  | _ => true

def lastAdjacent : List Int → Bool
  | [x, y] => decide (x = y - 1)
  | _ :: y :: z :: rest => lastAdjacent (y :: z :: rest)
  | _ => false

def NothingBetween (s : SelectedIndicesList) (first : Int) (rest : List Int) : Prop :=
  ∀ j, s.isSelected j = true → j < first ∨ ∀ k ∈ rest, k < j

/-- The new rows `rows` of a bulk selection are reported at their positions. -/
def BulkAligned (s : SelectedIndicesList) : List Int → Prop
  | [] => True
  | [only] => FullBelow s only
  | first :: rest =>
      NothingBetween s first rest ∧ (lastAdjacent (first :: rest) = false ∨ contiguous (first :: rest) = true)

/-- The condition on the selection before the call. -/
def Aligned (itemCount : Int) (s : SelectedIndicesList) : Call → Prop
  | .set _ => True
  | .setAll _ [] => True
  | .setAll index indices => BulkAligned s (s.sortedNewIndices itemCount (index :: indices))
  | .clear index => s.isSelected index = true → FullBelow s index
  | .clearAll => True

/-! ## Calls of the builder -/

section Report
variable {s : SelectedIndicesList} {b₀ : ListChangeBuilder Int} {cs : List (SubChange Int)}

/-- The list outside an atomic block, with `cs` recorded in an open block. -/
structure Recording (b₀ : ListChangeBuilder Int) (s : SelectedIndicesList) (cs : List (SubChange Int)) : Prop where
  notAtomic : s.atomicityCount = 0
  records : Records b₀ s.builder cs

theorem report_outside (h : s.atomicityCount = 0)
    (call : ListChangeBuilder Int → Outcome Exn (ListChangeBuilder Int)) :
    s.report call = (call s.builder).map (fun b => { s with builder := b }) := by
  rw [report, if_neg (by simp [isAtomic, h])]

theorem beginChange_spec (h : Outside s) :
    ∃ s', s.beginChange = .done s' ∧ s'.bitset = s.bitset ∧ Recording s.builder s' [] := by
  unfold beginChange
  rw [report_outside h.notAtomic]
  exact ⟨_, rfl, rfl, h.notAtomic, records_beginChange h.idle⟩

theorem nextAdd_spec (h : Recording b₀ s cs) (lo hi : Int) :
    ∃ s', s.nextAdd lo hi = .done s' ∧ s'.bitset = s.bitset ∧
      Recording b₀ s' (ListChangeBuilder.recordAdd lo hi cs) := by
  obtain ⟨b', hcall, hrec⟩ := h.records.nextAdd lo hi
  unfold SelectedIndicesList.nextAdd
  rw [report_outside h.notAtomic, hcall]
  exact ⟨_, rfl, rfl, h.notAtomic, hrec⟩

theorem nextRemove_spec (h : Recording b₀ s []) (idx x : Int) :
    ∃ s', s.nextRemove idx x = .done s' ∧ s'.bitset = s.bitset ∧
      Recording b₀ s' [⟨idx, idx, some [x], [], false⟩] := by
  obtain ⟨b', hcall, hrec⟩ := h.records.nextRemove (recordRemove_first idx x)
  unfold SelectedIndicesList.nextRemove
  rw [report_outside h.notAtomic, hcall]
  exact ⟨_, rfl, rfl, h.notAtomic, hrec⟩

theorem Recording.withBits (h : Recording b₀ s cs) (bitset : JavaBitSet) :
    Recording b₀ { s with bitset := bitset } cs := ⟨h.notAtomic, h.records⟩

theorem Recording.withCursor (h : Recording b₀ s cs) (index value : Int) :
    Recording b₀ (s.withCursor index value) cs := ⟨h.notAtomic, h.records⟩

theorem nextAdd_endChange (h : Recording b₀ s []) (lo hi : Int) :
    ∃ s', (s.nextAdd lo hi).bind endChange = .done s' ∧ s'.bitset = s.bitset ∧
      s'.builder.fired = b₀.fired ++ [[⟨lo, hi, some [], [], false⟩]] ∧ Outside s' := by
  obtain ⟨s₁, hadd, hbits, hrec⟩ := nextAdd_spec h lo hi
  rw [hadd, Outcome.bind_done, endChange, report_outside hrec.notAtomic]
  obtain ⟨b', hcall, hfired, hidle⟩ := hrec.records.endChange_single
  rw [hcall]
  exact ⟨_, rfl, hbits, hfired, hrec.notAtomic, hidle⟩

theorem endChange_spec {c : SubChange Int} (h : Recording b₀ s [c]) :
    ∃ s', s.endChange = .done s' ∧ s'.bitset = s.bitset ∧
      s'.builder.fired = b₀.fired ++ [[ListChangeBuilder.finalizeSubChange c]] ∧ Outside s' := by
  obtain ⟨b', hcall, hfired, hidle⟩ := h.records.endChange_single
  unfold endChange
  rw [report_outside h.notAtomic, hcall]
  exact ⟨_, rfl, rfl, hfired, h.notAtomic, hidle⟩

end Report

/-! ## Single rows -/

section Single
variable {s : SelectedIndicesList} {itemCount index : Int}

theorem isSelected_iff : s.isSelected index = true ↔ index ∈ s.bitset.bits := by
  simp [isSelected, JavaBitSet.get]

theorem exists_insert (hindex : 0 ≤ index) (fresh : index ∉ s.bitset.bits) :
    ∃ front back, s.bitset.bits = front ++ back ∧ (s.bitset.set index.toNat).bits = front ++ index :: back ∧
      (∀ z ∈ front, z < index) ∧ ∀ z ∈ back, index < z := by
  have hcast : ((index.toNat : Nat) : Int) = index := Int.toNat_of_nonneg hindex
  have hmem : ∀ z, z ∈ (s.bitset.set index.toNat).bits ↔ z = index ∨ z ∈ s.bitset.bits := by
    intro z
    rw [← hcast]
    exact mem_treeAdd
  obtain ⟨front, back, cut, hfront, hback⟩ :=
    exists_cut (s.bitset.set index.toNat).increasing ((hmem index).mpr (Or.inl rfl))
  refine ⟨front, back, ?_, cut, hfront, hback⟩
  have sorted := (s.bitset.set index.toNat).increasing
  rw [cut] at sorted hmem
  apply eq_of_increasing s.bitset.increasing
  · exact sorted.sublist ((List.sublist_cons_self index back).append_left front)
  · intro z
    have := hmem z
    have hlt := hfront z
    have hgt := hback z
    simp only [List.mem_append, List.mem_cons] at this ⊢
    constructor
    · intro hz
      rcases this.mpr (Or.inr hz) with h | rfl | h
      · exact Or.inl h
      · exact absurd hz fresh
      · exact Or.inr h
    · rintro (h | h)
      · rcases this.mp (Or.inl h) with rfl | hz
        · exact absurd (hlt h) (lt_irrefl _)
        · exact hz
      · rcases this.mp (Or.inr (Or.inr h)) with rfl | hz
        · exact absurd (hgt h) (lt_irrefl _)
        · exact hz

theorem set_fresh (h : Outside s) (valid : isValidIndex itemCount index = true) (fresh : s.isSelected index = false) :
    ∃ s' front back, s.set itemCount index = .done s' ∧ s.bitset.bits = front ++ back ∧
      s'.bitset.bits = front ++ index :: back ∧
      s'.builder.fired = s.builder.fired ++ [[⟨front.length, front.length + 1, some [], [], false⟩]] ∧ Outside s' := by
  have hnonneg : 0 ≤ index := by
    simp [isValidIndex] at valid
    exact valid.1
  have hout : index ∉ s.bitset.bits := by
    rw [← isSelected_iff, fresh]
    simp
  obtain ⟨front, back, hold, hnew, -, -⟩ := exists_insert hnonneg hout
  obtain ⟨s₁, hbegin, hbits, hrec⟩ := beginChange_spec h
  obtain ⟨i, v, hpos⟩ := @positionOf_spec { s₁ with bitset := s.bitset.set index.toNat } index front back hnew
    (fun indicesIndex s => (s.nextAdd indicesIndex (indicesIndex + 1)).bind endChange)
  obtain ⟨s', hdone, hbits', hfired, hout'⟩ := nextAdd_endChange
    ((hrec.withBits (s.bitset.set index.toNat)).withCursor i v) front.length (front.length + 1)
  refine ⟨s', front, back, ?_, hold, ?_, hfired, hout'⟩
  · unfold set
    rw [if_neg (by simp [valid, fresh]), hbegin, Outcome.bind_done, hbits]
    dsimp only
    rw [hpos, hdone]
  · rw [show s'.bitset = s.bitset.set index.toNat from hbits', hnew]

theorem set_replays (h : Outside s) : Replays s (s.set itemCount index).state := by
  by_cases skip : isValidIndex itemCount index = false ∨ s.isSelected index = true
  · unfold set
    rw [if_pos skip]
    exact Or.inl ⟨rfl, rfl⟩
  · push Not at skip
    obtain ⟨s', front, back, hset, hold, hnew, hfired, -⟩ :=
      set_fresh h (by simpa using skip.1 : isValidIndex itemCount index = true) (by simpa using skip.2)
    rw [hset]
    refine Or.inr ⟨_, hfired, ?_⟩
    rw [Outcome.state_done, hnew, hold]
    exact (replay_add_iff 1).mpr ⟨by simp, by simp⟩

theorem position_iff_fullBelow {front back : List Int} (hindex : 0 ≤ index) (cut : s.bitset.bits = front ++ back)
    (hfront : ∀ z ∈ front, z < index) (hback : ∀ z ∈ back, index ≤ z) :
    (front.length : Int) ≤ index ∧ (index = front.length ↔ FullBelow s index) := by
  have sorted : front.Pairwise (· < ·) := by
    have := s.bitset.increasing
    rw [cut] at this
    exact (List.pairwise_append.mp this).1
  have range : ∀ z ∈ front, 0 ≤ z ∧ z < (index.toNat : Int) := by
    intro z hz
    have h1 := s.bitset.nonneg z (by rw [cut]; exact List.mem_append_left _ hz)
    have h2 := hfront z hz
    omega
  obtain ⟨hle, hiff⟩ := length_eq_iff_full sorted range
  refine ⟨by omega, ?_⟩
  constructor
  · intro same j h0 h1
    rw [isSelected_iff, cut]
    exact List.mem_append_left _ (hiff.mp (by omega) j h0 (by omega))
  · intro full
    have hlength : front.length = index.toNat := by
      refine hiff.mpr fun j h0 h1 => ?_
      have hj := full j h0 (by omega)
      rw [isSelected_iff, cut] at hj
      rcases List.mem_append.mp hj with hj | hj
      · exact hj
      · have := hback j hj
        omega
    omega

theorem replays_fired_iff {old new : SelectedIndicesList} {change : Change Int}
    (hfired : new.builder.fired = old.builder.fired ++ [change]) :
    Replays old new ↔ Change.replay new.bitset.bits change old.bitset.bits = some new.bitset.bits := by
  unfold Replays
  rw [hfired]
  constructor
  · rintro (⟨hnothing, -⟩ | ⟨change', hchange, hreplay⟩)
    · simp at hnothing
    · have same : change = change' := by simpa using hchange
      rw [same]
      exact hreplay
  · intro hreplay
    exact Or.inr ⟨change, rfl, hreplay⟩

theorem clear_replays_iff (h : Outside s) :
    Replays s (s.clear index).state ↔ (s.isSelected index = true → FullBelow s index) := by
  unfold clear
  by_cases negative : index < 0
  · rw [if_pos negative]
    refine iff_of_true (Or.inl ⟨rfl, rfl⟩) fun _ j h0 h1 => ?_
    omega
  rw [if_neg negative]
  by_cases absent : s.bitset.get index = false
  · rw [if_pos absent]
    refine iff_of_true (Or.inl ⟨rfl, rfl⟩) fun selected => ?_
    rw [show s.isSelected index = s.bitset.get index from rfl, absent] at selected
    cases selected
  rw [if_neg absent]
  have selected : s.isSelected index = true := (Bool.not_eq_false _).mp absent
  obtain ⟨front, back, cut, hfront, hback⟩ := exists_cut s.bitset.increasing (isSelected_iff.mp selected)
  have hnew : (s.bitset.clear index).bits = front ++ back := by
    show s.bitset.bits.filter (· ≠ index) = _
    rw [cut, List.filter_append, List.filter_cons_of_neg (by simp)]
    rw [List.filter_eq_self.mpr fun z hz => by have := hfront z hz; simp; omega]
    rw [List.filter_eq_self.mpr fun z hz => by have := hback z hz; simp; omega]
  obtain ⟨s₁, hbegin, hbits, hrec⟩ := beginChange_spec h
  obtain ⟨s₂, hremove, hbits₂, hrec₂⟩ := nextRemove_spec (hrec.withBits (s.bitset.clear index)) index index
  obtain ⟨s', hend, hbits', hfired, -⟩ := endChange_spec hrec₂
  rw [hbegin, Outcome.bind_done, hbits]
  dsimp only
  rw [hremove, Outcome.bind_done, hend, Outcome.state_done, replays_fired_iff hfired, hbits', hbits₂, hnew, cut]
  have unique : index ∉ front ++ back := by
    intro hmem
    rcases List.mem_append.mp hmem with hmem | hmem
    · exact absurd (hfront index hmem) (lt_irrefl _)
    · exact absurd (hback index hmem) (lt_irrefl _)
  have hposition := (@position_iff_fullBelow s index front (index :: back) (by omega) cut hfront (by
    intro z hz
    rcases List.mem_cons.mp hz with rfl | hz
    · exact le_rfl
    · exact (hback z hz).le)).2
  rw [show ListChangeBuilder.finalizeSubChange (⟨index, index, some [index], [], false⟩ : SubChange Int)
    = ⟨index, index, some [index], [], false⟩ from rfl, replay_remove_iff unique, hposition]
  exact ⟨fun full _ => full, fun full => full selected⟩

theorem run_nextRemove {b₀ b : ListChangeBuilder Int} (idx : Int) (removed taken : List Int)
    (h : Records b₀ b [⟨idx, idx, some taken, [], false⟩]) :
    ∃ b', Outcome.run (fun e b => ListChangeBuilder.nextRemove idx e b) removed b = .done b' ∧
      Records b₀ b' [⟨idx, idx, some (taken ++ removed), [], false⟩] := by
  induction removed generalizing b taken with
  | nil => exact ⟨b, rfl, by simpa using h⟩
  | cons x removed ih =>
    obtain ⟨b₁, hremove, h₁⟩ := h.nextRemove (recordRemove_next idx x taken)
    obtain ⟨b', hrun, h'⟩ := ih (taken ++ [x]) h₁
    refine ⟨b', ?_, by simpa using h'⟩
    rw [Outcome.run, hremove, Outcome.bind_done, hrun]

theorem nextRemoveAll_spec {b₀ : ListChangeBuilder Int} (h : Recording b₀ s []) (x : Int) (rest : List Int) :
    ∃ s', s.nextRemoveAll 0 (x :: rest) = .done s' ∧ s'.bitset = s.bitset ∧
      Recording b₀ s' [⟨0, 0, some (x :: rest), [], false⟩] := by
  obtain ⟨b₁, hremove, h₁⟩ := h.records.nextRemove (recordRemove_first 0 x)
  obtain ⟨b₂, hrun, h₂⟩ := run_nextRemove 0 rest [x] h₁
  unfold SelectedIndicesList.nextRemoveAll ListChangeBuilder.nextRemoveAll
  rw [report_outside h.notAtomic, if_neg (by rw [h.records.lock]; decide), Outcome.run, hremove, Outcome.bind_done,
    hrun]
  exact ⟨_, rfl, rfl, h.notAtomic, h₂⟩

theorem nextRemoveAll_nil {b₀ : ListChangeBuilder Int} (h : Recording b₀ s []) :
    s.nextRemoveAll 0 [] = .done s := by
  unfold SelectedIndicesList.nextRemoveAll ListChangeBuilder.nextRemoveAll
  rw [report_outside h.notAtomic, if_neg (by rw [h.records.lock]; decide)]
  rfl

theorem clearAll_replays (h : Outside s) : Replays s s.clearAll.state := by
  unfold clearAll
  obtain ⟨s₁, hbegin, hbits, hrec⟩ := beginChange_spec h
  have hrec' := hrec.withBits s.bitset.clearAll
  rw [hbegin, Outcome.bind_done, hbits]
  dsimp only
  cases hold : s.bitset.bits with
  | nil =>
    obtain ⟨b', hend, hfired, -⟩ := hrec'.records.endChange_empty
    rw [nextRemoveAll_nil hrec', Outcome.bind_done, endChange, report_outside hrec'.notAtomic, hend]
    exact Or.inl ⟨hfired, hold.symm⟩
  | cons x rest =>
    obtain ⟨s₂, hremove, hbits₂, hrec₂⟩ := nextRemoveAll_spec hrec' x rest
    obtain ⟨s', hend, hbits', hfired, -⟩ := endChange_spec hrec₂
    rw [hremove, Outcome.bind_done, hend, Outcome.state_done, replays_fired_iff hfired, hbits', hbits₂, hold]
    have happly := Edit.apply_parts ([] : List Int) [] [] (x :: rest) 0 (by simp) (by simp)
    rw [Change.replay_plain _ (by simp [SubChange.Plain, ListChangeBuilder.finalizeSubChange])]
    simpa [replay, SubChange.edit, SubChange.getRemoved, ListChangeBuilder.finalizeSubChange,
      JavaBitSet.clearAll] using happly

end Single

/-! ## Bulk selection -/

section Bulk
variable {s : SelectedIndicesList} {itemCount : Int}

theorem report_atomic (h : s.isAtomic = true)
    (call : ListChangeBuilder Int → Outcome Exn (ListChangeBuilder Int)) : s.report call = .done s := by
  rw [report, if_pos h]

theorem clear_atomic (h : s.isAtomic = true) {index : Int} (hindex : 0 ≤ index) :
    ∃ s', s.clear index = .done s' ∧ s'.builder = s.builder ∧ s'.atomicityCount = s.atomicityCount ∧
      s'.bitset.words = s.bitset.words ∧ ∀ z, z ∈ s'.bitset.bits ↔ z ∈ s.bitset.bits ∧ z ≠ index := by
  unfold clear
  rw [if_neg (by omega)]
  by_cases selected : index ∈ s.bitset.bits
  · rw [if_neg (by simp [JavaBitSet.get, selected]), beginChange, report_atomic h, Outcome.bind_done]
    dsimp only
    have h' : ({ s with bitset := s.bitset.clear index } : SelectedIndicesList).isAtomic = true := h
    refine ⟨{ s with bitset := s.bitset.clear index }, ?_, rfl, rfl, rfl, ?_⟩
    · unfold nextRemove
      rw [report_atomic h', Outcome.bind_done, endChange, report_atomic h']
    · intro z
      simp [JavaBitSet.clear]
  · rw [if_pos (by simp [JavaBitSet.get, selected])]
    refine ⟨s, rfl, rfl, rfl, rfl, fun z => ⟨fun hz => ⟨hz, ?_⟩, And.left⟩⟩
    intro same
    exact selected (same ▸ hz)

theorem clearAll_atomic (h : s.isAtomic = true) : s.clearAll = .done { s with bitset := s.bitset.clearAll } := by
  have atomic' : ({ s with bitset := s.bitset.clearAll } : SelectedIndicesList).isAtomic = true := h
  unfold clearAll
  rw [beginChange, report_atomic h, Outcome.bind_done]
  dsimp only
  rw [nextRemoveAll, report_atomic atomic', Outcome.bind_done, endChange, report_atomic atomic']

theorem set_atomic (h : s.isAtomic = true) {index : Int} (valid : isValidIndex itemCount index = true) :
    ∃ s', s.set itemCount index = .done s' ∧ s'.builder = s.builder ∧ s'.atomicityCount = s.atomicityCount ∧
      s'.bitset.words = JavaBitSet.expandTo s.bitset.words index.toNat ∧
      ∀ z, z ∈ s'.bitset.bits ↔ z ∈ s.bitset.bits ∨ z = index := by
  unfold set
  by_cases selected : s.isSelected index = true
  · have hmem := isSelected_iff.mp selected
    have hroom : index.toNat / 64 < s.bitset.words := by
      have := s.bitset.bounded index hmem
      have := s.bitset.nonneg index hmem
      omega
    rw [if_pos (Or.inr selected)]
    refine ⟨s, rfl, rfl, rfl, ?_, fun z => ⟨Or.inl, ?_⟩⟩
    · rw [JavaBitSet.expandTo, if_pos hroom]
    · rintro (hz | rfl)
      · exact hz
      · exact hmem
  · have hnonneg : 0 ≤ index := by
      simp [isValidIndex] at valid
      exact valid.1
    obtain ⟨front, back, hold, hnew, -, -⟩ := exists_insert hnonneg (mt isSelected_iff.mpr selected)
    rw [if_neg (by simp [valid, selected]), beginChange, report_atomic h, Outcome.bind_done]
    dsimp only
    obtain ⟨i, v, hpos⟩ := @positionOf_spec { s with bitset := s.bitset.set index.toNat } index front back hnew
      (fun indicesIndex s => (s.nextAdd indicesIndex (indicesIndex + 1)).bind endChange)
    have h' : (SelectedIndicesList.withCursor { s with bitset := s.bitset.set index.toNat } i v).isAtomic = true := h
    rw [hpos]
    refine ⟨SelectedIndicesList.withCursor { s with bitset := s.bitset.set index.toNat } i v, ?_, rfl, rfl, rfl, ?_⟩
    · unfold SelectedIndicesList.nextAdd
      rw [report_atomic h', Outcome.bind_done, endChange, report_atomic h']
    · intro z
      show z ∈ (s.bitset.set index.toNat).bits ↔ _
      rw [hnew, hold]
      simp only [List.mem_append, List.mem_cons]
      tauto

theorem run_set_atomic (rows : List Int) (h : s.isAtomic = true) (valid : ∀ z ∈ rows, isValidIndex itemCount z = true) :
    ∃ s', Outcome.run (set itemCount) rows s = .done s' ∧ s'.builder = s.builder ∧
      s'.atomicityCount = s.atomicityCount ∧ ∀ z, z ∈ s'.bitset.bits ↔ z ∈ s.bitset.bits ∨ z ∈ rows := by
  induction rows generalizing s with
  | nil => exact ⟨s, rfl, rfl, rfl, by simp⟩
  | cons x rows ih =>
    obtain ⟨s₁, hset, hbuilder, hcount, -, hmem⟩ := set_atomic h (valid x (by simp))
    have h₁ : s₁.isAtomic = true := by
      unfold isAtomic at h ⊢
      rw [hcount, h]
    obtain ⟨s', hrun, hbuilder', hcount', hmem'⟩ := ih h₁ fun z hz => valid z (by simp [hz])
    refine ⟨s', ?_, hbuilder'.trans hbuilder, hcount'.trans hcount, ?_⟩
    · rw [Outcome.run, hset, Outcome.bind_done, hrun]
    · intro z
      rw [hmem', hmem, List.mem_cons]
      tauto

theorem mem_sortedNewIndices {indices : List Int} {z : Int} :
    z ∈ s.sortedNewIndices itemCount indices ↔
      z ∈ indices ∧ isValidIndex itemCount z = true ∧ z ∉ s.bitset.bits := by
  unfold sortedNewIndices
  rw [(treeSet_spec _).2, List.mem_filter, Bool.and_eq_true, ← isSelected_iff, Bool.not_eq_true', Bool.not_eq_true]

theorem run_sortedNewIndices (h : Outside s) (indices : List Int) :
    ∃ s', (Outcome.run (set itemCount) (s.sortedNewIndices itemCount indices) s.startAtomic) = .done s' ∧
      Outside s'.stopAtomic ∧ s'.builder = s.builder ∧
      ∀ z, z ∈ s'.bitset.bits ↔ z ∈ s.bitset.bits ∨ z ∈ s.sortedNewIndices itemCount indices := by
  obtain ⟨s', hrun, hbuilder, hcount, hmem⟩ := @run_set_atomic s.startAtomic itemCount
    (s.sortedNewIndices itemCount indices) (by simp [isAtomic, startAtomic])
    (fun z hz => (mem_sortedNewIndices.mp hz).2.1)
  refine ⟨s', hrun, ⟨?_, ?_⟩, hbuilder, hmem⟩
  · show s'.atomicityCount - 1 = 0
    rw [hcount]
    show s.atomicityCount + 1 - 1 = 0
    rw [h.notAtomic]
  · show ListChangeBuilder.Idle s'.builder
    rw [hbuilder]
    exact h.idle

theorem groupLoop_spec {b₀ : ListChangeBuilder Int} {size : Nat} {a : Int} (rest : List Int) (hrest : rest ≠ [])
    (pos : Nat) (counted : pos + rest.length = size) (start value : Int) (ha : a ≤ start)
    (cs : List (SubChange Int)) (hcs : start = a ∧ cs = [] ∨ a < start ∧ cs = [⟨a, start, some [], [], false⟩])
    (h : Recording b₀ s cs) :
    ∃ s' stop, groupLoop size rest pos start (a + pos) value s = .done s' ∧ s'.bitset = s.bitset ∧ a ≤ stop ∧
      Recording b₀ s' [⟨a, stop, some [], [], false⟩] ∧
      (stop = a + size ↔ lastAdjacent (value :: rest) = false ∨ start = a ∧ contiguous (value :: rest) = true) := by
  -- a further range is joined to the ones recorded so far
  have hadd : ∀ hi, ListChangeBuilder.recordAdd start hi cs = [⟨a, hi, some [], [], false⟩] := by
    intro hi
    rcases hcs with ⟨rfl, rfl⟩ | ⟨-, rfl⟩
    · exact recordAdd_first start hi
    · exact recordAdd_next a start hi
  induction rest generalizing pos start value cs s with
  | nil => exact absurd rfl hrest
  | cons next rest ih =>
    have hstop : a + ((pos + 1 : Nat) : Int) = a + (pos : Int) + 1 := by push_cast; omega
    unfold groupLoop
    dsimp only
    by_cases gap : value ≠ next - 1
    · -- the range up to `next` is reported
      obtain ⟨s₁, hcall, hbits, hrec⟩ := nextAdd_spec h start (a + pos + 1)
      rw [hadd] at hrec
      rw [if_pos gap, hcall, Outcome.bind_done]
      cases rest with
      | nil =>
        refine ⟨s₁, a + pos + 1, rfl, hbits, by omega, hrec, ?_⟩
        simp only [List.length_singleton] at counted
        refine iff_of_true (by omega) (Or.inl ?_)
        simpa [lastAdjacent] using gap
      | cons after rest =>
        obtain ⟨s', stop, hloop, hbits', hle, hrec', hiff⟩ := ih (by simp) (pos + 1) (by simp at counted ⊢; omega)
          (a + pos + 1) next (by omega) _ (Or.inr ⟨by omega, rfl⟩) hrec (fun hi => recordAdd_next a _ hi)
        rw [hstop] at hloop
        refine ⟨s', stop, hloop, hbits'.trans hbits, hle, hrec', ?_⟩
        rw [hiff]
        have hstart : ¬ a + (pos : Int) + 1 = a := by omega
        simp [lastAdjacent, contiguous, gap, hstart]
    · rw [if_neg gap]
      have adjacent : value = next - 1 := by omega
      cases rest with
      | nil =>
        simp only [List.length_singleton] at counted
        obtain ⟨s₁, hcall, hbits, hrec⟩ := nextAdd_spec h start (start + (pos + 1 : Nat))
        rw [hadd] at hrec
        rw [if_pos counted, hcall, Outcome.bind_done]
        refine ⟨s₁, start + (pos + 1 : Nat), rfl, hbits, by omega, hrec, ?_⟩
        simp only [lastAdjacent, contiguous, adjacent, decide_true, Bool.and_true, and_true, Bool.true_eq_false,
          false_or]
        omega
      | cons after rest =>
        rw [if_neg (by simp at counted; omega)]
        obtain ⟨s', stop, hloop, hbits', hle, hrec', hiff⟩ := ih (by simp) (pos + 1) (by simp at counted ⊢; omega)
          start next ha cs hcs h hadd
        rw [hstop] at hloop
        refine ⟨s', stop, hloop, hbits', hle, hrec', ?_⟩
        rw [hiff]
        simp [lastAdjacent, contiguous, adjacent]

theorem block_iff (m : Nat) {rows old new : List Int} (hrows : rows.Pairwise (· < ·)) (hold : old.Pairwise (· < ·))
    (hnew : new.Pairwise (· < ·)) (fresh : ∀ z ∈ rows, z ∉ old) (hmem : ∀ z, z ∈ new ↔ z ∈ old ∨ z ∈ rows) :
    (m ≤ new.length ∧ new.drop m = old) ↔ m = rows.length ∧ ∀ j ∈ old, ∀ k ∈ rows, k < j := by
  constructor
  · rintro ⟨fits, hdrop⟩
    have cut : new = new.take m ++ old := by rw [← hdrop, List.take_append_drop]
    have hsorted := hnew
    rw [cut] at hsorted
    obtain ⟨hfront, -, hcross⟩ := List.pairwise_append.mp hsorted
    have hfrontRows : new.take m = rows := by
      apply eq_of_increasing hfront hrows
      intro z
      have := hmem z
      rw [cut] at this
      constructor
      · intro hz
        rcases this.mp (List.mem_append_left _ hz) with hz' | hz'
        · exact absurd (hcross z hz z hz') (lt_irrefl _)
        · exact hz'
      · intro hz
        rcases List.mem_append.mp (this.mpr (Or.inr hz)) with hz' | hz'
        · exact hz'
        · exact absurd hz' (fresh z hz)
    refine ⟨?_, ?_⟩
    · rw [← hfrontRows, List.length_take, Nat.min_eq_left fits]
    · intro j hj k hk
      exact hcross k (by rw [hfrontRows]; exact hk) j hj
  · rintro ⟨rfl, hbetween⟩
    have cut : new = rows ++ old := by
      apply eq_of_increasing hnew
      · exact List.pairwise_append.mpr ⟨hrows, hold, fun k hk j hj => hbetween j hj k hk⟩
      · intro z
        rw [hmem, List.mem_append]
        exact or_comm
    rw [cut]
    exact ⟨by simp, by simp⟩

theorem cut_below {first : Int} {rest old new : List Int} (hrows : (first :: rest).Pairwise (· < ·))
    (hold : old.Pairwise (· < ·)) (hnew : new.Pairwise (· < ·)) (fresh : first ∉ old)
    (hmem : ∀ z, z ∈ new ↔ z ∈ old ∨ z ∈ first :: rest) :
    ∃ front back old', new = front ++ first :: back ∧ old = front ++ old' ∧ (∀ z ∈ front, z < first) ∧
      (∀ z ∈ old', first < z) ∧ ∀ z, z ∈ first :: back ↔ z ∈ old' ∨ z ∈ first :: rest := by
  obtain ⟨front, back, cut, hfront, hback⟩ := exists_cut hnew ((hmem first).mpr (by simp))
  have hlater := (List.pairwise_cons.mp hrows).1
  have hfrontOld : ∀ z, z ∈ front ↔ z ∈ old ∧ z < first := by
    intro z
    constructor
    · intro hz
      refine ⟨?_, hfront z hz⟩
      rcases (hmem z).mp (by rw [cut]; exact List.mem_append_left _ hz) with h | h
      · exact h
      · have h1 := hfront z hz
        rcases List.mem_cons.mp h with rfl | h
        · omega
        · have := hlater z h
          omega
    · rintro ⟨hz, hlt⟩
      have hnew' := (hmem z).mpr (Or.inl hz)
      rw [cut] at hnew'
      rcases List.mem_append.mp hnew' with h | h
      · exact h
      · rcases List.mem_cons.mp h with rfl | h
        · omega
        · have := hback z h
          omega
  refine ⟨front, back, old.filter (fun z => decide (first < z)), cut, ?_, hfront, ?_, ?_⟩
  · apply eq_of_increasing hold
    · have sorted := hnew
      rw [cut] at sorted
      refine List.pairwise_append.mpr ⟨(List.pairwise_append.mp sorted).1, hold.filter _, ?_⟩
      intro x hx y hy
      have h1 := hfront x hx
      have h2 : first < y := by simpa using (List.mem_filter.mp hy).2
      omega
    · intro z
      rw [List.mem_append, hfrontOld, List.mem_filter, decide_eq_true_eq]
      constructor
      · intro hz
        have : z ≠ first := fun same => fresh (same ▸ hz)
        rcases lt_or_gt_of_ne this with hlt | hgt
        · exact Or.inl ⟨hz, hlt⟩
        · exact Or.inr ⟨hz, hgt⟩
      · rintro (⟨hz, -⟩ | ⟨hz, -⟩) <;> exact hz
  · intro z hz
    simpa using (List.mem_filter.mp hz).2
  · intro z
    rw [List.mem_filter, decide_eq_true_eq]
    have hz := hmem z
    rw [cut, List.mem_append] at hz
    constructor
    · intro h
      rcases hz.mp (Or.inr h) with h' | h'
      · rcases List.mem_cons.mp h with rfl | h
        · exact absurd h' fresh
        · exact Or.inl ⟨h', hback z h⟩
      · exact Or.inr h'
    · intro h
      have hnotFront : first ≤ z := by
        rcases h with ⟨-, h⟩ | h
        · omega
        · rcases List.mem_cons.mp h with rfl | h
          · exact le_rfl
          · exact (hlater z h).le
      rcases hz.mpr (h.imp And.left id) with h' | h'
      · have := hfront z h'
        omega
      · exact h'

theorem bulk_single {new : SelectedIndicesList} {only : Int} (hnonneg : 0 ≤ only)
    (fresh : only ∉ s.bitset.bits) (hmem : ∀ z, z ∈ new.bitset.bits ↔ z ∈ s.bitset.bits ∨ z ∈ [only])
    (hfired : new.builder.fired = s.builder.fired ++ [[⟨only, only + 1, some [], [], false⟩]]) :
    Replays s new ↔ FullBelow s only := by
  obtain ⟨front, back, old, cut, hold, hfront, hlater, hback⟩ := cut_below (List.pairwise_singleton _ only)
    s.bitset.increasing new.bitset.increasing fresh hmem
  have sorted := new.bitset.increasing
  have sortedOld := s.bitset.increasing
  rw [cut] at sorted
  rw [hold] at sortedOld
  have hsame : only :: back = only :: old := by
    apply eq_of_increasing (List.pairwise_append.mp sorted).2.1
    · exact List.pairwise_cons.mpr ⟨hlater, (List.pairwise_append.mp sortedOld).2.1⟩
    · intro z
      rw [hback, List.mem_singleton, List.mem_cons]
      exact or_comm
  have hposition := position_iff_fullBelow hnonneg hold hfront fun z hz => (hlater z hz).le
  rw [replays_fired_iff hfired, cut, hsame, hold, ← hposition.2]
  refine replay_insert_iff hposition.1 fun hmem => ?_
  exact absurd (hlater only hmem) (lt_irrefl _)

theorem bulk_several {new : SelectedIndicesList} {first : Int} {rest : List Int} {stop : Int} {front back old : List Int}
    (hrows : (first :: rest).Pairwise (· < ·)) (fresh : ∀ z ∈ first :: rest, z ∉ s.bitset.bits)
    (cut : new.bitset.bits = front ++ first :: back) (hold : s.bitset.bits = front ++ old)
    (hfront : ∀ z ∈ front, z < first) (hlater : ∀ z ∈ old, first < z)
    (hback : ∀ z, z ∈ first :: back ↔ z ∈ old ∨ z ∈ first :: rest) (hstop : (front.length : Int) ≤ stop)
    (hfired : new.builder.fired = s.builder.fired ++ [[⟨front.length, stop, some [], [], false⟩]]) :
    Replays s new ↔ NothingBetween s first rest ∧ stop = front.length + (first :: rest).length := by
  obtain ⟨m, rfl⟩ : ∃ m : Nat, stop = front.length + m := ⟨(stop - front.length).toNat, by omega⟩
  have sorted := new.bitset.increasing
  have sortedOld := s.bitset.increasing
  rw [cut] at sorted
  rw [hold] at sortedOld fresh
  have hblock := block_iff m hrows (List.pairwise_append.mp sortedOld).2.1 (List.pairwise_append.mp sorted).2.1
    (fun z hz hz' => fresh z hz (List.mem_append_right _ hz')) hback
  rw [replays_fired_iff hfired, cut, hold, replay_add_iff, hblock]
  have hbetween : (∀ j ∈ old, ∀ k ∈ first :: rest, k < j) ↔ NothingBetween s first rest := by
    constructor
    · intro h j hj
      rw [isSelected_iff, hold] at hj
      rcases List.mem_append.mp hj with hj | hj
      · exact Or.inl (hfront j hj)
      · exact Or.inr fun k hk => h j hj k (by simp [hk])
    · intro h j hj k hk
      have hafter := hlater j hj
      rcases List.mem_cons.mp hk with rfl | hk
      · exact hafter
      · rcases h j (isSelected_iff.mpr (by rw [hold]; exact List.mem_append_right _ hj)) with hlt | hall
        · omega
        · exact hall k hk
  rw [hbetween]
  constructor
  · rintro ⟨hm, hnothing⟩
    exact ⟨hnothing, by rw [hm]⟩
  · rintro ⟨hnothing, hm⟩
    exact ⟨by omega, hnothing⟩

theorem setAll_replays_iff (h : Outside s) (index : Int) {indices : List Int} (hindices : indices ≠ []) :
    Replays s (s.setAll itemCount index indices).state ↔
      BulkAligned s (s.sortedNewIndices itemCount (index :: indices)) := by
  obtain ⟨s₁, hrun, hout, hbuilder, hmem⟩ := @run_sortedNewIndices s itemCount h (index :: indices)
  have fresh : ∀ z ∈ s.sortedNewIndices itemCount (index :: indices), z ∉ s.bitset.bits :=
    fun z hz => (mem_sortedNewIndices.mp hz).2.2
  have hsorted : (s.sortedNewIndices itemCount (index :: indices)).Pairwise (· < ·) := (treeSet_spec _).1
  have hnonneg : ∀ z ∈ s.sortedNewIndices itemCount (index :: indices), 0 ≤ z := by
    intro z hz
    have valid := (mem_sortedNewIndices.mp hz).2.1
    simp [isValidIndex] at valid
    exact valid.1
  have hstop : s₁.stopAtomic.bitset = s₁.bitset := rfl
  unfold setAll
  rw [if_neg hindices]
  dsimp only
  rw [hrun, Outcome.bind_done]
  generalize s.sortedNewIndices itemCount (index :: indices) = sorted at *
  match sorted with
  | [] =>
    refine iff_of_true (Or.inl ⟨congrArg _ hbuilder, ?_⟩) trivial
    refine eq_of_increasing s₁.bitset.increasing s.bitset.increasing fun z => ?_
    show z ∈ s₁.bitset.bits ↔ z ∈ s.bitset.bits
    simpa using hmem z
  | [only] =>
    obtain ⟨s₂, hbegin, hbits₂, hrec₂⟩ := beginChange_spec hout
    obtain ⟨s₃, hend, hbits₃, hfired, -⟩ := nextAdd_endChange hrec₂ only (only + 1)
    dsimp only
    rw [hbegin, Outcome.bind_done, hend]
    refine bulk_single (hnonneg only (by simp)) (fresh only (by simp)) ?_ ?_
    · rw [Outcome.state_done, hbits₃, hbits₂]
      exact hmem
    · rw [Outcome.state_done, hfired, show s₁.stopAtomic.builder = s.builder from hbuilder]
  | first :: second :: rest =>
    obtain ⟨front, back, old, cut, hold, hfront, hlater, hback⟩ := cut_below hsorted s.bitset.increasing
      s₁.bitset.increasing (fresh first (by simp)) hmem
    obtain ⟨s₂, hbegin, hbits₂, hrec₂⟩ := beginChange_spec hout
    dsimp only
    rw [hbegin, Outcome.bind_done]
    obtain ⟨i, v, hpos⟩ := @positionOf_spec s₂ first front back (by rw [hbits₂]; exact cut)
      (fun start s => (groupLoop (first :: second :: rest).length (second :: rest) 1 start (start + 1) first s).bind
        endChange)
    rw [hpos]
    obtain ⟨s₃, stop, hloop, hbits₃, hle, hrec₃, hiff⟩ := @groupLoop_spec (s₂.withCursor i v) s₁.stopAtomic.builder
      (first :: second :: rest).length front.length (second :: rest) (by simp) 1 (by simp; omega) front.length first
      le_rfl [] (Or.inl ⟨rfl, rfl⟩) (hrec₂.withCursor i v)
    obtain ⟨s', hend, hbits', hfired, -⟩ := endChange_spec hrec₃
    rw [show ((1 : Nat) : Int) = 1 from rfl] at hloop
    rw [hloop, Outcome.bind_done, hend]
    have hbits : s'.bitset = s₁.bitset := by
      rw [hbits', hbits₃]
      exact hbits₂
    rw [Outcome.state_done, bulk_several hsorted fresh (by rw [hbits]; exact cut) hold hfront hlater hback hle (by
      rw [hfired, show s₁.stopAtomic.builder = s.builder from hbuilder]
      rfl), hiff]
    simp [BulkAligned]

end Bulk

/-! ## The contract -/

/-- For every item count, every selection and every call outside an atomic
block, the change fired turns the old list of selected indices into the new one
exactly when the call is aligned with the selection. -/
theorem call_replays_iff (itemCount : Int) (call : Call) (s : SelectedIndicesList) (h : Outside s) :
    Replays s (perform itemCount call s).state ↔ Aligned itemCount s call := by
  cases call with
  | set index => exact iff_of_true (set_replays h) trivial
  | setAll index indices =>
      cases indices with
      | nil =>
          refine iff_of_true ?_ trivial
          show Replays s (s.setAll itemCount index []).state
          rw [setAll, if_pos rfl]
          exact set_replays h
      | cons next indices => exact setAll_replays_iff h index (by simp)
  | clear index => exact clear_replays_iff h
  | clearAll => exact iff_of_true (clearAll_replays h) trivial

def zeroOneThree : SelectedIndicesList := (Outcome.run (set 4) [0, 1, 3] create).state

/-- Row 1 of the rows 0, 1 and 3 is at position 1. -/
theorem clear_replays_row_one :
    Outside zeroOneThree ∧ zeroOneThree.bitset.bits = [0, 1, 3] ∧
      Replays zeroOneThree (perform 4 (.clear 1) zeroOneThree).state := by
  have outside : Outside zeroOneThree :=
    ⟨by decide +kernel, by decide +kernel, by decide +kernel, by decide +kernel, by decide +kernel⟩
  refine ⟨outside, by decide +kernel, (call_replays_iff 4 (.clear 1) zeroOneThree outside).mpr fun _ j h0 h1 => ?_⟩
  have hj : j = 0 := by omega
  rw [hj]
  decide +kernel

/-- Row 3 of the rows 0, 1 and 3 is at position 2, but its removal is reported at
position 3; and a row selected by `set(2, 2)` is reported at position 2 of an
empty list. -/
theorem row_reported_as_position :
    (Outside zeroOneThree ∧
      (perform 4 (.clear 3) zeroOneThree).state.builder.fired
        = zeroOneThree.builder.fired ++ [[⟨3, 3, some [3], [], false⟩]] ∧
      Change.replay [0, 1] [⟨3, 3, some [3], [], false⟩] [0, 1, 3] = none ∧
      ¬ Replays zeroOneThree (perform 4 (.clear 3) zeroOneThree).state) ∧
    (Outside create ∧
      (perform 4 (.setAll 2 [2]) create).state.builder.fired = [[⟨2, 3, some [], [], false⟩]] ∧
      Change.replay [2] [⟨2, 3, some [], [], false⟩] [] = none ∧
      ¬ Replays create (perform 4 (.setAll 2 [2]) create).state) := by
  have outside : Outside zeroOneThree :=
    ⟨by decide +kernel, by decide +kernel, by decide +kernel, by decide +kernel, by decide +kernel⟩
  have fresh : Outside create := ⟨rfl, ListChangeBuilder.idle_new⟩
  have notFull : ¬ FullBelow zeroOneThree 3 := by
    intro full
    exact absurd (full 2 (by omega) (by omega)) (by decide +kernel)
  have notFull' : ¬ FullBelow create 2 := by
    intro full
    exact absurd (full 0 (by omega) (by omega)) (by decide +kernel)
  refine ⟨⟨outside, by decide +kernel, by decide +kernel, ?_⟩, fresh, by decide +kernel, by decide +kernel, ?_⟩
  · intro replays
    exact notFull ((clear_replays_iff outside).mp replays (by decide +kernel))
  · intro replays
    have aligned := (setAll_replays_iff fresh 2 (by simp)).mp replays
    rw [show create.sortedNewIndices 4 [2, 2] = [2] by decide +kernel] at aligned
    exact notFull' aligned

end SelectedIndicesList
end OpenJfx.Controls
