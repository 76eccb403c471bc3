import Mathlib
import OpenJfx.Controls.SelectedIndicesContract

/-! # The calls of the selected indices

What each call leaves in the set of the selected rows, inside and outside of an
atomic block.  The builder is idle between the calls; none of them throws. -/
set_option autoImplicit false
namespace OpenJfx.Controls

open OpenJfx.Lib OpenJfx.Collections

namespace SelectedIndicesList

/-- A call that returns, with the rows `rows` selected afterwards. -/
def Leaves (s : SelectedIndicesList) (rows : Int → Prop) (o : Outcome Exn SelectedIndicesList) : Prop :=
  ∃ s', o = .done s' ∧ ListChangeBuilder.Idle s'.builder ∧ s'.atomicityCount = s.atomicityCount ∧
    ∀ z, z ∈ s'.bitset.bits ↔ rows z

section Calls
variable {s : SelectedIndicesList} {itemCount index : Int}

theorem atomic_or_outside (h : ListChangeBuilder.Idle s.builder) : s.isAtomic = true ∨ Outside s := by
  by_cases atomic : s.isAtomic = true
  · exact Or.inl atomic
  · refine Or.inr ⟨?_, h⟩
    simpa [isAtomic] using atomic

theorem Outside.leaves {s' : SelectedIndicesList} {o : Outcome Exn SelectedIndicesList} {rows : Int → Prop}
    (before : Outside s) (after : Outside s') (done : o = .done s') (hmem : ∀ z, z ∈ s'.bitset.bits ↔ rows z) :
    Leaves s rows o :=
  ⟨s', done, after.idle, after.notAtomic.trans before.notAtomic.symm, hmem⟩

theorem set_leaves (h : ListChangeBuilder.Idle s.builder) (hindex : 0 ≤ index) (hitems : index < itemCount) :
    Leaves s (fun z => z ∈ s.bitset.bits ∨ z = index) (s.set itemCount index) := by
  have valid : isValidIndex itemCount index = true := by simp [isValidIndex, hindex, hitems]
  rcases atomic_or_outside h with atomic | outside
  · obtain ⟨s', hset, hbuilder, hcount, -, hmem⟩ := set_atomic atomic valid
    exact ⟨s', hset, hbuilder ▸ h, hcount, hmem⟩
  · by_cases selected : s.isSelected index = true
    · have hset : s.set itemCount index = .done s := by
        unfold set
        rw [if_pos (Or.inr selected)]
      refine outside.leaves outside hset fun z => ⟨Or.inl, ?_⟩
      rintro (hz | rfl)
      · exact hz
      · exact isSelected_iff.mp selected
    · obtain ⟨s', front, back, hset, hold, hnew, -, hout⟩ := set_fresh outside valid (by simpa using selected)
      refine outside.leaves hout hset fun z => ?_
      rw [hold, hnew]
      simp only [List.mem_append, List.mem_cons]
      tauto

theorem clear_leaves (h : ListChangeBuilder.Idle s.builder) (hindex : 0 ≤ index) :
    Leaves s (fun z => z ∈ s.bitset.bits ∧ z ≠ index) (s.clear index) := by
  rcases atomic_or_outside h with atomic | outside
  · obtain ⟨s', hclear, hbuilder, hcount, -, hmem⟩ := clear_atomic atomic hindex
    exact ⟨s', hclear, hbuilder ▸ h, hcount, hmem⟩
  · by_cases selected : index ∈ s.bitset.bits
    · obtain ⟨s₁, hbegin, hbits, hrec⟩ := beginChange_spec outside
      obtain ⟨s₂, hremove, hbits₂, hrec₂⟩ := nextRemove_spec (hrec.withBits (s.bitset.clear index)) index index
      obtain ⟨s', hend, hbits', -, hout⟩ := endChange_spec hrec₂
      refine outside.leaves hout ?_ fun z => ?_
      · unfold clear
        rw [if_neg (by omega), if_neg (by simp [JavaBitSet.get, selected]), hbegin, Outcome.bind_done, hbits]
        dsimp only
        rw [hremove, Outcome.bind_done, hend]
      · rw [hbits', hbits₂]
        simp [JavaBitSet.clear]
    · have hclear : s.clear index = .done s := by
        unfold clear
        rw [if_neg (by omega), if_pos (by simp [JavaBitSet.get, selected])]
      refine outside.leaves outside hclear fun z => ⟨fun hz => ⟨hz, ?_⟩, And.left⟩
      intro same
      exact selected (same ▸ hz)

theorem clearAll_leaves (h : ListChangeBuilder.Idle s.builder) : Leaves s (fun _ => False) s.clearAll := by
  rcases atomic_or_outside h with atomic | outside
  · exact ⟨_, clearAll_atomic atomic, h, rfl, fun z => by simp [JavaBitSet.clearAll]⟩
  · obtain ⟨s₁, hbegin, hbits, hrec⟩ := beginChange_spec outside
    have hrec' := hrec.withBits s.bitset.clearAll
    have hcall : s.clearAll
        = (nextRemoveAll 0 s.bitset.bits { s₁ with bitset := s.bitset.clearAll }).bind endChange := by
      unfold clearAll
      rw [hbegin, Outcome.bind_done, hbits]
    cases hold : s.bitset.bits with
    | nil =>
      obtain ⟨b', hend, -, hidle⟩ := hrec'.records.endChange_empty
      have hout : Outside { s₁ with bitset := s.bitset.clearAll, builder := b' } := ⟨hrec.notAtomic, hidle⟩
      refine outside.leaves hout ?_ fun z => by simp [JavaBitSet.clearAll]
      rw [hcall, hold, nextRemoveAll_nil hrec', Outcome.bind_done, endChange, report_outside hrec'.notAtomic, hend]
      rfl
    | cons x rest =>
      obtain ⟨s₂, hremove, hbits₂, hrec₂⟩ := nextRemoveAll_spec hrec' x rest
      obtain ⟨s', hend, hbits', -, hout⟩ := endChange_spec hrec₂
      refine outside.leaves hout ?_ fun z => by rw [hbits', hbits₂]; simp [JavaBitSet.clearAll]
      rw [hcall, hold, hremove, Outcome.bind_done, hend]

theorem setAll_leaves (outside : Outside s) (indices : List Int) (hindices : indices ≠ []) :
    Leaves s (fun z => z ∈ s.bitset.bits ∨ (z ∈ index :: indices ∧ 0 ≤ z ∧ z < itemCount))
      (s.setAll itemCount index indices) := by
  obtain ⟨s₁, hrun, hout, hbuilder, hmem⟩ := @run_sortedNewIndices s itemCount outside (index :: indices)
  have hrows : ∀ z, z ∈ s₁.bitset.bits ↔
      z ∈ s.bitset.bits ∨ (z ∈ index :: indices ∧ 0 ≤ z ∧ z < itemCount) := by
    intro z
    rw [hmem, mem_sortedNewIndices]
    simp only [isValidIndex, Bool.and_eq_true, decide_eq_true_eq]
    tauto
  unfold setAll
  rw [if_neg hindices]
  dsimp only
  rw [hrun, Outcome.bind_done]
  generalize hsorted : s.sortedNewIndices itemCount (index :: indices) = sorted at *
  rcases sorted with _ | ⟨first, _ | ⟨second, rest⟩⟩
  · exact outside.leaves hout rfl hrows
  · obtain ⟨s₂, hbegin, hbits₂, hrec₂⟩ := beginChange_spec hout
    obtain ⟨s₃, hend, hbits₃, -, hout'⟩ := nextAdd_endChange hrec₂ first (first + 1)
    refine outside.leaves hout' ?_ ?_
    · dsimp only
      rw [hbegin, Outcome.bind_done, hend]
    · rw [hbits₃, hbits₂]
      exact hrows
  · have hfirst : first ∈ s₁.bitset.bits := (hmem first).mpr (Or.inr (by simp))
    obtain ⟨front, back, cut, -, -⟩ := exists_cut s₁.bitset.increasing hfirst
    obtain ⟨s₂, hbegin, hbits₂, hrec₂⟩ := beginChange_spec hout
    obtain ⟨i, v, hpos⟩ := @positionOf_spec s₂ first front back (by rw [hbits₂]; exact cut)
      (fun start s => (groupLoop (first :: second :: rest).length (second :: rest) 1 start (start + 1) first s).bind
        endChange)
    obtain ⟨s₃, stop, hloop, hbits₃, -, hrec₃, -⟩ := @groupLoop_spec (s₂.withCursor i v) s₁.stopAtomic.builder
      (first :: second :: rest).length front.length (second :: rest) (by simp) 1 (by simp; omega) front.length first
      le_rfl [] (Or.inl ⟨rfl, rfl⟩) (hrec₂.withCursor i v)
    obtain ⟨s', hend, hbits', -, hout'⟩ := endChange_spec hrec₃
    rw [show ((1 : Nat) : Int) = 1 from rfl] at hloop
    refine outside.leaves hout' ?_ ?_
    · dsimp only
      rw [hbegin, Outcome.bind_done, hpos, hloop, Outcome.bind_done, hend]
    · rw [hbits', hbits₃, show (s₂.withCursor i v).bitset = s₂.bitset from rfl, hbits₂]
      exact hrows

theorem setRange_leaves (outside : Outside s) {stop : Int} (hindex : 0 ≤ index) (hstop : index < stop) :
    Leaves s (fun z => (index ≤ z ∧ z < stop) ∨ z ∈ s.bitset.bits) (s.setRange index stop true) := by
  obtain ⟨s₁, hbegin, hbits, hrec⟩ := beginChange_spec outside
  have hmem : index ∈ (s.bitset.setRange index stop).bits := (JavaBitSet.mem_setRange hindex).mpr (Or.inl ⟨le_rfl, hstop⟩)
  obtain ⟨front, back, cut, -, -⟩ := exists_cut (s.bitset.setRange index stop).increasing hmem
  obtain ⟨i, v, hpos⟩ := @positionOf_spec { s₁ with bitset := s.bitset.setRange index stop } index front back cut
    (fun indicesIndex s => s.nextAdd indicesIndex (indicesIndex + (stop - index)))
  obtain ⟨s', hend, hbits', -, hout⟩ := nextAdd_endChange
    ((hrec.withBits (s.bitset.setRange index stop)).withCursor i v) front.length (front.length + (stop - index))
  refine outside.leaves hout ?_ fun z => ?_
  · unfold setRange
    rw [hbegin, Outcome.bind_done, hbits]
    dsimp only
    rw [if_neg (by omega), if_pos rfl, hpos]
    exact hend
  · rw [hbits']
    exact JavaBitSet.mem_setRange hindex

end Calls

end SelectedIndicesList
end OpenJfx.Controls
