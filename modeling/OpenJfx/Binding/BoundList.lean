import OpenJfx.Binding.ContentBinding
import OpenJfx.Collections.BuilderRecording

/-! # A list and a list bound to its content

The source is changed in blocks.  What the builder fires at the end of a block reaches the
binding before anything else happens. -/
set_option autoImplicit false
namespace OpenJfx.Binding
open OpenJfx.Lib OpenJfx.Collections

structure BoundList (E : Type) where
  source : Recording E
  binding : ListContentBinding E
deriving DecidableEq, Repr

namespace BoundList
variable {E : Type}
open ListChangeBuilder

theorem onChanged_turns {old new : List E} {change : Change E} (plain : ∀ c ∈ change, c.Plain)
    (hturns : Turns 0 (change.map SubChange.edit) old new) {b : ListContentBinding E} (hb : b.list = some old) :
    b.onChanged new change = .done { b with list := some new } := by
  obtain ⟨zs, hrun, hkept⟩ := @edits_run E clearRange clearRange_removes change plain [] [] old old new rfl hturns rfl
  have hnew : zs = new := hkept.mpr rfl
  subst hnew
  rw [ListContentBinding.onChanged, hb]
  dsimp only
  rw [List.nil_append, List.nil_append] at hrun
  rw [hrun, Outcome.map_done]

/-- The outermost `endChange`, whose change the listener of the source receives. -/
def endChange (s : BoundList E) : Outcome Exn (BoundList E) :=
  (s.source.builder.endChange.map fun b => { s with source := ⟨s.source.current, b⟩ }).bind fun t =>
    (Outcome.run (ListContentBinding.onChanged t.source.current)
      (t.source.builder.fired.drop s.source.builder.fired.length) t.binding).map fun binding => { t with binding := binding }

def block (reports : List (Report E)) (s : BoundList E) : Outcome Exn (BoundList E) :=
  ((Recording.records reports ⟨s.source.current, s.source.builder.beginChange⟩).map fun source =>
    { s with source := source }).bind endChange

/-- A block consists of edits whose removals do not misfire, and its inner blocks are closed. -/
def Editing (reports : List (Report E)) (s : BoundList E) : Prop :=
  Outcome.Along Recording.Edits Recording.record reports ⟨s.source.current, s.source.builder.beginChange⟩ ∧
    (Recording.records reports ⟨s.source.current, s.source.builder.beginChange⟩).state.builder.changeLock = 1

instance (reports : List (Report E)) (s : BoundList E) : Decidable (Editing reports s) :=
  inferInstanceAs (Decidable (_ ∧ _))

/-- Between two blocks. -/
structure InStep (s : BoundList E) : Prop where
  idle : Idle s.source.builder
  bound : s.binding.list = some s.source.current

theorem block_inStep {reports : List (Report E)} {s : BoundList E} (hs : InStep s) (editing : Editing reports s) :
    ∃ t, block reports s = .done t ∧ InStep t := by
  obtain ⟨hidle, hbound⟩ := hs
  obtain ⟨edits, outermost⟩ := editing
  obtain ⟨t, hrun, htracks, -⟩ := Recording.records_tracks reports (Recording.tracks_beginChange hidle s.source.current) edits
  rw [hrun] at outermost
  obtain ⟨b, hend, hidle, hcases⟩ := tracks_endChange htracks outermost
  rw [block, hrun, Outcome.map_done, Outcome.bind_done, endChange, hend, Outcome.map_done, Outcome.bind_done]
  dsimp only
  rcases hcases with ⟨hnone, hsame⟩ | ⟨change, hfired, hplain, hturns⟩
  · rw [hnone, List.drop_length]
    exact ⟨_, rfl, hidle, by rw [hbound, hsame]⟩
  · rw [hfired, List.drop_left, Outcome.run_cons, onChanged_turns hplain hturns hbound, Outcome.bind_done]
    exact ⟨_, rfl, hidle, rfl⟩

/-- In every run of blocks of edits no call throws, and the bound list is the source behind every block. -/
theorem run_bound {s : BoundList E} (hs : InStep s) {blocks : List (List (Report E))}
    (editing : Outcome.Along Editing block blocks s) : ∃ t, Outcome.run block blocks s = .done t ∧ InStep t :=
  Outcome.run_total InStep Editing block (fun _ _ hs editing => block_inStep hs editing) blocks s hs editing

/-- Elements are inserted; then one of them is replaced and another one removed, in an inner block. -/
theorem run_bound_nested :
    ∃ t, Outcome.run block [[.add 0 [1, 2, 3]], [.set 0 5, .beginChange, .remove 1, .endChange]]
      (⟨⟨[], new⟩, ⟨some [], true⟩⟩ : BoundList Nat) = .done t ∧ InStep t :=
  run_bound ⟨idle_new, rfl⟩ (by decide)

end BoundList

end OpenJfx.Binding
