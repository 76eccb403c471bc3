import OpenJfx.Controls.ItemSelection
import OpenJfx.Controls.SelectedIndicesCalls

/-! # Coherence of a selection model

The selected rows are rows of the list, and the selected index is one of them,
or `-1` when there are none.  `Keeps` says of a call and the state in front of
it when the call keeps this. -/
set_option autoImplicit false
namespace OpenJfx.Controls

open OpenJfx.Lib OpenJfx.Collections

namespace ItemSelection
variable {T : Type}

structure Coherent (items : List (Option T)) (m : ItemSelection T) : Prop where
  rows : ∀ r ∈ m.selectedIndices.bitset.bits, 0 ≤ r ∧ r < getItemCount items
  single : m.selectionMode = .single → m.selectedIndices.bitset.bits.length ≤ 1
  empty : m.selectedIndices.bitset.bits = [] ↔ m.selectedIndex = -1
  lead : m.selectedIndices.bitset.bits ≠ [] → m.selectedIndex ∈ m.selectedIndices.bitset.bits

def Keeps (items : List (Option T)) (m : ItemSelection T) : Call T → Prop
  | .selectItem obj => m.selectionMode = .multiple → obj ≠ none
  | .selectIndices row rows =>
      m.selectionMode = .single → rows ≠ [] → (∃ r ∈ rows, 0 ≤ r ∧ r < getItemCount items) ∨
        (0 < row ∧ row < getItemCount items) ∨ m.selectedIndex = -1
  | .selectLast => m.selectionMode = .single → m.selectedIndex = getItemCount items - 1 → m.selectedIndex = -1
  | .selectNext => m.selectionMode = .single → m.focusedIndex = getItemCount items - 1 → m.selectedIndex = -1
  | .selectPrevious => m.selectionMode = .single → m.focusedIndex = 0 → m.selectedIndex = -1
  | .clearSelectionAt index =>
      index = m.selectedIndex → ∀ r ∈ m.selectedIndices.bitset.bits, r = index
  | _ => True

/-- Items are looked up only when they are in the list. -/
def Legal (items : List (Option T)) : Call T → Prop
  | .selectItem obj => obj ∈ items
  | _ => True

instance (items : List (Option T)) (m : ItemSelection T) : ∀ call, Decidable (Keeps items m call)
  | .selectItem obj => inferInstanceAs (Decidable (_ → ¬ obj = none))
  | .selectIndices _ rows => inferInstanceAs (Decidable (_ → rows ≠ [] → (∃ r ∈ rows, _) ∨ _ ∨ _))
  | .selectLast => inferInstanceAs (Decidable (_ → _ → _))
  | .selectNext => inferInstanceAs (Decidable (_ → _ → _))
  | .selectPrevious => inferInstanceAs (Decidable (_ → _ → _))
  | .clearSelectionAt _ => inferInstanceAs (Decidable (_ → ∀ r ∈ m.selectedIndices.bitset.bits, _))
  | .select _ | .clearAndSelect _ | .selectAll | .selectFirst | .clearSelection => isTrue trivial

instance [DecidableEq T] (items : List (Option T)) : ∀ call, Decidable (Legal items call)
  | .selectItem obj => inferInstanceAs (Decidable (obj ∈ items))
  | .select _ | .clearAndSelect _ | .selectIndices _ _ | .selectAll | .selectFirst | .selectLast | .selectNext
  | .selectPrevious | .clearSelectionAt _ | .clearSelection => isTrue trivial

/-! ## What the operations need and leave -/

/-- The selection at the depth `depth` of atomic blocks, with nothing said about
the selected index. -/
structure Loose (items : List (Option T)) (depth : Nat) (m : ItemSelection T) : Prop where
  idle : ListChangeBuilder.Idle m.selectedIndices.builder
  atomicity : m.selectedIndices.atomicityCount = depth
  rows : ∀ r ∈ m.selectedIndices.bitset.bits, 0 ≤ r ∧ r < getItemCount items
  single : m.selectionMode = .single → m.selectedIndices.bitset.bits.length ≤ 1
  focused : m.focusedIndex = -1 ∨ (0 ≤ m.focusedIndex ∧ m.focusedIndex < getItemCount items)

structure Settled (items : List (Option T)) (m : ItemSelection T) : Prop extends Loose items 0 m where
  empty : m.selectedIndices.bitset.bits = [] ↔ m.selectedIndex = -1
  lead : m.selectedIndices.bitset.bits ≠ [] → m.selectedIndex ∈ m.selectedIndices.bitset.bits

theorem Settled.coherent {items : List (Option T)} {m : ItemSelection T} (h : Settled items m) : Coherent items m :=
  ⟨h.rows, h.single, h.empty, h.lead⟩

section Operations
variable {equals : T → T → Bool} {items : List (Option T)} {depth : Nat} {m : ItemSelection T}

theorem Settled.of_lead (h : Loose items 0 m) (hlead : m.selectedIndex ∈ m.selectedIndices.bitset.bits) :
    Settled items m := by
  refine ⟨h, ?_, fun _ => hlead⟩
  have hnonneg := (h.rows _ hlead).1
  constructor
  · intro hnil
    rw [hnil] at hlead
    cases hlead
  · intro hminus
    omega

theorem Loose.onIndices (h : Loose items depth m) {call : SelectedIndicesList → Outcome Exn SelectedIndicesList}
    {rows : Int → Prop} (hcall : SelectedIndicesList.Leaves m.selectedIndices rows (call m.selectedIndices))
    (valid : ∀ z, rows z → 0 ≤ z ∧ z < getItemCount items)
    (single : m.selectionMode = .single → ∀ y z, rows y → rows z → y = z) :
    ∃ t, m.onIndices call = .done t ∧ Loose items depth t ∧ t.selectionMode = m.selectionMode ∧
      t.selectedIndex = m.selectedIndex ∧ t.focusedIndex = m.focusedIndex ∧
      ∀ z, z ∈ t.selectedIndices.bitset.bits ↔ rows z := by
  obtain ⟨s', hdone, hidle, hcount, hmem⟩ := hcall
  refine ⟨{ m with selectedIndices := s' }, ?_, ⟨hidle, hcount.trans h.atomicity, ?_, ?_, h.focused⟩, rfl, rfl, rfl, hmem⟩
  · rw [ItemSelection.onIndices, hdone, Outcome.map_done]
  · intro r hr
    exact valid r ((hmem r).mp hr)
  · intro mode
    match hbits : s'.bitset.bits with
    | [] => simp
    | [r] => simp
    | r₁ :: r₂ :: rest =>
      have hlt : r₁ < r₂ := by
        have := s'.bitset.increasing
        rw [hbits] at this
        exact (List.pairwise_cons.mp this).1 r₂ (by simp)
      have := single mode r₁ r₂ ((hmem r₁).mp (by simp [hbits])) ((hmem r₂).mp (by simp [hbits]))
      omega

theorem eq_of_length_le_one {l : List Int} (h : l.length ≤ 1) {y z : Int} (hy : y ∈ l) (hz : z ∈ l) : y = z := by
  match l with
  | [] => cases hy
  | [r] => rw [List.mem_singleton.mp hy, List.mem_singleton.mp hz]
  | _ :: _ :: _ => simp at h

theorem Loose.quietClear (h : Loose items depth m) :
    ∃ t, m.quietClearSelection = .done t ∧ Loose items depth t ∧ t.selectionMode = m.selectionMode ∧
      t.selectedIndex = m.selectedIndex ∧ t.focusedIndex = m.focusedIndex ∧ t.selectedIndices.bitset.bits = [] := by
  obtain ⟨t, hdone, ht, hmode, hindex, hfocus, hmem⟩ := h.onIndices (SelectedIndicesList.clearAll_leaves h.idle)
    (fun z hz => hz.elim) (fun _ y z hy _ => hy.elim)
  exact ⟨t, hdone, ht, hmode, hindex, hfocus, List.eq_nil_iff_forall_not_mem.mpr fun z hz => (hmem z).mp hz⟩

theorem clearSelection_settles (h : Loose items 0 m) : ∃ t, m.clearSelection items = .done t ∧ Settled items t := by
  obtain ⟨t, hdone, ht, -, -, -, hnil⟩ := h.quietClear
  have hatomic : ¬ t.selectedIndices.isAtomic = true := by
    simp [SelectedIndicesList.isAtomic, ht.atomicity]
  refine ⟨(t.setSelectedIndex items (-1)).focus (-1), ?_, ⟨?_, ?_, ?_, ?_, Or.inl rfl⟩, ?_, ?_⟩
  · rw [clearSelection, hdone, Outcome.map_done, if_neg hatomic]
  · simpa [focus] using ht.idle
  · simpa [focus] using ht.atomicity
  · intro r hr
    simp [focus, hnil] at hr
  · intro _
    simp [focus, hnil]
  · simp [focus, hnil]
  · intro hne
    simp [focus, hnil] at hne

theorem clearSelection_atomic (h : Loose items (depth + 1) m) :
    ∃ t, m.clearSelection items = .done t ∧ Loose items (depth + 1) t ∧ t.selectionMode = m.selectionMode := by
  obtain ⟨t, hdone, ht, hmode, -, -, -⟩ := h.quietClear
  have hatomic : t.selectedIndices.isAtomic = true := by
    simp [SelectedIndicesList.isAtomic, ht.atomicity]
  exact ⟨t, by rw [clearSelection, hdone, Outcome.map_done, if_pos hatomic], ht, hmode⟩

theorem Loose.startAtomic (h : Loose items depth m) : Loose items (depth + 1) m.startAtomic :=
  ⟨h.idle, by show m.selectedIndices.atomicityCount + 1 = depth + 1; rw [h.atomicity], h.rows, h.single, h.focused⟩

theorem Loose.stopAtomic (h : Loose items (depth + 1) m) : Loose items depth m.stopAtomic :=
  ⟨h.idle, by show m.selectedIndices.atomicityCount - 1 = depth; rw [h.atomicity]; rfl, h.rows, h.single, h.focused⟩

theorem select_valid (h : Loose items depth m) {row : Int} (hrow : 0 ≤ row) (hcount : row < getItemCount items) :
    ∃ t, m.select equals items row = .done t ∧ Loose items depth t ∧ t.selectionMode = m.selectionMode ∧
      t.selectedIndex = row ∧ row ∈ t.selectedIndices.bitset.bits := by
  have hfocus : Loose items depth (m.focus row) := ⟨h.idle, h.atomicity, h.rows, h.single, Or.inr ⟨hrow, hcount⟩⟩
  -- the rest of the method, once the row is in the set
  have finish : ∀ u : ItemSelection T, Loose items depth u → u.selectionMode = m.selectionMode →
      row ∈ u.selectedIndices.bitset.bits → ∀ fire : Bool, ∃ t,
        (if fire then { u.setSelectedIndex items row with selectedItem := getModelItem items row }
          else u.setSelectedIndex items row) = t ∧
        Loose items depth t ∧ t.selectionMode = m.selectionMode ∧ t.selectedIndex = row ∧
          row ∈ t.selectedIndices.bitset.bits := by
    intro u hu hmode hmem fire
    refine ⟨_, rfl, ?_⟩
    have hset : Loose items depth (u.setSelectedIndex items row) :=
      ⟨by simpa using hu.idle, by simpa using hu.atomicity, by simpa using hu.rows, by simpa using hu.single,
        by simpa using hu.focused⟩
    cases fire with
    | true =>
      exact ⟨⟨hset.idle, hset.atomicity, hset.rows, hset.single, hset.focused⟩, by simpa using hmode, by simp,
        by simpa using hmem⟩
    | false => exact ⟨hset, by simpa using hmode, by simp, by simpa using hmem⟩
  unfold select
  rw [if_neg (by omega), if_neg (by omega)]
  dsimp only
  by_cases selected : (m.focus row).selectedIndices.isSelected row = false
  · rw [if_pos selected]
    -- in either mode the row is added to what is left
    have cleared : ∃ u, (if (m.focus row).selectionMode = .single then
          ((m.focus row).startAtomic.quietClearSelection).map ItemSelection.stopAtomic else .done (m.focus row)) = .done u ∧
        Loose items depth u ∧ u.selectionMode = m.selectionMode ∧
        (m.selectionMode = .single → u.selectedIndices.bitset.bits = []) := by
      by_cases mode : (m.focus row).selectionMode = .single
      · obtain ⟨u, hdone, hu, hmode, -, -, hnil⟩ := hfocus.startAtomic.quietClear
        refine ⟨u.stopAtomic, ?_, hu.stopAtomic, hmode, fun _ => hnil⟩
        rw [if_pos mode, hdone, Outcome.map_done]
      · exact ⟨m.focus row, by rw [if_neg mode], hfocus, rfl, fun hsingle => absurd hsingle mode⟩
    obtain ⟨u, hdone, hu, hmode, hnil⟩ := cleared
    obtain ⟨v, hset, hv, hmode', -, -, hmem⟩ := hu.onIndices
      (SelectedIndicesList.set_leaves hu.idle hrow hcount)
      (fun z hz => by
        rcases hz with hz | rfl
        · exact hu.rows z hz
        · exact ⟨hrow, hcount⟩)
      (fun mode y z hy hz => by
        have hnone := hnil (hmode.symm.trans mode)
        rw [hnone] at hy hz
        simp at hy hz
        rw [hy, hz])
    obtain ⟨t, ht, hrest⟩ := finish v hv (hmode'.trans hmode) ((hmem row).mpr (Or.inr rfl)) _
    exact ⟨t, by rw [hdone, Outcome.bind_done, hset, Outcome.map_done, ht], hrest⟩
  · rw [if_neg selected]
    have hmem : row ∈ (m.focus row).selectedIndices.bitset.bits :=
      SelectedIndicesList.isSelected_iff.mp (by simpa using selected)
    obtain ⟨t, ht, hrest⟩ := finish (m.focus row) hfocus rfl hmem _
    exact ⟨t, by rw [Outcome.map_done, ht], hrest⟩

theorem select_settles (h : Loose items 0 m) {row : Int} (hrow : 0 ≤ row) (hcount : row < getItemCount items) :
    ∃ t, m.select equals items row = .done t ∧ Settled items t := by
  obtain ⟨t, hdone, ht, -, hindex, hmem⟩ := @select_valid T equals items 0 m h row hrow hcount
  exact ⟨t, hdone, Settled.of_lead ht (hindex ▸ hmem)⟩

theorem select_keeps (h : Settled items m) (row : Int) : ∃ t, m.select equals items row = .done t ∧ Settled items t := by
  by_cases minus : row = -1
  · unfold select
    rw [if_pos minus]
    exact clearSelection_settles h.toLoose
  · by_cases out : row < 0 ∨ getItemCount items ≤ row
    · unfold select
      rw [if_neg minus, if_pos out]
      exact ⟨m, rfl, h⟩
    · exact select_settles h.toLoose (by omega) (by omega)

theorem Loose.clearIfSingle (h : Loose items 0 m) :
    ∃ t, m.clearIfSingle = .done t ∧ Loose items 0 t ∧ t.selectionMode = m.selectionMode ∧
      t.selectedIndex = m.selectedIndex ∧ t.focusedIndex = m.focusedIndex ∧
      (m.selectionMode = .single → t.selectedIndices.bitset.bits = []) ∧
      (m.selectionMode = .multiple → t = m) := by
  unfold ItemSelection.clearIfSingle
  by_cases mode : m.selectionMode = .single
  · obtain ⟨t, hdone, ht, hmode, hindex, hfocus, hnil⟩ := h.quietClear
    refine ⟨t, by rw [if_pos mode, hdone], ht, hmode, hindex, hfocus, fun _ => hnil, fun multiple => ?_⟩
    rw [mode] at multiple
    cases multiple
  · exact ⟨m, by rw [if_neg mode], h, rfl, rfl, rfl, fun hsingle => absurd hsingle mode, fun _ => rfl⟩

theorem Settled.of_cleared (h : Settled items m) {t : ItemSelection T} (ht : Loose items 0 t)
    (hindex : t.selectedIndex = m.selectedIndex)
    (hnil : m.selectionMode = .single → t.selectedIndices.bitset.bits = [])
    (hsame : m.selectionMode = .multiple → t = m) (keeps : m.selectionMode = .single → m.selectedIndex = -1) :
    Settled items t := by
  cases mode : m.selectionMode with
  | single =>
    refine ⟨ht, iff_of_true (hnil mode) (hindex.trans (keeps mode)), fun hne => absurd (hnil mode) hne⟩
  | multiple =>
    rw [hsame mode]
    exact h

theorem selectItemLoop_settles (h : Settled items m) (x : T) (rest : List (Option T)) (i : Nat)
    (hrest : items.drop i = rest) (found : ∃ y ∈ rest, y.any (fun a => equals a x) = true) :
    ∃ t, selectItemLoop equals items (some x) rest i m = .done t ∧ Settled items t := by
  induction rest generalizing i with
  | nil =>
    obtain ⟨y, hy, -⟩ := found
    cases hy
  | cons rowObj rest ih =>
    have hlt : i < items.length := by
      by_contra hge
      rw [List.drop_eq_nil_of_le (by omega)] at hrest
      cases hrest
    unfold selectItemLoop
    by_cases hit : rowObj.any (fun a => (some x).any (fun b => equals a b)) = true
    · rw [if_pos hit]
      by_cases selected : m.isSelected i = true
      · rw [if_pos selected]
        exact ⟨m, rfl, h⟩
      · rw [if_neg selected]
        obtain ⟨u, hdone, hu, -, -, -, -, -⟩ := h.toLoose.clearIfSingle
        rw [hdone, Outcome.bind_done]
        exact select_settles hu (by omega) (by rw [getItemCount]; omega)
    · rw [if_neg hit]
      have hnext : items.drop (i + 1) = rest := by
        rw [← List.tail_drop, hrest]
        rfl
      have htail : ∃ y ∈ rest, y.any (fun a => equals a x) = true := by
        obtain ⟨y, hy, hmatch⟩ := found
        rcases List.mem_cons.mp hy with rfl | hy
        · exact absurd hmatch hit
        · exact ⟨y, hy, hmatch⟩
      exact ih (i + 1) hnext htail

theorem selectItem_keeps (refl : ∀ x, equals x x = true) (h : Settled items m) {obj : Option T} (legal : obj ∈ items)
    (keeps : m.selectionMode = .multiple → obj ≠ none) :
    ∃ t, m.selectItem equals items obj = .done t ∧ Settled items t := by
  unfold selectItem
  cases obj with
  | none =>
    have mode : m.selectionMode = .single := by
      cases hmode : m.selectionMode with
      | single => rfl
      | multiple => exact absurd rfl (keeps hmode)
    rw [if_pos ⟨rfl, mode⟩]
    exact clearSelection_settles h.toLoose
  | some x =>
    rw [if_neg (by simp)]
    exact selectItemLoop_settles h x items 0 rfl ⟨some x, legal, by simpa using refl x⟩

theorem clearAndSelect_keeps [DecidableEq T] (h : Settled items m) (row : Int) :
    ∃ t, m.clearAndSelect equals items row = .done t ∧ Settled items t := by
  unfold clearAndSelect
  by_cases out : row < 0 ∨ getItemCount items ≤ row
  · rw [if_pos out]
    exact clearSelection_settles h.toLoose
  · rw [if_neg out]
    dsimp only
    by_cases alone : m.isSelected row = true ∧ m.selectedIndices.size = 1 ∧ m.selectedItem = getModelItem items row
    · rw [if_pos alone]
      exact ⟨m, rfl, h⟩
    · rw [if_neg alone]
      obtain ⟨u, hclear, hu, -⟩ := clearSelection_atomic h.toLoose.startAtomic
      obtain ⟨v, hselect, hv, -, hindex, hmem⟩ := @select_valid T equals items 1 u hu row (by omega) (by omega)
      rw [hclear, Outcome.bind_done, hselect, Outcome.bind_done]
      have hstop : Settled items v.stopAtomic := Settled.of_lead hv.stopAtomic (hindex.symm ▸ hmem)
      unfold observeClearAndSelect
      by_cases was : m.isSelected row = true
      · rw [if_pos was]
        exact ⟨_, rfl, ⟨hstop.idle, hstop.atomicity, hstop.rows, hstop.single, hstop.focused⟩, hstop.empty, hstop.lead⟩
      · rw [if_neg was]
        obtain ⟨front, back, cut, -, -⟩ := exists_cut v.stopAtomic.selectedIndices.bitset.increasing hmem
        obtain ⟨index, value, hposition⟩ := SelectedIndicesList.indexOf_spec cut
        rw [hposition]
        exact ⟨_, rfl, ⟨hstop.idle, hstop.atomicity, hstop.rows, hstop.single, hstop.focused⟩, hstop.empty, hstop.lead⟩

theorem selectLastValid_spec (rows : List Int) (h : Loose items 0 m) (hnil : m.selectedIndices.bitset.bits = []) :
    ∃ t, selectLastValid equals items rows m = .done t ∧
      ((∀ r ∈ rows, ¬(0 ≤ r ∧ r < getItemCount items)) ∧ t = m ∨
        Settled items t ∧ t.selectedIndices.bitset.bits ≠ []) := by
  induction rows with
  | nil => exact ⟨m, rfl, Or.inl ⟨by simp, rfl⟩⟩
  | cons index rest ih =>
    unfold selectLastValid
    by_cases valid : 0 ≤ index ∧ index < getItemCount items
    · rw [if_pos valid]
      obtain ⟨u, hset, hu, -, -, -, -⟩ := h.onIndices (SelectedIndicesList.set_leaves h.idle valid.1 valid.2)
        (fun z hz => by
          rcases hz with hz | rfl
          · exact h.rows z hz
          · exact valid)
        (fun _ y z hy hz => by
          rw [hnil] at hy hz
          simp at hy hz
          rw [hy, hz])
      obtain ⟨t, hdone, ht, -, hindex, hmem⟩ := @select_valid T equals items 0 u hu index valid.1 valid.2
      refine ⟨t, by rw [hset, Outcome.bind_done, hdone], Or.inr ⟨Settled.of_lead ht (hindex ▸ hmem), ?_⟩⟩
      exact List.ne_nil_of_mem hmem
    · rw [if_neg valid]
      obtain ⟨t, hdone, hrest | hrest⟩ := ih
      · refine ⟨t, hdone, Or.inl ⟨?_, hrest.2⟩⟩
        intro r hr
        rcases List.mem_cons.mp hr with rfl | hr
        · exact valid
        · exact hrest.1 r hr
      · exact ⟨t, hdone, Or.inr hrest⟩

theorem isEmpty_iff : m.isEmpty = true ↔ m.selectedIndices.bitset.bits = [] := by
  unfold isEmpty
  rw [decide_eq_true_eq]
  exact List.length_eq_zero_iff

theorem selectIndices_single (h : Settled items m) (mode : m.selectionMode = .single) (row : Int) {rows : List Int}
    (hrows : rows ≠ []) (keeps : (∃ r ∈ rows, 0 ≤ r ∧ r < getItemCount items) ∨
      (0 < row ∧ row < getItemCount items) ∨ m.selectedIndex = -1) :
    ∃ t, m.selectIndices equals items row rows = .done t ∧ Settled items t := by
  unfold selectIndices
  rw [if_neg hrows]
  dsimp only
  rw [if_pos mode]
  obtain ⟨u, hclear, hu, hmode, hindex, -, hnil⟩ := h.toLoose.quietClear
  obtain ⟨v, hloop, hcase⟩ := @selectLastValid_spec T equals items u rows.reverse hu hnil
  rw [hclear, Outcome.bind_done, hloop, Outcome.bind_done]
  rcases hcase with ⟨hnone, rfl⟩ | ⟨hv, hne⟩
  · have hempty := isEmpty_iff.mpr hnil
    by_cases first : 0 < row ∧ row < getItemCount items
    · rw [if_pos ⟨hempty, first⟩]
      obtain ⟨w, hset, hw, -, -, -, -⟩ := hu.onIndices
        (SelectedIndicesList.set_leaves hu.idle (by omega : 0 ≤ row) first.2)
        (fun z hz => by
          rcases hz with hz | rfl
          · exact hu.rows z hz
          · exact ⟨by omega, first.2⟩)
        (fun _ y z hy hz => by
          rw [hnil] at hy hz
          simp at hy hz
          rw [hy, hz])
      rw [hset, Outcome.bind_done]
      exact select_settles hw (by omega) first.2
    · rw [if_neg (by tauto)]
      have hminus : m.selectedIndex = -1 := by
        rcases keeps with ⟨r, hr, hvalid⟩ | hfirst | hminus
        · exact absurd hvalid (hnone r (List.mem_reverse.mpr hr))
        · exact absurd hfirst first
        · exact hminus
      exact ⟨v, rfl, hu, iff_of_true hnil (hindex.trans hminus), fun hne => absurd hnil hne⟩
  · rw [if_neg (by rw [isEmpty_iff]; tauto)]
    exact ⟨v, rfl, hv⟩

theorem selectIndices_multiple (h : Settled items m) (mode : m.selectionMode = .multiple) (row : Int) {rows : List Int}
    (hrows : rows ≠ []) : ∃ t, m.selectIndices equals items row rows = .done t ∧ Settled items t := by
  have hsingle : ¬ m.selectionMode = .single := by
    rw [mode]
    decide
  unfold selectIndices
  rw [if_neg hrows]
  dsimp only
  rw [if_neg hsingle]
  have outside : SelectedIndicesList.Outside m.selectedIndices := ⟨h.atomicity, h.idle⟩
  obtain ⟨u, hset, hu, hmode, hindex, -, hmem⟩ := h.toLoose.onIndices
    (@SelectedIndicesList.setAll_leaves m.selectedIndices (getItemCount items) row outside rows hrows)
    (fun z hz => by
      rcases hz with hz | hz
      · exact h.rows z hz
      · exact hz.2)
    (fun hsingle' => absurd hsingle' hsingle)
  rw [hset, Outcome.map_done]
  cases hlast : ((row :: rows).filter (fun index => decide (0 ≤ index ∧ index < getItemCount items))).getLast? with
  | none =>
    have hnone := List.getLast?_eq_none_iff.mp hlast
    have hsame : ∀ z, z ∈ u.selectedIndices.bitset.bits ↔ z ∈ m.selectedIndices.bitset.bits := by
      intro z
      rw [hmem]
      constructor
      · rintro (hz | ⟨hz, hvalid⟩)
        · exact hz
        · exact absurd (by simpa using hvalid) (List.filter_eq_nil_iff.mp hnone z hz)
      · exact Or.inl
    have hbits := eq_of_increasing u.selectedIndices.bitset.increasing m.selectedIndices.bitset.increasing hsame
    exact ⟨u, rfl, hu, by rw [hbits, hindex]; exact h.empty, by rw [hbits, hindex]; exact h.lead⟩
  | some lastIndex =>
    have hin := List.mem_of_getLast? hlast
    have hvalid : 0 ≤ lastIndex ∧ lastIndex < getItemCount items := by
      simpa using (List.mem_filter.mp hin).2
    have hselected : lastIndex ∈ u.selectedIndices.bitset.bits :=
      (hmem lastIndex).mpr (Or.inr ⟨List.mem_of_mem_filter hin, hvalid⟩)
    refine ⟨_, rfl, Settled.of_lead ⟨?_, ?_, ?_, ?_, Or.inr hvalid⟩ ?_⟩
    · simpa [focus] using hu.idle
    · simpa [focus] using hu.atomicity
    · simpa [focus] using hu.rows
    · simpa [focus] using hu.single
    · simpa [focus] using hselected

theorem selectAll_keeps (h : Settled items m) : ∃ t, m.selectAll items = .done t ∧ Settled items t := by
  unfold selectAll
  by_cases mode : m.selectionMode = .single
  · rw [if_pos mode]
    exact ⟨m, rfl, h⟩
  rw [if_neg mode]
  by_cases none : getItemCount items ≤ 0
  · rw [if_pos none]
    exact ⟨m, rfl, h⟩
  rw [if_neg none]
  obtain ⟨t, hclear, ht, hmode⟩ : ∃ t, m.clearSelection items = .done t ∧ Settled items t ∧
      t.selectionMode = m.selectionMode := by
    obtain ⟨u, hdone, hu, hmode, -, -, -⟩ := h.toLoose.quietClear
    obtain ⟨t, hclear, ht⟩ := clearSelection_settles h.toLoose
    refine ⟨t, hclear, ht, ?_⟩
    rw [clearSelection, hdone, Outcome.map_done] at hclear
    cases hclear
    split
    · exact hmode
    · simpa [focus] using hmode
  have outside : SelectedIndicesList.Outside t.selectedIndices := ⟨ht.atomicity, ht.idle⟩
  obtain ⟨u, hset, hu, -, -, -, hmem⟩ := ht.toLoose.onIndices
    (SelectedIndicesList.setRange_leaves outside le_rfl (by omega : 0 < getItemCount items))
    (fun z hz => by
      rcases hz with hz | hz
      · exact hz
      · exact ht.rows z hz)
    (fun hsingle => absurd (hmode.symm.trans hsingle) mode)
  dsimp only
  rw [hclear, Outcome.bind_done, hset, Outcome.map_done]
  -- the lead is any row of the list
  have finish : ∀ row, 0 ≤ row → row < getItemCount items → Settled items ((u.setSelectedIndex items row).focus row) := by
    intro row hrow hcount
    refine Settled.of_lead ⟨?_, ?_, ?_, ?_, Or.inr ⟨hrow, hcount⟩⟩ ?_
    · simpa [focus] using hu.idle
    · simpa [focus] using hu.atomicity
    · simpa [focus] using hu.rows
    · simpa [focus] using hu.single
    · simpa [focus] using (hmem row).mpr (Or.inl ⟨hrow, hcount⟩)
  by_cases unfocused : m.focusedIndex = -1
  · rw [if_pos unfocused]
    exact ⟨_, rfl, finish _ (by omega) (by omega)⟩
  · rw [if_neg unfocused]
    rcases h.focused with hminus | hvalid
    · exact absurd hminus unfocused
    · exact ⟨_, rfl, finish _ hvalid.1 hvalid.2⟩

theorem selectFirst_keeps (h : Settled items m) : ∃ t, m.selectFirst equals items = .done t ∧ Settled items t := by
  unfold selectFirst
  obtain ⟨u, hclear, hu, -, hindex, -, hnil, hsame⟩ := h.toLoose.clearIfSingle
  rw [hclear, Outcome.bind_done]
  by_cases some : 0 < getItemCount items
  · rw [if_pos some]
    exact select_settles hu le_rfl some
  · rw [if_neg some]
    -- an empty list has no selected rows
    have hempty : m.selectedIndices.bitset.bits = [] := by
      apply List.eq_nil_iff_forall_not_mem.mpr
      intro r hr
      have := h.rows r hr
      omega
    exact ⟨u, rfl, h.of_cleared hu hindex hnil hsame fun _ => h.empty.mp hempty⟩

theorem selectLast_keeps (h : Settled items m)
    (keeps : m.selectionMode = .single → m.selectedIndex = getItemCount items - 1 → m.selectedIndex = -1) :
    ∃ t, m.selectLast equals items = .done t ∧ Settled items t := by
  unfold selectLast
  obtain ⟨u, hclear, hu, -, hindex, -, hnil, hsame⟩ := h.toLoose.clearIfSingle
  rw [hclear, Outcome.bind_done]
  dsimp only
  by_cases more : 0 < getItemCount items ∧ u.selectedIndex < getItemCount items - 1
  · rw [if_pos more]
    exact select_settles hu (by omega) (by omega)
  · rw [if_neg more]
    refine ⟨u, rfl, h.of_cleared hu hindex hnil hsame fun mode => ?_⟩
    by_cases hempty : m.selectedIndices.bitset.bits = []
    · exact h.empty.mp hempty
    · have := h.rows _ (h.lead hempty)
      exact keeps mode (by omega)

theorem selectNext_keeps (h : Settled items m)
    (keeps : m.selectionMode = .single → m.focusedIndex = getItemCount items - 1 → m.selectedIndex = -1) :
    ∃ t, m.selectNext equals items = .done t ∧ Settled items t := by
  unfold selectNext
  obtain ⟨u, hclear, hu, -, hindex, -, hnil, hsame⟩ := h.toLoose.clearIfSingle
  dsimp only
  rw [hclear, Outcome.bind_done]
  by_cases unfocused : m.focusedIndex = -1
  · rw [if_pos unfocused]
    by_cases some : 0 < getItemCount items
    · exact select_settles hu le_rfl some
    · have hempty : m.selectedIndices.bitset.bits = [] := by
        apply List.eq_nil_iff_forall_not_mem.mpr
        intro r hr
        have := h.rows r hr
        omega
      unfold select
      rw [if_neg (by omega), if_pos (by omega)]
      exact ⟨u, rfl, h.of_cleared hu hindex hnil hsame fun _ => h.empty.mp hempty⟩
  · rw [if_neg unfocused]
    have hvalid := h.focused.resolve_left unfocused
    by_cases last : m.focusedIndex = getItemCount items - 1
    · rw [if_neg (by omega)]
      exact ⟨u, rfl, h.of_cleared hu hindex hnil hsame fun mode => keeps mode last⟩
    · rw [if_pos last]
      exact select_settles hu (by omega) (by omega)

theorem selectPrevious_keeps (h : Settled items m)
    (keeps : m.selectionMode = .single → m.focusedIndex = 0 → m.selectedIndex = -1) :
    ∃ t, m.selectPrevious equals items = .done t ∧ Settled items t := by
  unfold selectPrevious
  obtain ⟨u, hclear, hu, -, hindex, -, hnil, hsame⟩ := h.toLoose.clearIfSingle
  dsimp only
  rw [hclear, Outcome.bind_done]
  by_cases unfocused : m.focusedIndex = -1
  · rw [if_pos unfocused]
    by_cases some : 0 < getItemCount items
    · exact select_settles hu (by omega) (by omega)
    · have hzero : getItemCount items = 0 := by
        have : 0 ≤ getItemCount items := by
          rw [getItemCount]
          omega
        omega
      unfold select
      rw [if_pos (by omega)]
      exact clearSelection_settles hu
  · rw [if_neg unfocused]
    have hvalid := h.focused.resolve_left unfocused
    by_cases inner : 0 < m.focusedIndex
    · rw [if_pos inner]
      exact select_settles hu (by omega) (by omega)
    · rw [if_neg inner]
      exact ⟨u, rfl, h.of_cleared hu hindex hnil hsame fun mode => keeps mode (by omega)⟩

theorem clearSelectionAt_keeps (h : Settled items m) (index : Int)
    (keeps : index = m.selectedIndex → ∀ r ∈ m.selectedIndices.bitset.bits, r = index) :
    ∃ t, m.clearSelectionAt items index = .done t ∧ Settled items t := by
  unfold clearSelectionAt
  by_cases negative : index < 0
  · rw [if_pos negative]
    exact ⟨m, rfl, h⟩
  rw [if_neg negative]
  dsimp only
  obtain ⟨u, hclear, hu, -, hindex, -, hmem⟩ := h.toLoose.onIndices
    (SelectedIndicesList.clear_leaves h.idle (by omega : 0 ≤ index))
    (fun z hz => h.rows z hz.1)
    (fun mode y z hy hz => eq_of_length_le_one (h.single mode) hy.1 hz.1)
  rw [hclear, Outcome.bind_done]
  by_cases emptied : m.isEmpty = false ∧ u.isEmpty = true
  · rw [if_pos emptied]
    exact clearSelection_settles hu
  · rw [if_neg emptied]
    refine ⟨u, rfl, ?_⟩
    by_cases before : m.selectedIndices.bitset.bits = []
    · have hnil : u.selectedIndices.bitset.bits = [] := by
        apply List.eq_nil_iff_forall_not_mem.mpr
        intro z hz
        have := ((hmem z).mp hz).1
        rw [before] at this
        cases this
      exact ⟨hu, iff_of_true hnil (hindex.trans (h.empty.mp before)), fun hne => absurd hnil hne⟩
    · have hlead := h.lead before
      have hother : m.selectedIndex ≠ index := by
        intro same
        apply emptied
        refine ⟨by rw [← Bool.not_eq_true, isEmpty_iff]; exact before, isEmpty_iff.mpr ?_⟩
        apply List.eq_nil_iff_forall_not_mem.mpr
        intro z hz
        exact ((hmem z).mp hz).2 (keeps same.symm z ((hmem z).mp hz).1)
      exact Settled.of_lead hu (hindex.symm ▸ (hmem _).mpr ⟨hlead, hother⟩)

theorem perform_keeps [DecidableEq T] (refl : ∀ x, equals x x = true) (h : Settled items m) (call : Call T)
    (legal : Legal items call) (keeps : Keeps items m call) :
    ∃ t, perform equals items call m = .done t ∧ Settled items t := by
  cases call with
  | select row => exact select_keeps h row
  | selectItem obj => exact selectItem_keeps refl h legal keeps
  | clearAndSelect row => exact clearAndSelect_keeps h row
  | selectIndices row rows =>
    show ∃ t, m.selectIndices equals items row rows = .done t ∧ _
    by_cases hrows : rows = []
    · unfold selectIndices
      rw [if_pos hrows]
      exact select_keeps h row
    · cases mode : m.selectionMode with
      | single => exact selectIndices_single h mode row hrows (keeps mode hrows)
      | multiple => exact selectIndices_multiple h mode row hrows
  | selectAll => exact selectAll_keeps h
  | selectFirst => exact selectFirst_keeps h
  | selectLast => exact selectLast_keeps h keeps
  | selectNext => exact selectNext_keeps h keeps
  | selectPrevious => exact selectPrevious_keeps h keeps
  | clearSelectionAt index => exact clearSelectionAt_keeps h index keeps
  | clearSelection => exact clearSelection_settles h.toLoose

end Operations

/-! ## Runs -/

theorem create_settled (items : List (Option T)) (mode : SelectionMode) {focusedIndex : Int}
    (focused : focusedIndex = -1 ∨ (0 ≤ focusedIndex ∧ focusedIndex < getItemCount items)) :
    Settled items (create mode focusedIndex) := by
  refine ⟨⟨ListChangeBuilder.idle_new, rfl, ?_, ?_, focused⟩, iff_of_true rfl rfl, fun hne => absurd rfl hne⟩
  · intro r hr
    cases hr
  · intro _
    exact Nat.zero_le 1

/-- Over a fixed list and in a fixed mode, a run whose calls all meet the
condition is coherent in every state it reaches. -/
theorem coherent_runs [DecidableEq T] (equals : T → T → Bool) (refl : ∀ x, equals x x = true) (items : List (Option T))
    (mode : SelectionMode) (focusedIndex : Int)
    (focused : focusedIndex = -1 ∨ (0 ≤ focusedIndex ∧ focusedIndex < getItemCount items)) (calls : List (Call T))
    (legal : ∀ call ∈ calls, Legal items call)
    (keeps : Outcome.Along (fun call m => Keeps items m call) (perform equals items) calls (create mode focusedIndex)) :
    ∀ before, before <+: calls →
      ∃ m, Outcome.run (perform equals items) before (create mode focusedIndex) = .done m ∧ Coherent items m := by
  rintro before ⟨after, rfl⟩
  have along : Outcome.Along (fun call m => Keeps items m call ∧ Legal items call) (perform equals items) before
      (create mode focusedIndex) :=
    keeps.of_append.and fun call hcall _ => legal call (List.mem_append_left _ hcall)
  obtain ⟨m, hrun, hm⟩ := Outcome.run_total (Settled items) _ (perform equals items)
    (fun call m hm guard => perform_keeps refl hm call guard.2 guard.1) before _ (create_settled items mode focused) along
  exact ⟨m, hrun, hm.coherent⟩

/-- Rows are selected and one that is not the lead is dropped. -/
theorem coherent_runs_three_rows :
    ∃ m, Outcome.run (perform (fun x y => decide (x = y)) [some 7, some 8, some 9])
        [Call.select 1, .selectItem (some 9), .clearSelectionAt 1] (create .multiple (-1)) = .done m ∧
      Coherent [some 7, some 8, some 9] m :=
  coherent_runs (fun x y => decide (x = y)) (by simp) [some 7, some 8, some 9] .multiple (-1) (Or.inl rfl)
    [Call.select 1, .selectItem (some 9), .clearSelectionAt 1, .selectNext, .selectAll]
    (by decide +kernel) (by decide +kernel) [Call.select 1, .selectItem (some 9), .clearSelectionAt 1]
    ⟨[.selectNext, .selectAll], rfl⟩

/-- The lead is dropped while another row stays selected; and the last row of
three is given up by `selectLast` when it is the only one. -/
theorem lead_not_selected :
    (∃ m, Outcome.run (perform (fun x y => decide (x = y)) [some 7, some 8, some 9])
        [Call.select 1, .select 2, .clearSelectionAt 2] (create .multiple (-1)) = .done m ∧
      m.selectedIndices.bitset.bits = [1] ∧ m.selectedIndex = 2 ∧ ¬ Coherent [some 7, some 8, some 9] m) ∧
    (∃ m, Outcome.run (perform (fun x y => decide (x = y)) [some 7, some 8, some 9])
        [Call.select 2, .selectLast] (create .single (-1)) = .done m ∧
      m.selectedIndices.bitset.bits = [] ∧ m.selectedIndex = 2 ∧ ¬ Coherent [some 7, some 8, some 9] m) := by
  constructor
  · refine ⟨(Outcome.run (perform (fun x y => decide (x = y)) [some 7, some 8, some 9])
      [Call.select 1, .select 2, .clearSelectionAt 2] (create .multiple (-1))).state, by decide +kernel, by decide +kernel,
      by decide +kernel, ?_⟩
    intro coherent
    exact absurd (coherent.lead (by decide +kernel)) (by decide +kernel)
  · refine ⟨(Outcome.run (perform (fun x y => decide (x = y)) [some 7, some 8, some 9])
      [Call.select 2, .selectLast] (create .single (-1))).state, by decide +kernel, by decide +kernel, by decide +kernel, ?_⟩
    intro coherent
    exact absurd (coherent.empty.mp (by decide +kernel)) (by decide +kernel)

end ItemSelection
end OpenJfx.Controls
