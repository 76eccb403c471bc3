import OpenJfx.Lib.Run
import Mathlib.Data.Finset.Insert
import Mathlib.Data.Finset.Erase
import Mathlib.Logic.Function.Basic

/-! # `SelectedCellsMap`

The selected cells of a table are kept twice: as a list, in the order of their selection, and
as a map from the rows to the bit sets of their columns, in which an empty bit set stands for
a selected row.  Whether cells or rows are selected is asked at every `add`. -/
set_option autoImplicit false
namespace OpenJfx.Controls
open OpenJfx.Lib

/-- Column `-1` stands for the whole row. -/
structure TablePosition where
  row : Int
  column : Int
deriving DecidableEq, Repr

/-- `TreeMap<Integer, BitSet>`. -/
abbrev BitSetMap := Int → Option (Finset Nat)

structure SelectedCellsMap where
  selectedCells : List TablePosition
  selectedCellBitSetMap : BitSetMap

namespace BitSetMap

def bitset (map : BitSetMap) (row : Int) : Finset Nat := (map row).getD ∅

def put (map : BitSetMap) (row : Int) (bitset : Finset Nat) : BitSetMap := Function.update map row (some bitset)

def remove (map : BitSetMap) (row : Int) : BitSetMap := Function.update map row none

/-- A turn of the loops of `addAll` and `setAll`. -/
def mark (map : BitSetMap) (tp : TablePosition) : BitSetMap :=
  if tp.column < 0 then map.put tp.row (map.bitset tp.row)
  else map.put tp.row (insert tp.column.toNat (map.bitset tp.row))

/-- The bit set of the row of a position, the column of the position cleared. -/
def without (map : BitSetMap) (tp : TablePosition) : Finset Nat :=
  if 0 ≤ tp.column then (map.bitset tp.row).erase tp.column.toNat else map.bitset tp.row

end BitSetMap

namespace SelectedCellsMap

def new : SelectedCellsMap := ⟨[], fun _ => none⟩

def add (cellSelectionModeEnabled : Bool) (tp : TablePosition) (s : SelectedCellsMap) : SelectedCellsMap :=
  let row := tp.row
  let columnIndex := tp.column
  let isNewBitSet := (s.selectedCellBitSetMap row).isNone
  let bitset := s.selectedCellBitSetMap.bitset row
  let map := s.selectedCellBitSetMap.put row bitset
  if cellSelectionModeEnabled then
    if 0 ≤ columnIndex then
      if columnIndex.toNat ∈ bitset then ⟨s.selectedCells, map⟩
      else ⟨s.selectedCells ++ [tp], map.put row (insert columnIndex.toNat bitset)⟩
    else if tp ∈ s.selectedCells then ⟨s.selectedCells, map⟩
    else ⟨s.selectedCells ++ [tp], map⟩
  else if isNewBitSet then
    if 0 ≤ columnIndex then ⟨s.selectedCells ++ [tp], map.put row (insert columnIndex.toNat bitset)⟩
    else ⟨s.selectedCells ++ [tp], map⟩
  else ⟨s.selectedCells, map⟩

def addAll (cells : List TablePosition) (s : SelectedCellsMap) : SelectedCellsMap :=
  ⟨s.selectedCells ++ cells, cells.foldl BitSetMap.mark s.selectedCellBitSetMap⟩

def setAll (cells : List TablePosition) (_ : SelectedCellsMap) : SelectedCellsMap :=
  ⟨cells, cells.foldl BitSetMap.mark fun _ => none⟩

def remove (tp : TablePosition) (s : SelectedCellsMap) : SelectedCellsMap :=
  let map := s.selectedCellBitSetMap
  let bitset := map.without tp
  ⟨s.selectedCells.erase tp,
    if (map tp.row).isNone then map
    else if bitset = ∅ then map.remove tp.row
    else map.put tp.row bitset⟩

def clear (_ : SelectedCellsMap) : SelectedCellsMap := ⟨[], fun _ => none⟩

def isSelected (s : SelectedCellsMap) (row columnIndex : Int) : Bool :=
  if columnIndex < 0 then (s.selectedCellBitSetMap row).isSome
  else if (s.selectedCellBitSetMap row).isSome then
    decide (columnIndex.toNat ∈ s.selectedCellBitSetMap.bitset row)
  else false

inductive Op
  | add (cellSelectionModeEnabled : Bool) (tp : TablePosition)
  | addAll (cells : List TablePosition)
  | setAll (cells : List TablePosition)
  | remove (tp : TablePosition)
  | clear
deriving DecidableEq, Repr

def perform : Op → SelectedCellsMap → SelectedCellsMap
  | .add cellSelectionModeEnabled tp, s => s.add cellSelectionModeEnabled tp
  | .addAll cells, s => s.addAll cells
  | .setAll cells, s => s.setAll cells
  | .remove tp, s => s.remove tp
  | .clear, s => s.clear

/-! ## The index and the list -/

/-- `isSelected` answers what the list says. -/
structure InStep (s : SelectedCellsMap) : Prop where
  cells : ∀ r c, 0 ≤ c → (s.isSelected r c = true ↔ ⟨r, c⟩ ∈ s.selectedCells)
  rows : ∀ r, s.isSelected r (-1) = true ↔ ∃ tp ∈ s.selectedCells, tp.row = r

structure Indexes (map : BitSetMap) (cells : List TablePosition) : Prop where
  columns : ∀ r (c : Nat), c ∈ map.bitset r ↔ ⟨r, c⟩ ∈ cells
  rows : ∀ r, (map r).isSome = true ↔ ∃ tp ∈ cells, tp.row = r

section Index
variable {map : BitSetMap} {cells : List TablePosition} {tp : TablePosition} {s : SelectedCellsMap}

theorem isSelected_cell (s : SelectedCellsMap) (r : Int) (c : Nat) :
    s.isSelected r c = true ↔ c ∈ s.selectedCellBitSetMap.bitset r := by
  have hc : ¬(c : Int) < 0 := by omega
  rw [isSelected, if_neg hc, BitSetMap.bitset]
  cases s.selectedCellBitSetMap r with
  | none => simp
  | some b => simp

theorem inStep_iff : s.InStep ↔ Indexes s.selectedCellBitSetMap s.selectedCells := by
  constructor
  · intro h
    exact ⟨fun r c => (isSelected_cell s r c).symm.trans (h.cells r c (Int.natCast_nonneg c)), h.rows⟩
  · intro h
    refine ⟨fun r c hc => ?_, h.rows⟩
    obtain ⟨n, rfl⟩ := Int.eq_ofNat_of_zero_le hc
    exact (isSelected_cell s r n).trans (h.columns r n)

theorem indexes_nil : Indexes (fun _ => none) [] := ⟨by simp [BitSetMap.bitset], by simp⟩

theorem bitset_put (map : BitSetMap) (row r : Int) (b : Finset Nat) :
    (map.put row b).bitset r = if r = row then b else map.bitset r := by
  by_cases h : r = row
  · subst h
    simp [BitSetMap.bitset, BitSetMap.put]
  · simp [BitSetMap.bitset, BitSetMap.put, h]

theorem isSome_put (map : BitSetMap) (row r : Int) (b : Finset Nat) :
    (map.put row b r).isSome = true ↔ r = row ∨ (map r).isSome = true := by
  by_cases h : r = row
  · subst h
    simp [BitSetMap.put]
  · simp [BitSetMap.put, h]

theorem put_bitset {row : Int} (h : (map row).isSome = true) : map.put row (map.bitset row) = map := by
  obtain ⟨b, hb⟩ := Option.isSome_iff_exists.mp h
  rw [BitSetMap.put, BitSetMap.bitset, hb]
  exact Function.update_eq_self_iff.mpr hb.symm

theorem Indexes.mark (h : Indexes map cells) (tp : TablePosition) : Indexes (map.mark tp) (cells ++ [tp]) := by
  obtain ⟨row, column⟩ := tp
  have hrows : ∀ r, (∃ p ∈ cells ++ [(⟨row, column⟩ : TablePosition)], p.row = r) ↔
      r = row ∨ ∃ p ∈ cells, p.row = r := by
    intro r
    simp only [List.mem_append, List.mem_singleton]
    grind
  refine ⟨fun r c => ?_, fun r => ?_⟩
  · rw [List.mem_append, List.mem_singleton, ← h.columns, TablePosition.mk.injEq, BitSetMap.mark]
    by_cases hneg : column < 0
    · simp only [if_pos hneg, bitset_put]
      grind
    · simp only [if_neg hneg, bitset_put]
      grind
  · rw [hrows, ← h.rows, BitSetMap.mark]
    by_cases hneg : column < 0
    · simp only [if_pos hneg, isSome_put]
    · simp only [if_neg hneg, isSome_put]

theorem Indexes.mark_all (h : Indexes map cells) (tps : List TablePosition) :
    Indexes (tps.foldl BitSetMap.mark map) (cells ++ tps) := by
  induction tps generalizing map cells with
  | nil => simpa using h
  | cons tp tps ih => simpa using ih (h.mark tp)

theorem add_cases (h : Indexes s.selectedCellBitSetMap s.selectedCells) (mode : Bool) (tp : TablePosition) :
    s.add mode tp = s ∨
      tp ∉ s.selectedCells ∧ s.add mode tp = ⟨s.selectedCells ++ [tp], s.selectedCellBitSetMap.mark tp⟩ := by
  obtain ⟨cells, map⟩ := s
  obtain ⟨row, column⟩ := tp
  have hsame : (map row).isSome = true →
      (⟨cells, map.put row (map.bitset row)⟩ : SelectedCellsMap) = ⟨cells, map⟩ := fun hsome => by rw [put_bitset hsome]
  have hrow : (⟨row, column⟩ : TablePosition) ∈ cells → (map row).isSome = true :=
    fun hmem => (h.rows row).mpr ⟨_, hmem, rfl⟩
  have hmark : map.mark ⟨row, column⟩ = if 0 ≤ column then
      (map.put row (map.bitset row)).put row (insert column.toNat (map.bitset row))
      else map.put row (map.bitset row) := by
    by_cases hc : 0 ≤ column
    · rw [if_pos hc, BitSetMap.mark, if_neg (not_lt.mpr hc), BitSetMap.put, BitSetMap.put, BitSetMap.put,
        Function.update_idem]
    · rw [if_neg hc, BitSetMap.mark, if_pos (not_le.mp hc)]
  rw [hmark]
  cases mode with
  | true =>
    by_cases hc : 0 ≤ column
    · have hcol := h.columns row column.toNat
      rw [Int.toNat_of_nonneg hc] at hcol
      by_cases hset : column.toNat ∈ map.bitset row
      · left
        simpa [add, hc, hset] using hsame (hrow (hcol.mp hset))
      · right
        exact ⟨fun hmem => hset (hcol.mpr hmem), by simp [add, hc, hset]⟩
    · by_cases hmem : (⟨row, column⟩ : TablePosition) ∈ cells
      · left
        simpa [add, hc, hmem] using hsame (hrow hmem)
      · right
        exact ⟨hmem, by simp [add, hc, hmem]⟩
  | false =>
    by_cases hnew : (map row).isNone = true
    · right
      refine ⟨fun hmem => by simp_all, ?_⟩
      by_cases hc : 0 ≤ column
      · simp [add, hc, hnew]
      · simp [add, hc, hnew]
    · left
      simpa [add, hnew] using hsame (by simpa [Option.isSome_iff_ne_none] using hnew)

end Index

/-! ## `remove` -/

def OtherCell (tp : TablePosition) (cells : List TablePosition) : Prop :=
  ∃ p ∈ cells, p.row = tp.row ∧ 0 ≤ p.column ∧ p ≠ tp

instance (tp : TablePosition) (cells : List TablePosition) : Decidable (OtherCell tp cells) :=
  inferInstanceAs (Decidable (∃ p ∈ cells, _))

/-- A cell to be removed is in the list once.  A row that is selected as a whole keeps a
selected cell, or loses its only position. -/
def Removable (tp : TablePosition) (cells : List TablePosition) : Prop :=
  (0 ≤ tp.column → cells.count tp ≤ 1) ∧
    ∀ p ∈ cells, p.row = tp.row → p.column < 0 → OtherCell tp cells ∨ p = tp ∧ cells.count tp = 1

instance (tp : TablePosition) (cells : List TablePosition) : Decidable (Removable tp cells) :=
  inferInstanceAs (Decidable (_ ∧ ∀ p ∈ cells, _))

section Remove
variable {tp : TablePosition} {s : SelectedCellsMap}

theorem mem_erase_iff {p : TablePosition} {cells : List TablePosition} :
    p ∈ cells.erase tp ↔ p ∈ cells ∧ (p = tp → 2 ≤ cells.count tp) := by
  by_cases hp : p = tp
  · subst hp
    have hpos : ∀ l : List TablePosition, p ∈ l ↔ 0 < l.count p := fun l => List.count_pos_iff.symm
    rw [hpos, hpos, List.count_erase_self]
    simp only [forall_const]
    omega
  · rw [List.mem_erase_of_ne hp]
    simp [hp]

theorem mem_without (h : Indexes s.selectedCellBitSetMap s.selectedCells) (tp : TablePosition) (c : Nat) :
    c ∈ s.selectedCellBitSetMap.without tp ↔ ⟨tp.row, c⟩ ∈ s.selectedCells ∧ ⟨tp.row, c⟩ ≠ tp := by
  have hcell : (⟨tp.row, c⟩ : TablePosition) = tp ↔ (c : Int) = tp.column := by cases tp; simp
  rw [← h.columns, ne_eq, hcell, BitSetMap.without]
  by_cases hc : 0 ≤ tp.column
  · rw [if_pos hc, Finset.mem_erase]
    have : c = tp.column.toNat ↔ (c : Int) = tp.column := by omega
    tauto
  · rw [if_neg hc]
    have : (c : Int) ≠ tp.column := by omega
    tauto

theorem without_ne_empty (h : Indexes s.selectedCellBitSetMap s.selectedCells) (tp : TablePosition) :
    s.selectedCellBitSetMap.without tp ≠ ∅ ↔ OtherCell tp s.selectedCells := by
  rw [← Finset.nonempty_iff_ne_empty]
  constructor
  · rintro ⟨c, hc⟩
    obtain ⟨hmem, hne⟩ := (mem_without h tp c).mp hc
    exact ⟨_, hmem, rfl, Int.natCast_nonneg c, hne⟩
  · rintro ⟨⟨row, column⟩, hmem, rfl, hc, hne⟩
    obtain ⟨n, rfl⟩ := Int.eq_ofNat_of_zero_le hc
    exact ⟨n, (mem_without h tp n).mpr ⟨hmem, hne⟩⟩

theorem remove_row (tp : TablePosition) (s : SelectedCellsMap) (r : Int) :
    (s.remove tp).selectedCellBitSetMap r =
      if r = tp.row then
        if (s.selectedCellBitSetMap r).isSome ∧ s.selectedCellBitSetMap.without tp ≠ ∅ then
          some (s.selectedCellBitSetMap.without tp)
        else none
      else s.selectedCellBitSetMap r := by
  simp only [remove, BitSetMap.remove, BitSetMap.put]
  cases hmap : s.selectedCellBitSetMap tp.row with
  | none =>
    by_cases hr : r = tp.row
    · subst hr
      simp [hmap]
    · simp [hr]
  | some b =>
    by_cases hr : r = tp.row
    · subst hr
      by_cases hempty : s.selectedCellBitSetMap.without tp = ∅
      · simp [hmap, hempty]
      · simp [hmap, hempty]
    · by_cases hempty : s.selectedCellBitSetMap.without tp = ∅
      · simp [hr, hempty]
      · simp [hr, hempty]

theorem remove_isSome (h : Indexes s.selectedCellBitSetMap s.selectedCells) (tp : TablePosition) (r : Int) :
    ((s.remove tp).selectedCellBitSetMap r).isSome = true ↔
      if r = tp.row then OtherCell tp s.selectedCells else ∃ p ∈ s.selectedCells, p.row = r := by
  rw [remove_row]
  by_cases hr : r = tp.row
  · have hsome : OtherCell tp s.selectedCells → (s.selectedCellBitSetMap r).isSome = true :=
      fun ⟨p, hp, hrow, _⟩ => (h.rows r).mpr ⟨p, hp, hrow.trans hr.symm⟩
    rw [if_pos hr, if_pos hr, ← without_ne_empty h]
    rw [← without_ne_empty h] at hsome
    grind
  · rw [if_neg hr, if_neg hr, h.rows]

theorem remove_bitset (h : Indexes s.selectedCellBitSetMap s.selectedCells) (tp : TablePosition) (r : Int) (c : Nat) :
    c ∈ (s.remove tp).selectedCellBitSetMap.bitset r ↔ ⟨r, c⟩ ∈ s.selectedCells ∧ ⟨r, c⟩ ≠ tp := by
  rw [BitSetMap.bitset, remove_row]
  by_cases hr : r = tp.row
  · subst hr
    rw [if_pos rfl, ← mem_without h]
    have hsome : c ∈ s.selectedCellBitSetMap.without tp → (s.selectedCellBitSetMap tp.row).isSome = true :=
      fun hc => (h.rows _).mpr ⟨_, ((mem_without h tp c).mp hc).1, rfl⟩
    by_cases hkept : (s.selectedCellBitSetMap tp.row).isSome = true ∧ s.selectedCellBitSetMap.without tp ≠ ∅
    · rw [if_pos hkept, Option.getD_some]
    · rw [if_neg hkept, Option.getD_none]
      refine ⟨fun hc => absurd hc (Finset.notMem_empty c), fun hc => ?_⟩
      exact absurd ⟨hsome hc, Finset.ne_empty_of_mem hc⟩ hkept
  · have hne : (⟨r, c⟩ : TablePosition) ≠ tp := fun heq => hr (heq ▸ rfl)
    rw [if_neg hr, ← h.columns, BitSetMap.bitset]
    exact (and_iff_left hne).symm

theorem remove_inStep_iff (h : s.InStep) (tp : TablePosition) :
    (s.remove tp).InStep ↔ Removable tp s.selectedCells := by
  have hindex := inStep_iff.mp h
  have hlist : (s.remove tp).selectedCells = s.selectedCells.erase tp := rfl
  rw [inStep_iff, hlist]
  constructor
  · intro h'
    have honce : 0 ≤ tp.column → s.selectedCells.count tp ≤ 1 := by
      intro hc
      obtain ⟨row, column⟩ := tp
      obtain ⟨n, rfl⟩ := Int.eq_ofNat_of_zero_le hc
      by_contra htwice
      have hmem : (⟨row, n⟩ : TablePosition) ∈ s.selectedCells.erase ⟨row, n⟩ :=
        mem_erase_iff.mpr ⟨List.count_pos_iff.mp (by omega), fun _ => by omega⟩
      exact ((remove_bitset hindex _ row n).mp ((h'.columns row n).mpr hmem)).2 rfl
    refine ⟨honce, fun p hp hrow hneg => ?_⟩
    by_cases hleft : p ∈ s.selectedCells.erase tp
    · left
      simpa using (remove_isSome hindex tp tp.row).mp ((h'.rows tp.row).mpr ⟨p, hleft, hrow⟩)
    · right
      have hpos := List.count_pos_iff.mpr hp
      rw [mem_erase_iff] at hleft
      grind
  · rintro ⟨honce, hwhole⟩
    refine ⟨fun r c => ?_, fun r => ?_⟩
    · rw [remove_bitset hindex, mem_erase_iff]
      have hcell : (⟨r, c⟩ : TablePosition) = tp → 0 ≤ tp.column := fun heq => heq ▸ Int.natCast_nonneg c
      grind
    · rw [remove_isSome hindex]
      by_cases hr : r = tp.row
      · rw [if_pos hr]
        constructor
        · rintro ⟨p, hp, hrow, -, hne⟩
          exact ⟨p, mem_erase_iff.mpr ⟨hp, fun heq => absurd heq hne⟩, hrow.trans hr.symm⟩
        · rintro ⟨p, hp, hrow⟩
          obtain ⟨hmem, htwice⟩ := mem_erase_iff.mp hp
          by_cases hneg : p.column < 0
          · rcases hwhole p hmem (hrow.trans hr) hneg with hother | ⟨heq, hcount⟩
            · exact hother
            · exact absurd (htwice heq) (by omega)
          · refine ⟨p, hmem, hrow.trans hr, not_lt.mp hneg, fun heq => ?_⟩
            have := honce (heq ▸ not_lt.mp hneg)
            exact absurd (htwice heq) (by omega)
      · rw [if_neg hr]
        simp only [mem_erase_iff]
        grind

end Remove

/-! ## Runs -/

/-- What a call has to leave: a map that is in step with the list, and no position twice that
`add` has put there. -/
def Right (op : Op) (s : SelectedCellsMap) : Prop :=
  (perform op s).InStep ∧ ∀ mode tp, op = .add mode tp →
    ∀ p, (perform op s).selectedCells.count p ≤ max 1 (s.selectedCells.count p)

def Safe : Op → SelectedCellsMap → Prop
  | .remove tp, s => Removable tp s.selectedCells
  | _, _ => True

instance : ∀ (op : Op) (s : SelectedCellsMap), Decidable (Safe op s)
  | .add .., _ => isTrue trivial
  | .addAll _, _ => isTrue trivial
  | .setAll _, _ => isTrue trivial
  | .remove tp, s => inferInstanceAs (Decidable (Removable tp s.selectedCells))
  | .clear, _ => isTrue trivial

def Op.Bulk : Op → Prop
  | .addAll _ | .setAll _ => True
  | _ => False

section Runs
variable {s : SelectedCellsMap}

theorem new_inStep : new.InStep := inStep_iff.mpr indexes_nil

theorem add_inStep (h : s.InStep) (mode : Bool) (tp : TablePosition) : (s.add mode tp).InStep := by
  have hindex := inStep_iff.mp h
  rcases add_cases hindex mode tp with heq | ⟨-, heq⟩
  · rw [heq]
    exact h
  · rw [heq]
    exact inStep_iff.mpr (hindex.mark tp)

theorem add_count (h : s.InStep) (mode : Bool) (tp p : TablePosition) :
    (s.add mode tp).selectedCells.count p ≤ max 1 (s.selectedCells.count p) := by
  rcases add_cases (inStep_iff.mp h) mode tp with heq | ⟨hnew, heq⟩
  · rw [heq]
    exact Nat.le_max_right ..
  · have hzero := List.count_eq_zero.mpr hnew
    rw [heq, List.count_append, List.count_singleton]
    by_cases hp : p = tp
    · subst hp
      simp [hzero]
    · simp [Ne.symm hp]

theorem right_iff (h : s.InStep) (op : Op) : Right op s ↔ Safe op s := by
  have hindex := inStep_iff.mp h
  cases op with
  | add mode tp => exact iff_of_true ⟨add_inStep h mode tp, fun _ _ _ => add_count h mode tp⟩ trivial
  | addAll cells => exact iff_of_true ⟨inStep_iff.mpr (hindex.mark_all cells), nofun⟩ trivial
  | setAll cells => exact iff_of_true ⟨inStep_iff.mpr (indexes_nil.mark_all cells), nofun⟩ trivial
  | remove tp => exact (and_iff_left nofun).trans (remove_inStep_iff h tp)
  | clear => exact iff_of_true ⟨new_inStep, nofun⟩ trivial

theorem nodup_of_single {ops : List Op} (hsingle : ∀ op ∈ ops, ¬op.Bulk) (hsafe : Guarded Safe perform ops s)
    (h : s.InStep) (hs : s.selectedCells.Nodup) : (exec perform ops s).selectedCells.Nodup := by
  induction ops generalizing s with
  | nil => exact hs
  | cons op ops ih =>
    have hright := (right_iff h op).mpr hsafe.1
    have hop : (perform op s).selectedCells.Nodup := by
      cases op with
      | add mode tp =>
        rw [List.nodup_iff_count_le_one] at hs ⊢
        intro p
        have hcount := hright.2 mode tp rfl p
        have := hs p
        omega
      | addAll cells => exact absurd trivial (hsingle _ List.mem_cons_self)
      | setAll cells => exact absurd trivial (hsingle _ List.mem_cons_self)
      | remove tp => exact hs.erase tp
      | clear => exact List.nodup_nil
    exact ih (fun op' hop' => hsingle op' (List.mem_cons_of_mem _ hop')) hsafe.2 hright.1 hop

/-- Over whole runs the map stays in step with the list, and `add` puts no position twice,
exactly if every removal is safe. -/
theorem run_right_iff (ops : List Op) :
    (Guarded Right perform ops new ↔ Guarded Safe perform ops new) ∧
      (Guarded Safe perform ops new → (∀ op ∈ ops, ¬op.Bulk) → (exec perform ops new).selectedCells.Nodup) :=
  ⟨guarded_iff_of_invariant InStep (fun _ _ _ hright => hright.1) (fun op _ h => right_iff h op) new_inStep,
    fun hsafe hsingle => nodup_of_single hsingle hsafe new_inStep List.nodup_nil⟩

/-- A row and a cell of it are selected, the cell is removed: the row is in the list, and not in
the map.  Selected again in row mode, it is in the list twice. -/
theorem removed_row :
    let ops : List Op := [.add true ⟨0, -1⟩, .add true ⟨0, 1⟩, .remove ⟨0, 1⟩]
    ¬Guarded Right perform ops new ∧ (exec perform ops new).isSelected 0 (-1) = false ∧
      (exec perform ops new).selectedCells = [⟨0, -1⟩] ∧
      (exec perform (ops ++ [.add false ⟨0, -1⟩]) new).selectedCells = [⟨0, -1⟩, ⟨0, -1⟩] := by
  refine ⟨fun h => ?_, by decide, by decide, by decide⟩
  have hsafe := (guarded_iff_of_invariant InStep (fun _ _ _ hright => hright.1) (fun op _ h => right_iff h op)
    new_inStep).mp h
  exact absurd hsafe (by decide)

end Runs

end SelectedCellsMap
end OpenJfx.Controls
