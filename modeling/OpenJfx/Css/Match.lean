import OpenJfx.Css.CompoundSelector
import Mathlib.Data.Finset.Card
import Mathlib.Order.Compare

/-! # `javafx.css.Match`

A match packs three counts of its selector into one `int` and is compared by it.
The packed number orders matches like the counts themselves as long as no count
leaves its field, and as long as all pseudo-classes have been counted: a compound
selector leaves out `:dir()`, and what stands in several parts is counted once. -/
set_option autoImplicit false
namespace OpenJfx.Css
open OpenJfx.Lib OpenJfx.Lib.WordSet

structure Match where
  selector : Selector
  pseudoClasses : List Long
  idCount : Nat
  styleClassCount : Nat
  specificity : BitVec 32
deriving DecidableEq

namespace Match

/-- `nPseudoClasses`. -/
def pseudoClassCount (selector : Selector) (pseudoClasses : List Long) : Nat :=
  match selector with
  | .simple simple =>
      if simple.nodeOrientation ≠ .inherit then BitSet.size pseudoClasses + 1 else BitSet.size pseudoClasses
  | .compound _ => BitSet.size pseudoClasses

/-- The constructor. -/
def create (selector : Selector) (pseudoClasses : List Long) (idCount styleClassCount : Nat) : Match :=
  { selector := selector
    pseudoClasses := pseudoClasses
    idCount := idCount
    styleClassCount := styleClassCount
    specificity := BitVec.ofNat 32 idCount <<< 8 ||| BitVec.ofNat 32 styleClassCount <<< 4 |||
      BitVec.ofNat 32 (pseudoClassCount selector pseudoClasses) }

def compareTo (m o : Match) : Int := (m.specificity - o.specificity).toInt

end Match

def SimpleSelector.createMatch (s : SimpleSelector) : Match :=
  Match.create (.simple s) s.pseudoClassState (if s.matchOnId then 1 else 0) (BitSet.size s.styleClassSet)

namespace CompoundSelector

/-- The loop over the parts: all pseudo-classes, ids and style classes. -/
def gather (n : Names) : List SimpleSelector → List Long × Nat × Nat → List Long × Nat × Nat
  | [], counted => counted
  | sel :: rest, (allPseudoClasses, idCount, styleClassCount) =>
      let m := sel.createMatch
      gather n rest ((BitSet.addAll n.pseudoClasses false (some m.pseudoClasses) allPseudoClasses).bits,
        idCount + m.idCount, styleClassCount + m.styleClassCount)

def createMatch (n : Names) (c : CompoundSelector) : Match :=
  let counted := gather n c.selectors ([], 0, 0)
  Match.create (.compound c) counted.1 counted.2.1 counted.2.2

end CompoundSelector

def Selector.createMatch (n : Names) : Selector → Match
  | .simple s => s.createMatch
  | .compound c => c.createMatch n

/-! ## Counts -/

structure Counts where
  ids : Nat
  styleClasses : Nat
  pseudoClasses : Nat
deriving DecidableEq, Repr

namespace Counts

/-- The lexicographic order. -/
def lex (a b : Counts) : Ordering :=
  ((compare a.ids b.ids).then (compare a.styleClasses b.styleClasses)).then
    (compare a.pseudoClasses b.pseudoClasses)

def pack (a : Counts) : BitVec 32 :=
  BitVec.ofNat 32 a.ids <<< 8 ||| BitVec.ofNat 32 a.styleClasses <<< 4 ||| BitVec.ofNat 32 a.pseudoClasses

structure InRange (a : Counts) : Prop where
  ids : a.ids < 2 ^ 23
  styleClasses : a.styleClasses < 16
  pseudoClasses : a.pseudoClasses < 16

theorem pack_toNat {a : Counts} (h : a.InRange) :
    a.pack.toNat = a.ids * 256 + a.styleClasses * 16 + a.pseudoClasses := by
  obtain ⟨hids, hstyle, hpseudo⟩ := h
  have hfirst : a.ids * 256 ||| a.styleClasses * 16 = a.ids * 256 + a.styleClasses * 16 := by
    have hadd := @Nat.two_pow_add_eq_or_of_lt 8 (a.styleClasses * 16) (by omega) a.ids
    rw [Nat.mul_comm (2 ^ 8)] at hadd
    exact hadd.symm
  have hsecond : (a.ids * 256 + a.styleClasses * 16) ||| a.pseudoClasses =
      a.ids * 256 + a.styleClasses * 16 + a.pseudoClasses := by
    have hadd := @Nat.two_pow_add_eq_or_of_lt 4 a.pseudoClasses (by omega) (a.ids * 16 + a.styleClasses)
    rw [show 2 ^ 4 * (a.ids * 16 + a.styleClasses) = a.ids * 256 + a.styleClasses * 16 by omega] at hadd
    exact hadd.symm
  have hshiftIds : (BitVec.ofNat 32 a.ids <<< 8).toNat = a.ids * 256 := by
    rw [BitVec.toNat_shiftLeft, BitVec.toNat_ofNat, Nat.mod_eq_of_lt (by omega), Nat.shiftLeft_eq,
      Nat.mod_eq_of_lt (by omega)]
  have hshiftStyle : (BitVec.ofNat 32 a.styleClasses <<< 4).toNat = a.styleClasses * 16 := by
    rw [BitVec.toNat_shiftLeft, BitVec.toNat_ofNat, Nat.mod_eq_of_lt (by omega), Nat.shiftLeft_eq,
      Nat.mod_eq_of_lt (by omega)]
  rw [pack, BitVec.toNat_or, BitVec.toNat_or, hshiftIds, hshiftStyle, BitVec.toNat_ofNat,
    Nat.mod_eq_of_lt (by omega), hfirst, hsecond]

theorem toInt_sub_of_lt {x y : BitVec 32} (hx : x.toNat < 2 ^ 31) (hy : y.toNat < 2 ^ 31) :
    (x - y).toInt = (x.toNat : Int) - y.toNat := by
  rw [BitVec.toInt_sub, BitVec.toInt_eq_toNat_of_lt (by omega), BitVec.toInt_eq_toNat_of_lt (by omega),
    Int.bmod_eq_of_le (by omega) (by omega)]

theorem compare_sub (x y : Nat) : compare ((x : Int) - y) 0 = compare x y := by
  rcases lt_trichotomy x y with h | h | h
  · rw [compare_lt_iff_lt.mpr h, compare_lt_iff_lt.mpr (by omega)]
  · rw [compare_eq_iff_eq.mpr h, compare_eq_iff_eq.mpr (by omega)]
  · rw [compare_gt_iff_gt.mpr h, compare_gt_iff_gt.mpr (by omega)]

theorem InRange.pack_lt {a : Counts} (h : a.InRange) : a.pack.toNat < 2 ^ 31 := by
  obtain ⟨hids, hstyle, hpseudo⟩ := h
  rw [pack_toNat ⟨hids, hstyle, hpseudo⟩]
  omega

theorem compare_pack {a b : Counts} (ha : a.InRange) (hb : b.InRange) :
    compare (a.pack - b.pack).toInt 0 = a.lex b := by
  rw [toInt_sub_of_lt ha.pack_lt hb.pack_lt, compare_sub, pack_toNat ha, pack_toNat hb, lex]
  obtain ⟨-, hastyle, hapseudo⟩ := ha
  obtain ⟨-, hbstyle, hbpseudo⟩ := hb
  rcases lt_trichotomy a.ids b.ids with h | h | h
  · rw [compare_lt_iff_lt.mpr h, compare_lt_iff_lt.mpr (by omega)]
    rfl
  · rw [compare_eq_iff_eq.mpr h]
    rcases lt_trichotomy a.styleClasses b.styleClasses with h' | h' | h'
    · rw [compare_lt_iff_lt.mpr h', compare_lt_iff_lt.mpr (by omega)]
      rfl
    · rw [compare_eq_iff_eq.mpr h', h, h']
      rcases lt_trichotomy a.pseudoClasses b.pseudoClasses with h'' | h'' | h''
      · rw [compare_lt_iff_lt.mpr h'', compare_lt_iff_lt.mpr (by omega)]
        rfl
      · rw [h'', compare_eq_iff_eq.mpr rfl, compare_eq_iff_eq.mpr rfl]
        rfl
      · rw [compare_gt_iff_gt.mpr h'', compare_gt_iff_gt.mpr (by omega)]
        rfl
    · rw [compare_gt_iff_gt.mpr h', compare_gt_iff_gt.mpr (by omega)]
      rfl
  · rw [compare_gt_iff_gt.mpr h, compare_gt_iff_gt.mpr (by omega)]
    rfl

theorem lex_eq_iff {a b : Counts} : a.lex b = .eq ↔ a = b := by
  rw [lex, Ordering.then_eq_eq, Ordering.then_eq_eq, compare_eq_iff_eq, compare_eq_iff_eq, compare_eq_iff_eq]
  constructor
  · rintro ⟨⟨hids, hstyle⟩, hpseudo⟩
    cases a
    cases b
    dsimp only at hids hstyle hpseudo
    rw [hids, hstyle, hpseudo]
  · rintro rfl
    exact ⟨⟨rfl, rfl⟩, rfl⟩

theorem lex_zero_ne_lt (a : Counts) : a.lex ⟨0, 0, 0⟩ ≠ .lt := by
  intro h
  rw [lex, Ordering.then_eq_lt, Ordering.then_eq_lt, compare_lt_iff_lt, compare_lt_iff_lt, compare_lt_iff_lt] at h
  rcases h with (h | ⟨-, h⟩) | ⟨-, h⟩
  · exact Nat.not_lt_zero _ h
  · exact Nat.not_lt_zero _ h
  · exact Nat.not_lt_zero _ h

theorem exists_pack {v : BitVec 32} (hv : v.toNat < 2 ^ 31) : ∃ a : Counts, a.InRange ∧ a.pack = v := by
  have hrange : (⟨v.toNat / 256, v.toNat / 16 % 16, v.toNat % 16⟩ : Counts).InRange :=
    ⟨by dsimp only; omega, by dsimp only; omega, by dsimp only; omega⟩
  refine ⟨_, hrange, BitVec.eq_of_toNat_eq ?_⟩
  rw [pack_toNat hrange]
  dsimp only
  omega

section Exact
variable {α : Type} {counted actual : α → Counts}

/-- Objects are compared by the specificity of what was counted.  One of them is
ordered exactly against all that fit just if it fits itself: its counts are in
range and all has been counted. -/
theorem exact_iff (hids : ∀ x, (counted x).ids = (actual x).ids)
    (hstyle : ∀ x, (counted x).styleClasses = (actual x).styleClasses)
    (hpseudo : ∀ x, (counted x).pseudoClasses ≤ (actual x).pseudoClasses)
    (sample : ∀ a : Counts, a.InRange → ∃ x, counted x = a ∧ actual x = a) (x : α) :
    (∀ y, (actual y).InRange ∧ counted y = actual y →
      compare ((counted x).pack - (counted y).pack).toInt 0 = (actual x).lex (actual y)) ↔
      (actual x).InRange ∧ counted x = actual x := by
  constructor
  · intro h
    by_cases hv : (counted x).pack.toNat < 2 ^ 31
    · -- against the counts in range with the same specificity
      obtain ⟨a, hrange, hpack⟩ := exists_pack hv
      obtain ⟨y, hcounted, hactual⟩ := sample a hrange
      have hordered := h y (by rw [hactual, hcounted]; exact ⟨hrange, rfl⟩)
      rw [hcounted, hpack, BitVec.sub_self, hactual] at hordered
      have heq : actual x = a := lex_eq_iff.mp (hordered.symm.trans (compare_eq_iff_eq.mpr rfl))
      have hcountedRange : (counted x).InRange := by
        have hle := hpseudo x
        rw [heq] at hle
        refine ⟨?_, ?_, Nat.lt_of_le_of_lt hle hrange.pseudoClasses⟩
        · rw [hids, heq]
          exact hrange.ids
        · rw [hstyle, heq]
          exact hrange.styleClasses
      refine ⟨heq ▸ hrange, ?_⟩
      rw [heq, ← lex_eq_iff, ← compare_pack hcountedRange hrange, hpack, BitVec.sub_self]
      exact compare_eq_iff_eq.mpr rfl
    · -- against the counts of a selector without conditions
      obtain ⟨y, hcounted, hactual⟩ := sample ⟨0, 0, 0⟩ ⟨by decide, by decide, by decide⟩
      have hordered := h y (by rw [hactual, hcounted]; exact ⟨⟨by decide, by decide, by decide⟩, rfl⟩)
      have hzero : (⟨0, 0, 0⟩ : Counts).pack = 0#32 := by decide
      have hnegative : (counted x).pack.toInt < 0 := by
        rw [BitVec.toInt_eq_toNat_cond, if_neg (by omega)]
        have hlt := (counted x).pack.isLt
        omega
      rw [hcounted, hzero, BitVec.sub_zero, hactual, compare_lt_iff_lt.mpr hnegative] at hordered
      exact absurd hordered.symm (lex_zero_ne_lt _)
  · rintro ⟨hrange, heq⟩ y ⟨hrange', heq'⟩
    rw [heq, heq']
    exact compare_pack hrange hrange'

end Exact

end Counts

/-! ## What a selector has -/

/-- The pseudo-classes of a part; `:dir()` is one. -/
def SimpleSelector.dirCount (s : SimpleSelector) : Nat := if s.nodeOrientation ≠ .inherit then 1 else 0

def SimpleSelector.idCount (s : SimpleSelector) : Nat := if s.id ≠ "" then 1 else 0

namespace Selector

/-- The counts over the parts: what stands in two parts counts twice. -/
def counts (sel : Selector) : Counts :=
  { ids := (sel.simpleSelectors.map SimpleSelector.idCount).sum
    styleClasses := (sel.simpleSelectors.map (fun s => (members s.styleClassSet).length)).sum
    pseudoClasses :=
      (sel.simpleSelectors.map (fun s => (members s.pseudoClassState).length + s.dirCount)).sum }

/-- The counts with each pseudo-class once, and `:dir()` once. -/
def countsOnce (sel : Selector) : Counts :=
  { sel.counts with
    pseudoClasses :=
      (sel.simpleSelectors.flatMap (fun s => members s.pseudoClassState)).dedup.length +
        (if sel.simpleSelectors.any (fun s => decide (s.nodeOrientation ≠ .inherit)) = true then 1 else 0) }

/-- What `createMatch` counts. -/
def counted (n : Names) (sel : Selector) : Counts :=
  ⟨(sel.createMatch n).idCount, (sel.createMatch n).styleClassCount,
    Match.pseudoClassCount sel (sel.createMatch n).pseudoClasses⟩

theorem specificity_eq (n : Names) (sel : Selector) : (sel.createMatch n).specificity = (sel.counted n).pack := by
  cases sel with
  | simple s => rfl
  | compound c => rfl

end Selector

/-! ## Unions -/

namespace BitSet

def memberSet (bits : List Long) : Finset Nat := (members bits).toFinset

theorem mem_memberSet {bits : List Long} {i : Nat} : i ∈ memberSet bits ↔ has bits i = true := by
  rw [memberSet, List.mem_toFinset, mem_members (by decide)]

theorem card_memberSet (bits : List Long) : (memberSet bits).card = size bits := by
  rw [memberSet, List.toFinset_card_of_nodup (members_nodup bits), length_members]

theorem memberSet_addAll (r : Registry) (hasListeners : Bool) (a b : List Long) :
    memberSet (addAll r hasListeners (some b) a).bits = memberSet a ∪ memberSet b := by
  ext i
  rw [Finset.mem_union, mem_memberSet, mem_memberSet, mem_memberSet, has_addAll, Bool.or_eq_true]

end BitSet

section Unions
variable {α : Type} [DecidableEq α]

def unite : List (Finset α) → Finset α → Finset α
  | [], acc => acc
  | s :: rest, acc => unite rest (acc ∪ s)

theorem mem_unite {ss : List (Finset α)} {acc : Finset α} {x : α} :
    x ∈ unite ss acc ↔ x ∈ acc ∨ ∃ s ∈ ss, x ∈ s := by
  induction ss generalizing acc with
  | nil => simp [unite]
  | cons s ss ih =>
    rw [unite, ih, Finset.mem_union, List.exists_mem_cons_iff, or_assoc]

theorem card_unite (ss : List (Finset α)) (acc : Finset α) :
    (unite ss acc).card ≤ acc.card + (ss.map Finset.card).sum ∧
      ((unite ss acc).card = acc.card + (ss.map Finset.card).sum ↔
        (∀ s ∈ ss, Disjoint acc s) ∧ ss.Pairwise Disjoint) := by
  induction ss generalizing acc with
  | nil => exact ⟨Nat.le_refl _, by simp [unite]⟩
  | cons s ss ih =>
    obtain ⟨hle, heq⟩ := ih (acc ∪ s)
    have hunion := Finset.card_union_le acc s
    rw [unite, List.map_cons, List.sum_cons, List.forall_mem_cons, List.pairwise_cons]
    refine ⟨by omega, ?_⟩
    constructor
    · intro htotal
      have hdisjoint : Disjoint acc s := Finset.card_union_eq_card_add_card.mp (by omega)
      obtain ⟨hall, hpairs⟩ := heq.mp (by omega)
      refine ⟨⟨hdisjoint, fun t ht => ?_⟩, fun t ht => ?_, hpairs⟩
      · exact (Finset.disjoint_union_left.mp (hall t ht)).1
      · exact (Finset.disjoint_union_left.mp (hall t ht)).2
    · rintro ⟨⟨hdisjoint, hall⟩, hnext, hpairs⟩
      have hcard := Finset.card_union_eq_card_add_card.mpr hdisjoint
      have hrest := heq.mpr ⟨fun t ht => Finset.disjoint_union_left.mpr ⟨hall t ht, hnext t ht⟩, hpairs⟩
      omega

end Unions

/-! ## What is counted -/

namespace CompoundSelector

theorem gather_spec (n : Names) (parts : List SimpleSelector) (all : List Long) (ids styleClasses : Nat) :
    BitSet.memberSet (gather n parts (all, ids, styleClasses)).1 =
        unite (parts.map (fun s => BitSet.memberSet s.pseudoClassState)) (BitSet.memberSet all) ∧
      (gather n parts (all, ids, styleClasses)).2.1 = ids + (parts.map SimpleSelector.idCount).sum ∧
      (gather n parts (all, ids, styleClasses)).2.2 =
        styleClasses + (parts.map (fun s => (members s.styleClassSet).length)).sum := by
  induction parts generalizing all ids styleClasses with
  | nil => exact ⟨rfl, rfl, rfl⟩
  | cons s parts ih =>
    obtain ⟨hall, hids, hstyle⟩ := ih (BitSet.addAll n.pseudoClasses false (some s.pseudoClassState) all).bits
      (ids + s.createMatch.idCount) (styleClasses + s.createMatch.styleClassCount)
    have hid : s.createMatch.idCount = s.idCount := by
      rw [SimpleSelector.idCount]
      change (if decide (s.id ≠ "") = true then 1 else 0) = _
      simp only [decide_eq_true_eq]
    have hclass : s.createMatch.styleClassCount = (members s.styleClassSet).length := (BitSet.length_members _).symm
    rw [BitSet.memberSet_addAll] at hall
    rw [List.map_cons, List.map_cons, List.map_cons, List.sum_cons, List.sum_cons, unite, ← hid, ← hclass,
      ← Nat.add_assoc, ← Nat.add_assoc]
    exact ⟨hall, hids, hstyle⟩

end CompoundSelector

namespace Selector

theorem counted_ids (n : Names) (sel : Selector) : (sel.counted n).ids = sel.counts.ids := by
  cases sel with
  | simple s =>
    change (if decide (s.id ≠ "") = true then 1 else 0) = (if s.id ≠ "" then 1 else 0) + 0
    simp only [decide_eq_true_eq, Nat.add_zero]
  | compound c =>
    have hids := (CompoundSelector.gather_spec n c.selectors [] 0 0).2.1
    rw [Nat.zero_add] at hids
    exact hids

theorem counted_styleClasses (n : Names) (sel : Selector) : (sel.counted n).styleClasses = sel.counts.styleClasses := by
  cases sel with
  | simple s => exact (BitSet.length_members _).symm
  | compound c =>
    have hstyle := (CompoundSelector.gather_spec n c.selectors [] 0 0).2.2
    rw [Nat.zero_add] at hstyle
    exact hstyle

theorem counted_simple (n : Names) (s : SimpleSelector) :
    ((Selector.simple s).counted n).pseudoClasses = (members s.pseudoClassState).length + s.dirCount := by
  rw [BitSet.length_members, SimpleSelector.dirCount]
  change (if s.nodeOrientation ≠ .inherit then BitSet.size s.pseudoClassState + 1 else BitSet.size s.pseudoClassState) = _
  split
  · rfl
  · rfl

theorem counted_compound (n : Names) (c : CompoundSelector) :
    ((Selector.compound c).counted n).pseudoClasses =
      (unite (c.selectors.map (fun s => BitSet.memberSet s.pseudoClassState)) ∅).card := by
  have hall := (CompoundSelector.gather_spec n c.selectors [] 0 0).1
  have hempty : BitSet.memberSet [] = ∅ := rfl
  rw [hempty] at hall
  rw [← hall, BitSet.card_memberSet]
  rfl

/-! ## Whether all is counted -/

/-- No part of a compound selector has `:dir()`. -/
def NoDir : Selector → Prop
  | .simple _ => True
  | .compound c => ∀ p ∈ c.selectors, p.nodeOrientation = .inherit

def Apart : Selector → Prop
  | .simple _ => True
  | .compound c => c.selectors.Pairwise (fun p q => ∀ i, has p.pseudoClassState i = true → has q.pseudoClassState i = false)

theorem sum_dirCount_eq_zero_iff {parts : List SimpleSelector} :
    (parts.map SimpleSelector.dirCount).sum = 0 ↔ ∀ p ∈ parts, p.nodeOrientation = .inherit := by
  rw [List.sum_eq_zero_iff_forall_eq_nat, List.forall_mem_map]
  refine forall₂_congr (fun p _ => ?_)
  rw [SimpleSelector.dirCount]
  split
  · rename_i h
    exact ⟨fun h' => absurd h' Nat.one_ne_zero, fun h' => absurd h' h⟩
  · rename_i h
    exact ⟨fun _ => not_not.mp h, fun _ => rfl⟩

theorem pairwise_disjoint_iff {parts : List SimpleSelector} :
    (parts.map (fun s => BitSet.memberSet s.pseudoClassState)).Pairwise Disjoint ↔
      parts.Pairwise (fun p q => ∀ i, has p.pseudoClassState i = true → has q.pseudoClassState i = false) := by
  rw [List.pairwise_map]
  apply List.Pairwise.iff
  intro p q
  rw [Finset.disjoint_left]
  refine forall_congr' (fun i => ?_)
  rw [BitSet.mem_memberSet, BitSet.mem_memberSet, Bool.not_eq_true]

theorem sum_pseudoClasses (parts : List SimpleSelector) :
    (parts.map (fun s => (members s.pseudoClassState).length + s.dirCount)).sum =
      ((parts.map (fun s => BitSet.memberSet s.pseudoClassState)).map Finset.card).sum +
        (parts.map SimpleSelector.dirCount).sum := by
  induction parts with
  | nil => rfl
  | cons p parts ih =>
    rw [List.map_cons, List.sum_cons, ih, List.map_cons, List.map_cons, List.sum_cons, List.map_cons, List.sum_cons,
      BitSet.card_memberSet, BitSet.length_members]
    omega

theorem counted_le_counts (n : Names) (sel : Selector) :
    (sel.counted n).pseudoClasses ≤ sel.counts.pseudoClasses := by
  cases sel with
  | simple s =>
    rw [counted_simple]
    exact Nat.le_refl _
  | compound c =>
    have hle := (card_unite (c.selectors.map (fun s => BitSet.memberSet s.pseudoClassState)) ∅).1
    rw [Finset.card_empty, Nat.zero_add] at hle
    rw [counted_compound]
    change _ ≤ (c.selectors.map (fun s => (members s.pseudoClassState).length + s.dirCount)).sum
    rw [sum_pseudoClasses]
    omega

theorem counts_ext {a b : Counts} (hids : a.ids = b.ids) (hstyle : a.styleClasses = b.styleClasses) :
    a = b ↔ a.pseudoClasses = b.pseudoClasses := by
  cases a
  cases b
  dsimp only at hids hstyle ⊢
  rw [hids, hstyle, Counts.mk.injEq]
  exact ⟨fun h => h.2.2, fun h => ⟨rfl, rfl, h⟩⟩

theorem counted_eq_counts_iff (n : Names) (sel : Selector) :
    sel.counted n = sel.counts ↔ sel.NoDir ∧ sel.Apart := by
  rw [counts_ext (counted_ids n sel) (counted_styleClasses n sel)]
  cases sel with
  | simple s =>
    rw [counted_simple]
    exact ⟨fun _ => ⟨trivial, trivial⟩, fun _ => rfl⟩
  | compound c =>
    obtain ⟨hle, heq⟩ := card_unite (c.selectors.map (fun s => BitSet.memberSet s.pseudoClassState)) ∅
    rw [Finset.card_empty, Nat.zero_add] at hle heq
    rw [counted_compound, NoDir, Apart, ← pairwise_disjoint_iff, ← sum_dirCount_eq_zero_iff]
    change _ = (c.selectors.map (fun s => (members s.pseudoClassState).length + s.dirCount)).sum ↔ _
    rw [sum_pseudoClasses]
    constructor
    · intro h
      exact ⟨by omega, (heq.mp (by omega)).2⟩
    · rintro ⟨hdir, hdisjoint⟩
      have hcard := heq.mpr ⟨fun s _ => Finset.disjoint_empty_left s, hdisjoint⟩
      omega

theorem countsOnce_pseudoClasses (parts : List SimpleSelector) :
    (parts.flatMap (fun s => members s.pseudoClassState)).dedup.length =
      (unite (parts.map (fun s => BitSet.memberSet s.pseudoClassState)) ∅).card := by
  rw [← List.card_toFinset]
  congr 1
  ext i
  rw [List.mem_toFinset, List.mem_flatMap, mem_unite]
  simp only [List.mem_map, exists_exists_and_eq_and, BitSet.memberSet, List.mem_toFinset, Finset.notMem_empty, false_or]

theorem any_dir_iff {parts : List SimpleSelector} :
    (parts.any (fun s => decide (s.nodeOrientation ≠ .inherit)) = true) ↔
      ¬∀ p ∈ parts, p.nodeOrientation = .inherit := by
  rw [List.any_eq_true]
  simp only [decide_eq_true_eq, not_forall, exists_prop]

theorem counted_once (n : Names) (sel : Selector) :
    (sel.counted n).pseudoClasses ≤ sel.countsOnce.pseudoClasses ∧
      (sel.counted n = sel.countsOnce ↔ sel.NoDir) := by
  have hext : sel.counted n = sel.countsOnce ↔ (sel.counted n).pseudoClasses = sel.countsOnce.pseudoClasses :=
    counts_ext (counted_ids n sel) (counted_styleClasses n sel)
  rw [hext]
  have honce : sel.countsOnce.pseudoClasses =
      (unite (sel.simpleSelectors.map (fun s => BitSet.memberSet s.pseudoClassState)) ∅).card +
        (if sel.simpleSelectors.any (fun s => decide (s.nodeOrientation ≠ .inherit)) = true then 1 else 0) := by
    rw [← countsOnce_pseudoClasses]
    rfl
  rw [honce]
  cases sel with
  | simple s =>
    have hone : (unite ([s].map (fun s => BitSet.memberSet s.pseudoClassState)) ∅).card =
        (members s.pseudoClassState).length := by
      rw [List.map_singleton, unite, unite, Finset.empty_union, BitSet.card_memberSet, BitSet.length_members]
    have hany : (([s].any (fun s => decide (s.nodeOrientation ≠ .inherit))) = true) ↔ s.nodeOrientation ≠ .inherit := by
      rw [any_dir_iff, List.forall_mem_singleton]
    rw [counted_simple, SimpleSelector.dirCount, simpleSelectors, hone]
    simp only [hany]
    exact ⟨Nat.le_refl _, fun _ => trivial, fun _ => trivial⟩
  | compound c =>
    rw [counted_compound, NoDir, simpleSelectors]
    refine ⟨Nat.le_add_right _ _, ?_⟩
    by_cases hdir : ∀ p ∈ c.selectors, p.nodeOrientation = .inherit
    · rw [if_neg (fun hany => any_dir_iff.mp hany hdir)]
      exact ⟨fun _ => hdir, fun _ => rfl⟩
    · rw [if_pos (any_dir_iff.mpr hdir)]
      exact ⟨fun h => by omega, fun h => absurd h hdir⟩

/-! ## Selectors with given counts -/

def lowBits (k : Fin 16) : List Long := if k = 0 then [] else [BitVec.ofNat 64 (2 ^ k.val - 1)]

theorem trimmed_lowBits : ∀ k, Trimmed (lowBits k) := by decide +kernel

theorem length_lowBits : ∀ k, (members (lowBits k)).length = k := by decide +kernel

def idPart : SimpleSelector := ⟨"*", [], [], .inherit, "a", trimmed_nil, trimmed_nil⟩

def classPart (styleClasses pseudoClasses : Fin 16) : SimpleSelector :=
  ⟨"*", lowBits styleClasses, lowBits pseudoClasses, .inherit, "", trimmed_lowBits _, trimmed_lowBits _⟩

def sample (ids : Nat) (styleClasses pseudoClasses : Fin 16) : Selector :=
  .compound ⟨List.replicate ids idPart ++ [classPart styleClasses pseudoClasses], List.replicate ids .descendant⟩

theorem counts_sample (ids : Nat) (styleClasses pseudoClasses : Fin 16) :
    (sample ids styleClasses pseudoClasses).counts = ⟨ids, styleClasses, pseudoClasses⟩ := by
  have hid : idPart.idCount = 1 := by decide
  have hclass : (classPart styleClasses pseudoClasses).idCount = 0 := rfl
  have hsum : ∀ f : SimpleSelector → Nat,
      ((List.replicate ids idPart ++ [classPart styleClasses pseudoClasses]).map f).sum =
        ids * f idPart + f (classPart styleClasses pseudoClasses) := by
    intro f
    rw [List.map_append, List.map_replicate, List.sum_append, List.sum_replicate_nat, List.map_singleton,
      List.sum_singleton]
  have hstyle : (members idPart.styleClassSet).length = 0 := rfl
  have hpseudo : (members idPart.pseudoClassState).length + idPart.dirCount = 0 := rfl
  rw [counts, sample, simpleSelectors, hsum, hsum, hsum, hid, hclass, hstyle, hpseudo]
  have hlow := length_lowBits styleClasses
  have hlow' := length_lowBits pseudoClasses
  change (⟨ids * 1 + 0, ids * 0 + (members (lowBits styleClasses)).length,
    ids * 0 + ((members (lowBits pseudoClasses)).length + 0)⟩ : Counts) = _
  rw [hlow, hlow', Counts.mk.injEq]
  exact ⟨by omega, by omega, by omega⟩

theorem sample_plain (ids : Nat) (styleClasses pseudoClasses : Fin 16) :
    (sample ids styleClasses pseudoClasses).NoDir ∧ (sample ids styleClasses pseudoClasses).Apart := by
  constructor
  · intro p hp
    rcases List.mem_append.mp hp with hp | hp
    · rw [(List.mem_replicate.mp hp).2]
      rfl
    · rw [List.mem_singleton.mp hp]
      rfl
  · have hnone : ∀ i, has idPart.pseudoClassState i = false := fun i => has_nil i
    refine List.pairwise_append.mpr ⟨List.pairwise_replicate.mpr (Or.inr (fun i _ => hnone i)),
      List.pairwise_singleton _ _, ?_⟩
    intro p hp q _ i hi
    rw [(List.mem_replicate.mp hp).2, hnone] at hi
    cases hi

theorem exists_sample (n : Names) {a : Counts} (h : a.InRange) :
    ∃ sel : Selector, sel.counted n = a ∧ sel.counts = a ∧ sel.countsOnce = a := by
  have hcounts := counts_sample a.ids ⟨a.styleClasses, h.styleClasses⟩ ⟨a.pseudoClasses, h.pseudoClasses⟩
  obtain ⟨hdir, hapart⟩ := sample_plain a.ids ⟨a.styleClasses, h.styleClasses⟩ ⟨a.pseudoClasses, h.pseudoClasses⟩
  have hcounted := (counted_eq_counts_iff n _).mpr ⟨hdir, hapart⟩
  exact ⟨_, hcounted.trans hcounts, hcounts, ((counted_once n _).2.mpr hdir).symm.trans (hcounted.trans hcounts)⟩

/-! ## The order of matches -/

/-- The match of a selector is ordered exactly against those of all selectors with
fewer than `2 ^ 23` ids, 16 style classes and 16 pseudo-classes of which all are
counted, if and only if it is one of these: no `:dir()` and, when it counts for
each part, no pseudo-class in two parts of a compound selector.  The second
statement is about pseudo-classes that count once however many parts have them. -/
theorem compareTo_lexicographic_iff (n : Names) (s : Selector) :
    ((∀ t : Selector, t.counts.InRange ∧ t.NoDir ∧ t.Apart →
        compare ((s.createMatch n).compareTo (t.createMatch n)) 0 = s.counts.lex t.counts) ↔
      s.counts.InRange ∧ s.NoDir ∧ s.Apart) ∧
    ((∀ t : Selector, t.countsOnce.InRange ∧ t.NoDir →
        compare ((s.createMatch n).compareTo (t.createMatch n)) 0 = s.countsOnce.lex t.countsOnce) ↔
      s.countsOnce.InRange ∧ s.NoDir) := by
  have hcompare : ∀ t : Selector, (s.createMatch n).compareTo (t.createMatch n) =
      ((s.counted n).pack - (t.counted n).pack).toInt := by
    intro t
    rw [Match.compareTo, specificity_eq, specificity_eq]
  constructor
  · have hexact := @Counts.exact_iff _ (counted n) counts (counted_ids n) (counted_styleClasses n)
      (counted_le_counts n) (fun a ha => by
        obtain ⟨sel, hcounted, hcounts, -⟩ := exists_sample n ha
        exact ⟨sel, hcounted, hcounts⟩) s
    simp only [counted_eq_counts_iff] at hexact
    simp only [hcompare]
    exact hexact
  · have hexact := @Counts.exact_iff _ (counted n) countsOnce (counted_ids n) (counted_styleClasses n)
      (fun t => (counted_once n t).1) (fun a ha => by
        obtain ⟨sel, hcounted, -, honce⟩ := exists_sample n ha
        exact ⟨sel, hcounted, honce⟩) s
    simp only [fun t => (counted_once n t).2] at hexact
    simp only [hcompare]
    exact hexact

/-- Sixteen pseudo-classes weigh as much as one style class, and `:dir()` in a part of
a compound selector has no weight. -/
theorem sixteen_and_dir_misordered :
    let n : Names := ⟨Registry.empty, Registry.empty⟩
    let sixteen : Selector := .simple ⟨"*", [], [0xFFFF#64], .inherit, "", by decide, by decide⟩
    let one : Selector := .simple ⟨"*", [1#64], [], .inherit, "", by decide, by decide⟩
    let part (dir : NodeOrientation) : SimpleSelector := ⟨"*", [1#64], [], dir, "", by decide, by decide⟩
    let pair (dir : NodeOrientation) : Selector := .compound ⟨[part .inherit, part dir], [.descendant]⟩
    ((sixteen.createMatch n).compareTo (one.createMatch n) = 0 ∧ sixteen.counts.lex one.counts = .lt) ∧
    ((pair .rightToLeft).createMatch n).compareTo ((pair .inherit).createMatch n) = 0 ∧
      (pair .rightToLeft).counts.lex (pair .inherit).counts = .gt := by
  decide +kernel

end Selector

end OpenJfx.Css
