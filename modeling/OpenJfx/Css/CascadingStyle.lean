import OpenJfx.Lib.Java
import OpenJfx.Lib.JavaSort

/-! # `com.sun.javafx.css.CascadingStyle`

Styles are compared by five criteria in turn.  The first one looks at the receiver
only: a skin property comes behind any other one, but another one need not come
before a skin property.  The last two subtract `int`s, which is an order only for
values that lie within half of the range. -/
set_option autoImplicit false
namespace OpenJfx.Css
open OpenJfx.Lib

structure Declaration where
  property : String
  important : Bool

inductive StyleOrigin where
  | userAgent
  | user
  | author
  | inline
deriving DecidableEq, Repr

def StyleOrigin.ordinal : StyleOrigin → Int
  | .userAgent => 0
  | .user => 1
  | .author => 2
  | .inline => 3

/-- A style has a declaration; the rule of a declaration may be null, and so may
the origin of a rule. -/
structure CascadingStyle where
  declaration : Declaration
  rule : Option (Option StyleOrigin)
  specificity : BitVec 32
  ordinal : BitVec 32

namespace CascadingStyle

def skinProp (s : CascadingStyle) : Bool := decide (s.declaration.property = "-fx-skin")

def important (s : CascadingStyle) : Bool := s.declaration.important

def source (s : CascadingStyle) : Option StyleOrigin := s.rule.join

/-- The criteria behind the test of the skin property. -/
def criteria (s other : CascadingStyle) : Int :=
  if s.important ≠ other.important then (if s.important then -1 else 1)
  else if s.source ≠ other.source then
    match s.source, other.source with
    | none, _ => -1
    | some _, none => 1
    | some source, some otherSource => otherSource.ordinal - source.ordinal
  else (other.specificity - s.specificity).toInt

def compareTo (s other : CascadingStyle) : Int :=
  let c := if s.skinProp && !other.skinProp then 1 else s.criteria other
  if c = 0 then (other.ordinal - s.ordinal).toInt else c

/-- `compareTo` without the test of the skin property. -/
def plainCompare (s other : CascadingStyle) : Int :=
  if s.criteria other = 0 then (other.ordinal - s.ordinal).toInt else s.criteria other

/-- What sorting with `compareTo` relies on. -/
def Lawful (styles : List CascadingStyle) : Prop :=
  (∀ a ∈ styles, ∀ b ∈ styles, (a.compareTo b).sign = -(b.compareTo a).sign) ∧
    ∀ a ∈ styles, ∀ b ∈ styles, ∀ c ∈ styles, a.compareTo b ≤ 0 → b.compareTo c ≤ 0 → a.compareTo c ≤ 0

/-! ## Ranks -/

/-- Important styles first, then by source: null, `INLINE`, `AUTHOR`, `USER`, `USER_AGENT`. -/
def rank (s : CascadingStyle) : Int :=
  (if s.important then 0 else 5) + s.source.elim 0 (fun source => 4 - source.ordinal)

/-- `a` and `b` are told apart by specificity and ordinal only. -/
structure Alike (a b : CascadingStyle) : Prop where
  skinProp : a.skinProp = b.skinProp
  important : a.important = b.important
  source : a.source = b.source

instance (a b : CascadingStyle) : Decidable (Alike a b) :=
  decidable_of_iff (a.skinProp = b.skinProp ∧ a.important = b.important ∧ a.source = b.source)
    ⟨fun h => ⟨h.1, h.2.1, h.2.2⟩, fun h => ⟨h.skinProp, h.important, h.source⟩⟩

/-- `b` is put before `a` when their properties do not matter. -/
def Before (b a : CascadingStyle) : Prop :=
  b.rank < a.rank ∨ b.rank = a.rank ∧
    ((a.specificity - b.specificity).toInt < 0 ∨
      a.specificity = b.specificity ∧ (a.ordinal - b.ordinal).toInt < 0)

/-- No skin property stands where another one is put behind it; among styles that
are alike the specificities lie within less than half of the range of an `int`,
and so do the ordinals of those with the same specificity. -/
structure Orderly (styles : List CascadingStyle) : Prop where
  skins : ∀ a ∈ styles, ∀ b ∈ styles, a.skinProp = true → b.skinProp = false → Before b a
  specificities : ∀ a ∈ styles, ∃ m ∈ styles, Alike a m ∧
    ∀ x ∈ styles, Alike a x → 0 ≤ (x.specificity - m.specificity).toInt
  ordinals : ∀ a ∈ styles, ∃ m ∈ styles, (Alike a m ∧ a.specificity = m.specificity) ∧
    ∀ x ∈ styles, Alike a x → a.specificity = x.specificity → 0 ≤ (x.ordinal - m.ordinal).toInt

/-! ## Comparisons -/

theorem ordinal_bounds (o : StyleOrigin) : 0 ≤ o.ordinal ∧ o.ordinal ≤ 3 := by
  cases o with
  | userAgent => decide
  | user => decide
  | author => decide
  | inline => decide

theorem ordinal_inj {o o' : StyleOrigin} (h : o.ordinal = o'.ordinal) : o = o' := by
  cases o <;> cases o' <;> first | rfl | exact absurd h (by decide)

variable {a b : CascadingStyle}

theorem sourceRank_bounds (s : CascadingStyle) :
    0 ≤ s.source.elim 0 (fun source => 4 - source.ordinal) ∧ s.source.elim 0 (fun source => 4 - source.ordinal) < 5 := by
  cases s.source with
  | none => exact ⟨Int.le_refl 0, by decide⟩
  | some o =>
    have ho := ordinal_bounds o
    change 0 ≤ 4 - o.ordinal ∧ 4 - o.ordinal < 5
    omega

theorem criteria_of_important_ne (h : a.important ≠ b.important) :
    (a.rank < b.rank ∧ a.criteria b < 0) ∨ (b.rank < a.rank ∧ 0 < a.criteria b) := by
  have ha := sourceRank_bounds a
  have hb := sourceRank_bounds b
  rw [criteria, if_pos h, rank, rank]
  cases h1 : a.important with
  | false =>
    have h2 : b.important = true := by
      rw [← Bool.not_eq_false]
      exact fun h2 => h (h1.trans h2.symm)
    simp only [h2, Bool.false_eq_true, if_false, if_true]
    right
    omega
  | true =>
    have h2 : b.important = false := by
      rw [← Bool.not_eq_true]
      exact fun h2 => h (h1.trans h2.symm)
    simp only [h2, Bool.false_eq_true, if_false, if_true]
    left
    omega

theorem criteria_of_source_ne (himportant : a.important = b.important) (h : a.source ≠ b.source) :
    (a.rank < b.rank ∧ a.criteria b < 0) ∨ (b.rank < a.rank ∧ 0 < a.criteria b) := by
  rw [criteria, if_neg (not_not.mpr himportant), if_pos h, rank, rank, himportant]
  cases h1 : a.source with
  | none =>
    cases h2 : b.source with
    | none => exact absurd (h1.trans h2.symm) h
    | some o =>
      have ho := ordinal_bounds o
      left
      change _ + 0 < _ + (4 - o.ordinal) ∧ (-1 : Int) < 0
      omega
  | some o =>
    have ho := ordinal_bounds o
    cases h2 : b.source with
    | none =>
      right
      change _ + 0 < _ + (4 - o.ordinal) ∧ (0 : Int) < 1
      omega
    | some o' =>
      have hne : o.ordinal ≠ o'.ordinal := fun heq => h (by rw [h1, h2, ordinal_inj heq])
      change (_ + (4 - o.ordinal) < _ + (4 - o'.ordinal) ∧ o'.ordinal - o.ordinal < 0) ∨
        (_ + (4 - o'.ordinal) < _ + (4 - o.ordinal) ∧ 0 < o'.ordinal - o.ordinal)
      omega

theorem criteria_of_eq (himportant : a.important = b.important) (hsource : a.source = b.source) :
    a.rank = b.rank ∧ a.criteria b = (b.specificity - a.specificity).toInt := by
  rw [criteria, if_neg (not_not.mpr himportant), if_neg (not_not.mpr hsource), rank, rank, himportant, hsource]
  exact ⟨rfl, rfl⟩

theorem toInt_sub_eq_zero_iff (x y : BitVec 32) : (x - y).toInt = 0 ↔ y = x := by
  rw [← BitVec.toInt_zero, BitVec.toInt_inj, BitVec.sub_eq_iff_eq_add, BitVec.zero_add]
  exact eq_comm

theorem plainCompare_spec (a b : CascadingStyle) :
    (a.plainCompare b < 0 ↔ Before a b) ∧
      (a.rank < b.rank ∧ a.plainCompare b < 0 ∨ b.rank < a.rank ∧ 0 < a.plainCompare b ∨
        (a.important = b.important ∧ a.source = b.source ∧ a.rank = b.rank ∧
          (a.specificity ≠ b.specificity ∧ a.plainCompare b = (b.specificity - a.specificity).toInt ∨
            a.specificity = b.specificity ∧ a.plainCompare b = (b.ordinal - a.ordinal).toInt))) := by
  have hdecided : (a.rank < b.rank ∧ a.criteria b < 0) ∨ (b.rank < a.rank ∧ 0 < a.criteria b) →
      (a.plainCompare b < 0 ↔ Before a b) ∧
        (a.rank < b.rank ∧ a.plainCompare b < 0 ∨ b.rank < a.rank ∧ 0 < a.plainCompare b) := by
    rintro (⟨hrank, hlt⟩ | ⟨hrank, hlt⟩)
    · rw [plainCompare, if_neg (by omega)]
      exact ⟨⟨fun _ => Or.inl hrank, fun _ => hlt⟩, Or.inl ⟨hrank, hlt⟩⟩
    · rw [plainCompare, if_neg (by omega)]
      refine ⟨⟨fun h => by omega, ?_⟩, Or.inr ⟨hrank, hlt⟩⟩
      rintro (h | ⟨h, -⟩)
      · omega
      · omega
  by_cases himportant : a.important = b.important
  · by_cases hsource : a.source = b.source
    · obtain ⟨hrank, hcriteria⟩ := criteria_of_eq himportant hsource
      rw [plainCompare, hcriteria, Before]
      by_cases hspecificity : a.specificity = b.specificity
      · have hzero := (toInt_sub_eq_zero_iff b.specificity a.specificity).mpr hspecificity
        rw [if_pos hzero, hzero]
        refine ⟨⟨fun h => Or.inr ⟨hrank, Or.inr ⟨hspecificity.symm, h⟩⟩, ?_⟩,
          Or.inr (Or.inr ⟨himportant, hsource, hrank, Or.inr ⟨hspecificity, rfl⟩⟩)⟩
        rintro (h | ⟨-, h | ⟨-, h⟩⟩)
        · omega
        · omega
        · exact h
      · have hne : (b.specificity - a.specificity).toInt ≠ 0 := fun h =>
          hspecificity ((toInt_sub_eq_zero_iff _ _).mp h)
        rw [if_neg hne]
        refine ⟨⟨fun h => Or.inr ⟨hrank, Or.inl h⟩, ?_⟩,
          Or.inr (Or.inr ⟨himportant, hsource, hrank, Or.inl ⟨hspecificity, rfl⟩⟩)⟩
        rintro (h | ⟨-, h | ⟨h, -⟩⟩)
        · omega
        · exact h
        · exact absurd h.symm hspecificity
    · obtain ⟨hbefore, hcases⟩ := hdecided (criteria_of_source_ne himportant hsource)
      exact ⟨hbefore, hcases.imp id Or.inl⟩
  · obtain ⟨hbefore, hcases⟩ := hdecided (criteria_of_important_ne himportant)
    exact ⟨hbefore, hcases.imp id Or.inl⟩

theorem compareTo_eq (a b : CascadingStyle) :
    a.compareTo b = if a.skinProp = true ∧ b.skinProp = false then 1 else a.plainCompare b := by
  rw [compareTo, plainCompare]
  cases a.skinProp with
  | false => rfl
  | true =>
    cases b.skinProp with
    | false => rfl
    | true => rfl

theorem compareTo_of_skinProp_eq (h : a.skinProp = b.skinProp) : a.compareTo b = a.plainCompare b := by
  rw [compareTo_eq, if_neg]
  rintro ⟨ha, hb⟩
  rw [ha, hb] at h
  cases h

theorem Alike.compareTo (h : Alike a b) :
    a.specificity ≠ b.specificity ∧ a.compareTo b = (b.specificity - a.specificity).toInt ∨
      a.specificity = b.specificity ∧ a.compareTo b = (b.ordinal - a.ordinal).toInt := by
  have hrank := (criteria_of_eq h.important h.source).1
  rw [compareTo_of_skinProp_eq h.skinProp]
  rcases (plainCompare_spec a b).2 with ⟨hlt, -⟩ | ⟨hlt, -⟩ | ⟨-, -, -, hcases⟩
  · omega
  · omega
  · exact hcases

theorem Alike.refl (a : CascadingStyle) : Alike a a := ⟨rfl, rfl, rfl⟩

theorem Alike.symm (h : Alike a b) : Alike b a := ⟨h.skinProp.symm, h.important.symm, h.source.symm⟩

theorem Alike.trans {c : CascadingStyle} (h : Alike a b) (h' : Alike b c) : Alike a c :=
  ⟨h.skinProp.trans h'.skinProp, h.important.trans h'.important, h.source.trans h'.source⟩

/-! ## Differences of `int`s -/

theorem toInt_sub_from {m x y : BitVec 32} (hx : 0 ≤ (x - m).toInt) (hy : 0 ≤ (y - m).toInt) :
    (x - y).toInt = (x - m).toInt - (y - m).toInt := by
  have hsub : x - y = (x - m) - (y - m) := by bv_omega
  have hltx := @BitVec.toInt_lt 32 (x - m)
  have hlty := @BitVec.toInt_lt 32 (y - m)
  rw [hsub, BitVec.toInt_sub, Int.bmod_eq_of_le (by omega) (by omega)]

/-! ## Orderly styles are sorted lawfully -/

section Orderly
variable {styles : List CascadingStyle} {c : CascadingStyle}

theorem Orderly.measure (h : Orderly styles) (ha : a ∈ styles) :
    ∃ specificity ordinal : CascadingStyle → Int, ∀ x ∈ styles, Alike a x → ∀ y ∈ styles, Alike a y →
      ((y.specificity - x.specificity).toInt = specificity y - specificity x) ∧
      (a.specificity = x.specificity → a.specificity = y.specificity →
        (y.ordinal - x.ordinal).toInt = ordinal y - ordinal x) := by
  obtain ⟨m, -, -, hm⟩ := h.specificities a ha
  obtain ⟨m', -, -, hm'⟩ := h.ordinals a ha
  refine ⟨fun x => (x.specificity - m.specificity).toInt, fun x => (x.ordinal - m'.ordinal).toInt, ?_⟩
  intro x hx hax y hy hay
  exact ⟨toInt_sub_from (hm y hy hay) (hm x hx hax),
    fun hsx hsy => toInt_sub_from (hm' y hy hay hsy) (hm' x hx hax hsx)⟩

theorem Orderly.mixed (h : Orderly styles) (ha : a ∈ styles) (hb : b ∈ styles) (hskin : a.skinProp = true)
    (hother : b.skinProp = false) : a.compareTo b = 1 ∧ b.compareTo a < 0 := by
  rw [compareTo_eq, if_pos ⟨hskin, hother⟩, compareTo_eq, if_neg (by rw [hother]; simp)]
  exact ⟨rfl, (plainCompare_spec b a).1.mpr (h.skins a ha b hb hskin hother)⟩

theorem orderly_antisymm (h : Orderly styles) (ha : a ∈ styles) (hb : b ∈ styles) :
    (a.compareTo b).sign = -(b.compareTo a).sign := by
  by_cases hskin : a.skinProp = b.skinProp
  · rw [compareTo_of_skinProp_eq hskin, compareTo_of_skinProp_eq hskin.symm]
    rcases (plainCompare_spec a b).2 with ⟨hrank, hlt⟩ | ⟨hrank, hlt⟩ | ⟨himportant, hsource, hrank, -⟩
    · rcases (plainCompare_spec b a).2 with ⟨hrank', hlt'⟩ | ⟨hrank', hlt'⟩ | ⟨-, -, hrank', -⟩
      · omega
      · rw [Int.sign_eq_neg_one_of_neg hlt, Int.sign_eq_one_of_pos hlt']
      · omega
    · rcases (plainCompare_spec b a).2 with ⟨hrank', hlt'⟩ | ⟨hrank', hlt'⟩ | ⟨-, -, hrank', -⟩
      · rw [Int.sign_eq_one_of_pos hlt, Int.sign_eq_neg_one_of_neg hlt']
        rfl
      · omega
      · omega
    · have halike : Alike a b := ⟨hskin, himportant, hsource⟩
      obtain ⟨specificity, ordinal, hmeasure⟩ := h.measure ha
      have hforth := hmeasure a ha (Alike.refl a) b hb halike
      have hback := hmeasure b hb halike a ha (Alike.refl a)
      rw [← compareTo_of_skinProp_eq hskin, ← compareTo_of_skinProp_eq hskin.symm]
      rcases halike.compareTo with ⟨hne, hab⟩ | ⟨heq, hab⟩
      · rcases halike.symm.compareTo with ⟨-, hba⟩ | ⟨heq, -⟩
        · rw [hab, hba, hforth.1, hback.1, ← Int.sign_neg, Int.neg_sub]
        · exact absurd heq.symm hne
      · rcases halike.symm.compareTo with ⟨hne, -⟩ | ⟨-, hba⟩
        · exact absurd heq.symm hne
        · rw [hab, hba, hforth.2 rfl heq, hback.2 heq rfl, ← Int.sign_neg, Int.neg_sub]
  · cases hsa : a.skinProp with
    | false =>
      have hsb : b.skinProp = true := by
        rw [← Bool.not_eq_false]
        exact fun hsb => hskin (hsa.trans hsb.symm)
      obtain ⟨hba, hab⟩ := h.mixed hb ha hsb hsa
      rw [hba, Int.sign_eq_neg_one_of_neg hab]
      rfl
    | true =>
      have hsb : b.skinProp = false := by
        rw [← Bool.not_eq_true]
        exact fun hsb => hskin (hsa.trans hsb.symm)
      obtain ⟨hab, hba⟩ := h.mixed ha hb hsa hsb
      rw [hab, Int.sign_eq_neg_one_of_neg hba]
      rfl

theorem rank_le_of_plainCompare (h : a.plainCompare b ≤ 0) :
    a.rank < b.rank ∨ a.important = b.important ∧ a.source = b.source ∧ a.rank = b.rank := by
  rcases (plainCompare_spec a b).2 with ⟨hrank, -⟩ | ⟨-, hpos⟩ | ⟨himportant, hsource, hrank, -⟩
  · exact Or.inl hrank
  · omega
  · exact Or.inr ⟨himportant, hsource, hrank⟩

theorem plainCompare_of_rank_lt (h : a.rank < b.rank) : a.plainCompare b < 0 :=
  (plainCompare_spec a b).1.mpr (Or.inl h)

theorem orderly_trans (h : Orderly styles) (ha : a ∈ styles) (hb : b ∈ styles) (hc : c ∈ styles)
    (hab : a.compareTo b ≤ 0) (hbc : b.compareTo c ≤ 0) : a.compareTo c ≤ 0 := by
  have hskins : ∀ s t : CascadingStyle, s.compareTo t ≤ 0 → s.skinProp = true → t.skinProp = true := by
    intro s t hst hs
    by_contra ht
    rw [compareTo_eq, if_pos ⟨hs, Bool.not_eq_true _ ▸ ht⟩] at hst
    omega
  by_cases hskin : a.skinProp = c.skinProp
  · -- none of the three differs from the others in the skin property
    have habskin : a.skinProp = b.skinProp := by
      cases hsa : a.skinProp with
      | true => exact (hskins a b hab hsa).symm
      | false =>
        cases hsb : b.skinProp with
        | false => rfl
        | true =>
          have hsc := hskins b c hbc hsb
          rw [hsa, hsc] at hskin
          cases hskin
    have hbcskin : b.skinProp = c.skinProp := habskin.symm.trans hskin
    rw [compareTo_of_skinProp_eq hskin]
    have hab' := hab
    have hbc' := hbc
    rw [compareTo_of_skinProp_eq habskin] at hab'
    rw [compareTo_of_skinProp_eq hbcskin] at hbc'
    rcases rank_le_of_plainCompare hab' with hlt | ⟨himportant, hsource, hrank⟩
    · have hle : b.rank ≤ c.rank := by
        rcases rank_le_of_plainCompare hbc' with hlt | ⟨-, -, heq⟩
        · exact le_of_lt hlt
        · exact le_of_eq heq
      exact le_of_lt (plainCompare_of_rank_lt (lt_of_lt_of_le hlt hle))
    · rcases rank_le_of_plainCompare hbc' with hlt | ⟨himportant', hsource', -⟩
      · exact le_of_lt (plainCompare_of_rank_lt (hrank ▸ hlt))
      · have halike : Alike a b := ⟨habskin, himportant, hsource⟩
        have halike' : Alike b c := ⟨hbcskin, himportant', hsource'⟩
        have halike'' := halike.trans halike'
        obtain ⟨specificity, ordinal, hmeasure⟩ := h.measure ha
        have hmab := hmeasure a ha (Alike.refl a) b hb halike
        have hmbc := hmeasure b hb halike c hc halike''
        have hmac := hmeasure a ha (Alike.refl a) c hc halike''
        rw [← compareTo_of_skinProp_eq hskin]
        rcases halike''.compareTo with ⟨hne, hac⟩ | ⟨heq, hac⟩
        · -- the specificities do not increase
          rw [hac, hmac.1]
          have hle : specificity b ≤ specificity a := by
            rcases halike.compareTo with ⟨-, hval⟩ | ⟨heq, -⟩
            · rw [hval, hmab.1] at hab
              omega
            · have hzero := hmab.1
              rw [heq, BitVec.sub_self, BitVec.toInt_zero] at hzero
              omega
          have hle' : specificity c ≤ specificity b := by
            rcases halike'.compareTo with ⟨-, hval⟩ | ⟨heq, -⟩
            · rw [hval, hmbc.1] at hbc
              omega
            · have hzero := hmbc.1
              rw [heq, BitVec.sub_self, BitVec.toInt_zero] at hzero
              omega
          omega
        · -- all three specificities are the same
          have hzero := hmac.1
          rw [heq, BitVec.sub_self, BitVec.toInt_zero] at hzero
          have hsame : a.specificity = b.specificity := by
            rcases halike.compareTo with ⟨hne, hval⟩ | ⟨heq, -⟩
            · have hne' : (b.specificity - a.specificity).toInt ≠ 0 := fun hz =>
                hne ((toInt_sub_eq_zero_iff _ _).mp hz)
              rw [hval] at hab
              rcases halike'.compareTo with ⟨-, hval'⟩ | ⟨heq', -⟩
              · rw [hval', hmbc.1] at hbc
                have hfirst := hmab.1
                omega
              · exact heq.trans heq'.symm
            · exact heq
          have hsame' : b.specificity = c.specificity := hsame.symm.trans heq
          rw [hac, hmac.2 rfl heq]
          rcases halike.compareTo with ⟨hne, -⟩ | ⟨-, hval⟩
          · exact absurd hsame hne
          · rcases halike'.compareTo with ⟨hne, -⟩ | ⟨-, hval'⟩
            · exact absurd hsame' hne
            · rw [hval, hmab.2 rfl hsame] at hab
              rw [hval', hmbc.2 hsame heq] at hbc
              omega
  · cases hsa : a.skinProp with
    | true =>
      have hsc := hskins b c hbc (hskins a b hab hsa)
      exact absurd (hsa.trans hsc.symm) hskin
    | false =>
      have hsc : c.skinProp = true := by
        rw [← Bool.not_eq_false]
        exact fun hsc => hskin (hsa.trans hsc.symm)
      exact le_of_lt (h.mixed hc ha hsc hsa).2

theorem lawful_of_orderly (h : Orderly styles) : Lawful styles :=
  ⟨fun _ ha _ hb => orderly_antisymm h ha hb, fun _ ha _ hb _ hc => orderly_trans h ha hb hc⟩

/-! ## Lawful comparisons -/

theorem Lawful.total (h : Lawful styles) (ha : a ∈ styles) (hb : b ∈ styles) :
    a.compareTo b ≤ 0 ∨ b.compareTo a ≤ 0 := by
  have hsign := h.1 a ha b hb
  by_contra hneither
  rw [Int.sign_eq_one_of_pos (by omega), Int.sign_eq_one_of_pos (by omega)] at hsign
  cases hsign

theorem Lawful.neg_iff (h : Lawful styles) (ha : a ∈ styles) (hb : b ∈ styles) :
    a.compareTo b ≤ 0 ↔ 0 ≤ b.compareTo a := by
  have hsign := h.1 a ha b hb
  rw [← Int.sign_nonneg_iff, ← Int.sign_nonpos_iff, hsign]
  omega

theorem Lawful.exists_last (h : Lawful styles) (p : CascadingStyle → Prop) [DecidablePred p] (ha : a ∈ styles)
    (hpa : p a) : ∃ m ∈ styles, p m ∧ ∀ x ∈ styles, p x → 0 ≤ m.compareTo x := by
  have hmem : ∀ x, x ∈ styles.filter (fun x => decide (p x)) ↔ x ∈ styles ∧ p x := fun x => by
    rw [List.mem_filter, decide_eq_true_eq]
  obtain ⟨m, hm, hlast⟩ := @OpenJfx.Lib.JavaSort.exists_last _ (fun x y => CascadingStyle.compareTo x y ≤ 0)
    (styles.filter (fun x => decide (p x))) (List.ne_nil_of_mem ((hmem a).mpr ⟨ha, hpa⟩))
    (fun x hx y hy => h.total ((hmem x).mp hx).1 ((hmem y).mp hy).1)
    (fun x hx y hy z hz => h.2 x ((hmem x).mp hx).1 y ((hmem y).mp hy).1 z ((hmem z).mp hz).1)
  obtain ⟨hmstyles, hpm⟩ := (hmem m).mp hm
  exact ⟨m, hmstyles, hpm, fun x hx hpx =>
    (h.neg_iff hx hmstyles).mp (hlast x ((hmem x).mpr ⟨hx, hpx⟩))⟩

theorem orderly_of_lawful (h : Lawful styles) : Orderly styles := by
  refine ⟨?_, ?_, ?_⟩
  · intro a ha b hb hskin hother
    have hsign := h.1 a ha b hb
    rw [compareTo_eq, if_pos ⟨hskin, hother⟩, compareTo_eq, if_neg (by rw [hother]; simp)] at hsign
    apply (plainCompare_spec b a).1.mp
    rw [← Int.sign_eq_neg_one_iff_neg]
    change (1 : Int) = _ at hsign
    omega
  · intro a ha
    obtain ⟨m, hm, halike, hlast⟩ := h.exists_last (Alike a) ha (Alike.refl a)
    refine ⟨m, hm, halike, ?_⟩
    intro x hx hax
    have hle := hlast x hx hax
    rcases (halike.symm.trans hax).compareTo with ⟨-, hval⟩ | ⟨heq, -⟩
    · rw [hval] at hle
      exact hle
    · rw [heq, BitVec.sub_self]
      decide
  · intro a ha
    obtain ⟨m, hm, ⟨halike, hspecificity⟩, hlast⟩ :=
      h.exists_last (fun x => Alike a x ∧ a.specificity = x.specificity) ha ⟨Alike.refl a, rfl⟩
    refine ⟨m, hm, ⟨halike, hspecificity⟩, ?_⟩
    intro x hx hax hsx
    have hle := hlast x hx ⟨hax, hsx⟩
    rcases (halike.symm.trans hax).compareTo with ⟨hne, -⟩ | ⟨-, hval⟩
    · exact absurd (hspecificity.symm.trans hsx) hne
    · rw [hval] at hle
      exact hle

end Orderly

/-- Comparing styles of a list is antisymmetric and transitive if and only if the
list is orderly. -/
theorem compareTo_lawful_iff (styles : List CascadingStyle) : Lawful styles ↔ Orderly styles :=
  ⟨orderly_of_lawful, lawful_of_orderly⟩

/-- A `-fx-skin` style and another one with nothing else between them: each call looks
at its receiver, one answers 1 and the other 0.  Of specificities half of the range
apart, each is put before the other. -/
theorem skin_and_overflow_unlawful :
    let style (property : String) (specificity : BitVec 32) : CascadingStyle :=
      ⟨⟨property, false⟩, some (some .author), specificity, 0#32⟩
    ((style "-fx-skin" 0#32).compareTo (style "-fx-fill" 0#32) = 1 ∧
      (style "-fx-fill" 0#32).compareTo (style "-fx-skin" 0#32) = 0) ∧
    ¬Lawful [style "-fx-skin" 0#32, style "-fx-fill" 0#32] ∧
    ((style "-fx-fill" 0#32).compareTo (style "-fx-fill" 0x80000000#32) < 0 ∧
      (style "-fx-fill" 0x80000000#32).compareTo (style "-fx-fill" 0#32) < 0) := by
  intro style
  have hskin : (style "-fx-skin" 0#32).compareTo (style "-fx-fill" 0#32) = 1 := by decide +kernel
  have hfill : (style "-fx-fill" 0#32).compareTo (style "-fx-skin" 0#32) = 0 := by decide +kernel
  refine ⟨⟨hskin, hfill⟩, ?_, by decide +kernel⟩
  intro h
  have hsign := h.1 _ List.mem_cons_self _ (List.mem_cons_of_mem _ List.mem_cons_self)
  rw [hskin, hfill] at hsign
  cases hsign

end CascadingStyle

end OpenJfx.Css
