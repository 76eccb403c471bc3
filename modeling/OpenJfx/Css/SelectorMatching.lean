import Mathlib
import OpenJfx.Css.CompoundSelector
import OpenJfx.Lib.AncestorChain

/-! # Matching a compound selector

`Assignment` says what a compound selector asks for: its parts lie on the element
and its ancestors as the combinators demand.  `applies` finds out whether there
is an assignment; `stateMatches` only finds assignments to the nearest ancestors,
and may miss others when a part applies to several ancestors. -/
set_option autoImplicit false
namespace OpenJfx.Css
open OpenJfx.Lib OpenJfx.Lib.WordSet OpenJfx.Lib.AncestorChain

/-- There is exactly one combinator less than there are parts. -/
def CompoundSelector.Joined (c : CompoundSelector) : Prop := c.relationships.length + 1 = c.selectors.length

/-- Part `k` lies on element `pos k` of the chain, which starts with the node. -/
structure Assignment (c : CompoundSelector) (chain : List Styleable) (fits : SimpleSelector → Styleable → Prop)
    (pos : Nat → Nat) : Prop where
  node : pos (c.selectors.length - 1) = 0
  child : ∀ k, c.relationships[k]? = some .child → pos k = pos (k + 1) + 1
  descendant : ∀ k, c.relationships[k]? = some .descendant → pos (k + 1) < pos k
  parts : ∀ k s, c.selectors[k]? = some s → ∃ e, chain[pos k]? = some e ∧ fits s e

/-- No style class of the element is made of spaces only. -/
def Styleable.NoBlank (e : Styleable) : Prop := ∀ y, some y ∈ e.styleClass → y ≠ "" → isBlank y = false

namespace CompoundSelector

/-- The distances that a combinator allows. -/
def allowed (c : CompoundSelector) (k : Nat) (_ : List Styleable) (d : Nat) : Prop :=
  match c.relationships[k]? with
  | none => False
  | some .child => d = 1
  | some .descendant => 1 ≤ d

def PartFits (c : CompoundSelector) (fits : SimpleSelector → Styleable → Prop) (k : Nat) (e : Styleable) : Prop :=
  ∃ s, c.selectors[k]? = some s ∧ fits s e

theorem assigned_iff_assignment {c : CompoundSelector} (hjoined : c.Joined) {chain : List Styleable}
    {fits : SimpleSelector → Styleable → Prop} {pos : Nat → Nat} :
    Assigned (c.PartFits fits) c.allowed (c.selectors.length - 1) chain pos ↔ Assignment c chain fits pos := by
  rw [Joined] at hjoined
  constructor
  · intro h
    refine ⟨h.last, ?_, ?_, ?_⟩
    · intro k hk
      have hlt := (List.getElem?_eq_some_iff.mp hk).1
      obtain ⟨d, hd, hpos⟩ := h.gaps k (by omega)
      rw [allowed, hk] at hd
      rw [hpos, hd]
    · intro k hk
      have hlt := (List.getElem?_eq_some_iff.mp hk).1
      obtain ⟨d, hd, hpos⟩ := h.gaps k (by omega)
      rw [allowed, hk] at hd
      dsimp only at hd
      omega
    · intro k s hs
      have hlt := (List.getElem?_eq_some_iff.mp hs).1
      obtain ⟨e, he, s', hs', hfits⟩ := h.parts k (by omega)
      rw [hs] at hs'
      cases hs'
      exact ⟨e, he, hfits⟩
  · intro h
    refine ⟨h.node, ?_, ?_⟩
    · intro k hk
      have hlt : k < c.relationships.length := by omega
      cases hrel : c.relationships[k]? with
      | none =>
        rw [List.getElem?_eq_none_iff] at hrel
        omega
      | some rel =>
        cases rel with
        | child =>
          refine ⟨1, ?_, h.child k hrel⟩
          rw [allowed, hrel]
        | descendant =>
          have hpos := h.descendant k hrel
          refine ⟨pos k - pos (k + 1), ?_, by omega⟩
          rw [allowed, hrel]
          dsimp only
          omega
    · intro k hk
      obtain ⟨e, he, hfits⟩ := h.parts k _ (List.getElem?_eq_getElem (show k < c.selectors.length by omega))
      exact ⟨e, he, _, List.getElem?_eq_getElem (show k < c.selectors.length by omega), hfits⟩

/-! ## `applies` -/

theorem anyAncestor_spec {answer : List Styleable → Except Exn Bool} {P : List Styleable → Prop}
    (hnil : ¬P []) (ancestors : List Styleable)
    (h : ∀ d, d < ancestors.length → ∃ b, answer (ancestors.drop d) = .ok b ∧ (b = true ↔ P (ancestors.drop d))) :
    ∃ b, anyAncestor answer ancestors = .ok b ∧ (b = true ↔ ∃ d, P (ancestors.drop d)) := by
  induction ancestors with
  | nil =>
    refine ⟨false, rfl, ⟨fun h => (nomatch h), ?_⟩⟩
    rintro ⟨d, hd⟩
    rw [List.drop_nil] at hd
    exact absurd hd hnil
  | cons parent rest ih =>
    obtain ⟨b, hb, hiff⟩ := h 0 (Nat.zero_lt_succ _)
    rw [List.drop_zero] at hb hiff
    rw [anyAncestor, hb]
    cases b with
    | true => exact ⟨true, rfl, fun _ => ⟨0, hiff.mp rfl⟩, fun _ => rfl⟩
    | false =>
      obtain ⟨b, hb, hrest⟩ := ih (fun d hd => h (d + 1) (Nat.succ_lt_succ hd))
      refine ⟨b, hb, hrest.trans ⟨?_, ?_⟩⟩
      · rintro ⟨d, hd⟩
        exact ⟨d + 1, hd⟩
      · rintro ⟨d, hd⟩
        cases d with
        | zero =>
          rw [List.drop_zero] at hd
          exact absurd (hiff.mpr hd) (fun h => nomatch h)
        | succ d => exact ⟨d, hd⟩

variable {n : Names} {c : CompoundSelector}

abbrev AppliesTo (n : Names) (s : SimpleSelector) (e : Styleable) : Prop := s.applies n e = .ok true

/-- The part in front of a child combinator lies on the parent. -/
theorem exists_allowed_child {i : Nat} {e : Styleable} {ancestors : List Styleable} {P : List Styleable → Prop}
    (hcase : c.relationships[i]? = some .child) :
    (∃ d, c.allowed i (e :: ancestors) d ∧ P ((e :: ancestors).drop d)) ↔ P ancestors := by
  constructor
  · rintro ⟨d, hd, hm⟩
    rw [allowed, hcase] at hd
    rw [show d = 1 from hd] at hm
    exact hm
  · intro hm
    refine ⟨1, ?_, hm⟩
    rw [allowed, hcase]

/-- The part in front of a descendant combinator lies on some ancestor. -/
theorem exists_allowed_descendant {i : Nat} {e : Styleable} {ancestors : List Styleable} {P : List Styleable → Prop}
    (hcase : c.relationships[i]? = some .descendant) :
    (∃ d, c.allowed i (e :: ancestors) d ∧ P ((e :: ancestors).drop d)) ↔ ∃ d, P (ancestors.drop d) := by
  constructor
  · rintro ⟨d, hd, hm⟩
    rw [allowed, hcase] at hd
    dsimp only at hd
    obtain ⟨d, rfl⟩ : ∃ d', d = d' + 1 := ⟨d - 1, by omega⟩
    exact ⟨d, hm⟩
  · rintro ⟨d, hm⟩
    refine ⟨d + 1, ?_, hm⟩
    rw [allowed, hcase]
    dsimp only
    omega

theorem appliesAt_spec (hjoined : c.Joined) {i : Nat} (hi : i < c.selectors.length) {chain : List Styleable}
    (hne : chain ≠ []) (hblank : ∀ e ∈ chain, e.NoBlank) :
    ∃ b, c.appliesAt n i chain = .ok b ∧ (b = true ↔ Matched (c.PartFits (AppliesTo n)) c.allowed i chain) := by
  induction i generalizing chain with
  | zero =>
    cases chain with
    | nil => exact absurd rfl hne
    | cons styleable ancestors =>
      obtain ⟨b, hb⟩ := SimpleSelector.applies_returns n c.selectors[0] (hblank styleable (List.mem_cons_self ..))
      have hs : c.selectors[0]? = some c.selectors[0] := List.getElem?_eq_getElem hi
      refine ⟨b, by rw [appliesAt, hs]; exact hb, ?_⟩
      constructor
      · rintro rfl
        exact ⟨styleable, rfl, _, hs, hb⟩
      · rintro ⟨e, he, s, hs', happlies⟩
        cases he
        rw [hs] at hs'
        cases hs'
        rw [AppliesTo, hb] at happlies
        exact Except.ok.inj happlies
  | succ i ih =>
    cases chain with
    | nil => exact absurd rfl hne
    | cons styleable ancestors =>
      have hs : c.selectors[i + 1]? = some c.selectors[i + 1] := List.getElem?_eq_getElem hi
      have hrest : ∀ d, ∀ e ∈ ancestors.drop d, e.NoBlank :=
        fun d e he => hblank e (List.mem_cons_of_mem _ (List.mem_of_mem_drop he))
      have hhead : ∀ e, (styleable :: ancestors)[0]? = some e → ∀ s, c.selectors[i + 1]? = some s →
          e = styleable ∧ s = c.selectors[i + 1] := by
        intro e he s hs'
        rw [hs] at hs'
        cases he
        cases hs'
        exact ⟨rfl, rfl⟩
      obtain ⟨b, hb⟩ := SimpleSelector.applies_returns n c.selectors[i + 1]
        (hblank styleable (List.mem_cons_self ..))
      rw [appliesAt.eq_def]
      dsimp only
      rw [hs]
      dsimp only
      rw [hb]
      cases b with
      | false =>
        refine ⟨false, rfl, fun h => (nomatch h), ?_⟩
        rintro ⟨⟨e, he, s, hs', happlies⟩, -⟩
        obtain ⟨rfl, rfl⟩ := hhead e he s hs'
        rw [AppliesTo, hb] at happlies
        cases happlies
      | true =>
        have hmatched : ∀ {b : Bool}, (b = true ↔ ∃ d, c.allowed i (styleable :: ancestors) d ∧
            Matched (c.PartFits (AppliesTo n)) c.allowed i ((styleable :: ancestors).drop d)) →
            (b = true ↔ Matched (c.PartFits (AppliesTo n)) c.allowed (i + 1) (styleable :: ancestors)) := by
          intro b hiff
          rw [hiff]
          exact ⟨fun h => ⟨⟨styleable, rfl, _, hs, hb⟩, h⟩, fun h => h.2⟩
        have hrel : i < c.relationships.length := by
          rw [Joined] at hjoined
          omega
        dsimp only
        cases hcase : c.relationships[i]? with
        | none =>
          rw [List.getElem?_eq_none_iff] at hcase
          omega
        | some rel =>
          cases rel with
          | child =>
            cases ancestors with
            | nil =>
              refine ⟨false, rfl, hmatched ?_⟩
              rw [exists_allowed_child hcase]
              exact ⟨fun h => (nomatch h), fun hm => absurd hm (not_matched_nil i)⟩
            | cons parent rest =>
              obtain ⟨b, hb, hiff⟩ := @ih (by omega) (parent :: rest) (List.cons_ne_nil _ _) (hrest 0)
              exact ⟨b, hb, hmatched (hiff.trans (exists_allowed_child hcase).symm)⟩
          | descendant =>
            obtain ⟨b, hb, hiff⟩ := @anyAncestor_spec (fun chain => appliesAt n c i chain)
              (Matched (c.PartFits (AppliesTo n)) c.allowed i) (not_matched_nil i) ancestors (by
                intro d hd
                apply ih (by omega) _ (hrest d)
                rw [Ne, List.drop_eq_nil_iff]
                omega)
            exact ⟨b, hb, hmatched (hiff.trans (exists_allowed_descendant hcase).symm)⟩

/-- A compound selector applies to a node if and only if its parts can be assigned
to the node and its ancestors so that each part applies to its element. -/
theorem applies_iff_assignment (n : Names) (c : CompoundSelector) (hjoined : c.Joined) (node : Styleable)
    (ancestors : List Styleable) (hblank : ∀ e ∈ node :: ancestors, e.NoBlank) :
    ∃ b, c.applies n (node :: ancestors) = .ok b ∧
      (b = true ↔ ∃ pos, Assignment c (node :: ancestors) (fun s e => s.applies n e = .ok true) pos) := by
  have hlength : c.selectors.length = c.selectors.length - 1 + 1 := by
    rw [Joined] at hjoined
    omega
  obtain ⟨b, hb, hiff⟩ := appliesAt_spec hjoined (show c.selectors.length - 1 < c.selectors.length by omega)
    (List.cons_ne_nil node ancestors) hblank
  refine ⟨b, ?_, ?_⟩
  · rw [applies, hlength]
    exact hb
  · rw [hiff, matched_iff]
    simp only [assigned_iff_assignment hjoined]

/-- The selectors `.a` and `.b`, when these are the names with indices 0 and 1. -/
def dotA : SimpleSelector := ⟨"*", [1#64], [], .inherit, "", by decide, by decide⟩

def dotB : SimpleSelector := ⟨"*", [2#64], [], .inherit, "", by decide, by decide⟩

def namesAB : Names := ⟨⟨["a", "b"], by decide⟩, Registry.empty⟩

def element (type styleClass : String) : Styleable := ⟨none, some type, [some styleClass], [], none⟩

theorem applies_iff_assignment_descendant :
    let c : CompoundSelector := ⟨[dotA, dotB], [.descendant]⟩
    let ancestors := [element "Pane" "c", element "Pane" "a"]
    c.Joined ∧ (∀ e ∈ element "Label" "b" :: ancestors, e.NoBlank) ∧
      ∃ pos, Assignment c (element "Label" "b" :: ancestors) (fun s e => s.applies namesAB e = .ok true) pos := by
  intro c ancestors
  have hblank : ∀ e ∈ element "Label" "b" :: ancestors, e.NoBlank := by
    intro e he y hy _
    simp only [ancestors, List.mem_cons, List.not_mem_nil, or_false] at he
    rcases he with rfl | rfl | rfl <;> simp only [element, List.mem_singleton, Option.some.injEq] at hy <;>
      subst hy <;> decide
  refine ⟨rfl, hblank, ?_⟩
  obtain ⟨b, hb, hiff⟩ := applies_iff_assignment namesAB c rfl (element "Label" "b") ancestors hblank
  exact hiff.mp (Except.ok.inj (hb.symm.trans rfl))

/-- The parent has a blank style class: the call throws, although the grandparent
gives an assignment. -/
theorem blank_style_class_throws :
    let c : CompoundSelector := ⟨[dotA, dotB], [.descendant]⟩
    let chain := [element "Label" "b", element "Pane" " ", element "Pane" "a"]
    c.applies namesAB chain = .error .illegalArgument ∧
      ∃ pos, Assignment c chain (fun s e => s.applies namesAB e = .ok true) pos := by
  intro c chain
  refine ⟨rfl, fun k => if k = 0 then 2 else 0, rfl, ?_, ?_, ?_⟩
  · intro k hk
    match k with
    | 0 => cases hk
    | k + 1 => cases hk
  · intro k hk
    match k with
    | 0 => decide
    | k + 1 => cases hk
  · intro k s hs
    match k with
    | 0 =>
        cases hs
        exact ⟨element "Pane" "a", rfl, rfl⟩
    | 1 =>
        cases hs
        exact ⟨element "Label" "b", rfl, rfl⟩
    | k + 2 => cases hs

/-! ## `stateMatches` -/

/-- The part applies to the element and its pseudo-classes are among the states of
the element. -/
abbrev FitsState (n : Names) (s : SimpleSelector) (e : Styleable) : Prop :=
  s.applies n e = .ok true ∧ ∀ i, has s.pseudoClassState i = true → has e.pseudoClassStates i = true

theorem stateMatches_some (s : SimpleSelector) (states : List Long) :
    s.stateMatches (some states) = true ↔ ∀ i, has s.pseudoClassState i = true → has states i = true := by
  rw [SimpleSelector.stateMatches, BitSet.containsAll_some]
  exact ⟨fun h => h.2, fun h => ⟨s.pseudoClassesTrimmed.length_le h, h⟩⟩

theorem nearest_spec {applies : Styleable → Except Exn Bool} (ancestors : List Styleable)
    (h : ∀ e ∈ ancestors, ∃ b, applies e = .ok b) :
    (nearest applies ancestors = .ok [] ∧ ∀ e ∈ ancestors, applies e ≠ .ok true) ∨
      ∃ d e rest, ancestors.drop d = e :: rest ∧ nearest applies ancestors = .ok (e :: rest) ∧
        applies e = .ok true ∧ ∀ p x, p < d → ancestors[p]? = some x → applies x ≠ .ok true := by
  induction ancestors with
  | nil =>
    refine Or.inl ⟨rfl, ?_⟩
    intro e he
    cases he
  | cons parent rest ih =>
    obtain ⟨b, hb⟩ := h parent (List.mem_cons_self ..)
    rw [nearest, hb]
    cases b with
    | true => exact Or.inr ⟨0, parent, rest, rfl, rfl, hb, fun p x hp => absurd hp (Nat.not_lt_zero p)⟩
    | false =>
      have hparent : applies parent ≠ .ok true := by
        rw [hb]
        simp
      rcases ih (fun e he => h e (List.mem_cons_of_mem _ he)) with ⟨hnone, hall⟩ | ⟨d, e, tail, hd, hnear, he, hbefore⟩
      · refine Or.inl ⟨hnone, ?_⟩
        intro e he
        rcases List.mem_cons.mp he with rfl | he
        · exact hparent
        · exact hall e he
      · refine Or.inr ⟨d + 1, e, tail, hd, hnear, he, ?_⟩
        intro p x hp hx
        cases p with
        | zero =>
          cases hx
          exact hparent
        | succ p => exact hbefore p x (Nat.lt_of_succ_lt_succ hp) hx

/-- Every part in front of a descendant combinator lies on the nearest ancestor, of
the element of the next part, to which it applies. -/
def NearestParts (n : Names) (c : CompoundSelector) (chain : List Styleable) (pos : Nat → Nat) : Prop :=
  ∀ (k : Nat) (s : SimpleSelector), c.relationships[k]? = some .descendant → c.selectors[k]? = some s →
    ∀ (p : Nat) (x : Styleable), pos (k + 1) < p → p < pos k → chain[p]? = some x → s.applies n x ≠ .ok true

/-- A part in front of a descendant combinator that asks for pseudo-classes, or has
a child combinator to its left, applies to at most one of the ancestors. -/
def UniqueAncestor (n : Names) (c : CompoundSelector) (chain : List Styleable) : Prop :=
  ∀ (k : Nat) (s : SimpleSelector), c.relationships[k]? = some .descendant → c.selectors[k]? = some s →
    ((∃ i, has s.pseudoClassState i = true) ∨ ∃ j, k = j + 1 ∧ c.relationships[j]? = some .child) →
    ∀ (p q : Nat) (x y : Styleable), 1 ≤ p → 1 ≤ q → chain[p]? = some x → chain[q]? = some y →
      s.applies n x = .ok true → s.applies n y = .ok true → p = q

theorem UniqueAncestor.drop {chain : List Styleable} (h : UniqueAncestor n c chain) (d : Nat) :
    UniqueAncestor n c (chain.drop d) := by
  intro k s hk hs hasks p q x y hp hq hx hy hsx hsy
  rw [List.getElem?_drop] at hx hy
  have heq := h k s hk hs hasks (d + p) (d + q) x y (by omega) (by omega) hx hy hsx hsy
  omega

/-- The distance that `stateMatches` goes: over a descendant combinator, to the
nearest ancestor to which the part applies. -/
def nearestAllowed (n : Names) (c : CompoundSelector) (k : Nat) (chain : List Styleable) (d : Nat) : Prop :=
  c.allowed k chain d ∧ ∀ (s : SimpleSelector), c.relationships[k]? = some .descendant → c.selectors[k]? = some s →
    ∀ (p : Nat) (x : Styleable), 1 ≤ p → p < d → chain[p]? = some x → s.applies n x ≠ .ok true

theorem assigned_nearest_iff {chain : List Styleable} {ok : Nat → Styleable → Prop} {pos : Nat → Nat}
    (hjoined : c.Joined) : Assigned ok (nearestAllowed n c) (c.selectors.length - 1) chain pos ↔
      Assigned ok c.allowed (c.selectors.length - 1) chain pos ∧ NearestParts n c chain pos := by
  rw [Joined] at hjoined
  constructor
  · intro h
    refine ⟨⟨h.last, ?_, h.parts⟩, ?_⟩
    · intro k hk
      obtain ⟨d, hd, hpos⟩ := h.gaps k hk
      exact ⟨d, hd.1, hpos⟩
    · intro k s hrel hs p x hp hp' hx
      have hlt := (List.getElem?_eq_some_iff.mp hrel).1
      obtain ⟨d, hd, hpos⟩ := h.gaps k (by omega)
      apply hd.2 s hrel hs (p - pos (k + 1)) x (by omega) (by omega)
      rw [List.getElem?_drop, show pos (k + 1) + (p - pos (k + 1)) = p by omega]
      exact hx
  · rintro ⟨h, hnear⟩
    refine ⟨h.last, ?_, h.parts⟩
    intro k hk
    obtain ⟨d, hd, hpos⟩ := h.gaps k hk
    refine ⟨d, ⟨hd, ?_⟩, hpos⟩
    intro s hrel hs p x hp hp' hx
    rw [List.getElem?_drop] at hx
    exact hnear k s hrel hs _ x (by omega) (by omega) hx

/-! ### What one call answers -/

abbrev MatchedStates (n : Names) (c : CompoundSelector) : Nat → List Styleable → Prop :=
  Matched (c.PartFits (FitsState n)) c.allowed

/-- The same, with every part on the nearest ancestor. -/
abbrev MatchedNearest (n : Names) (c : CompoundSelector) : Nat → List Styleable → Prop :=
  Matched (c.PartFits (FitsState n)) (nearestAllowed n c)

/-- A call of `stateMatches` for part `i` on the first element of a chain returns, and
finds the nearest match. -/
def Answers (n : Names) (c : CompoundSelector) (i : Nat) (chain : List Styleable) (answer : Except Exn Bool) :
    Prop :=
  ∃ b, answer = .ok b ∧ (b = true ↔ MatchedNearest n c i chain)

theorem Answers.ofFalse {i : Nat} {chain : List Styleable} (h : ¬MatchedNearest n c i chain) :
    Answers n c i chain (.ok false) := by
  refine ⟨false, rfl, ?_⟩
  constructor
  · intro hb
    cases hb
  · intro hm
    exact absurd hm h

theorem Answers.goOn {i d : Nat} {chain : List Styleable} {answer : Except Exn Bool}
    (h : Answers n c i (chain.drop d) answer)
    (hhead : ∃ e, chain[0]? = some e ∧ c.PartFits (FitsState n) (i + 1) e) (hd : nearestAllowed n c i chain d)
    (honly : ∀ d', nearestAllowed n c i chain d' → MatchedNearest n c i (chain.drop d') → d' = d) :
    Answers n c (i + 1) chain answer := by
  obtain ⟨b, hb, hiff⟩ := h
  refine ⟨b, hb, hiff.trans ⟨fun hm => ⟨hhead, d, hd, hm⟩, ?_⟩⟩
  rintro ⟨-, d', hd', hm⟩
  rw [← honly d' hd' hm]
  exact hm

/-- A match of the parts up to `i` starts at an element to which part `i` applies. -/
theorem MatchedNearest.applies {i d : Nat} {chain : List Styleable} {s : SimpleSelector}
    (hm : MatchedNearest n c i (chain.drop d)) (hs : c.selectors[i]? = some s) :
    ∃ x, chain[d]? = some x ∧ s.applies n x = .ok true := by
  obtain ⟨x, hx, s', hs', hfits⟩ := hm.head
  rw [List.getElem?_drop, Nat.add_zero] at hx
  rw [hs] at hs'
  cases hs'
  exact ⟨x, hx, hfits.1⟩

section Steps
variable {i : Nat} {e : Styleable} {ancestors : List Styleable} {left : SimpleSelector}

theorem answers_child (hcase : c.relationships[i]? = some .child) (hleft : c.selectors[i]? = some left)
    (hblank : ∀ x ∈ ancestors, x.NoBlank)
    (hhead : ∃ x, (e :: ancestors)[0]? = some x ∧ c.PartFits (FitsState n) (i + 1) x)
    (ih : ∀ parent rest, ancestors = parent :: rest → left.applies n parent = .ok true →
      Answers n c i (parent :: rest) (c.stateMatchesAt n i (parent :: rest) (some parent.pseudoClassStates))) :
    Answers n c (i + 1) (e :: ancestors) (match ancestors with
      | [] => .ok false
      | parent :: rest =>
          match left.applies n parent with
          | .error e => .error e
          | .ok false => .ok false
          | .ok true => c.stateMatchesAt n i (parent :: rest) (some parent.pseudoClassStates)) := by
  have hallowed : ∀ d, nearestAllowed n c i (e :: ancestors) d → d = 1 := by
    intro d hd
    have hd := hd.1
    rw [allowed, hcase] at hd
    exact hd
  have hone : nearestAllowed n c i (e :: ancestors) 1 := by
    refine ⟨by rw [allowed, hcase], ?_⟩
    intro s hrel
    rw [hcase] at hrel
    cases hrel
  cases ancestors with
  | nil =>
    apply Answers.ofFalse
    rintro ⟨-, d, hd, hm⟩
    rw [hallowed d hd] at hm
    exact not_matched_nil i hm
  | cons parent rest =>
    obtain ⟨b, hb⟩ := SimpleSelector.applies_returns n left (hblank parent (List.mem_cons_self ..))
    dsimp only
    rw [hb]
    cases b with
    | false =>
      apply Answers.ofFalse
      rintro ⟨-, d, hd, hm⟩
      rw [hallowed d hd] at hm
      obtain ⟨x, hx, hxapplies⟩ := MatchedNearest.applies hm hleft
      cases hx
      rw [hb] at hxapplies
      cases hxapplies
    | true =>
      exact @Answers.goOn n c i 1 (e :: parent :: rest) _ (ih parent rest rfl hb) hhead hone
        (fun d hd _ => hallowed d hd)

theorem answers_descendant (hcase : c.relationships[i]? = some .descendant) (hleft : c.selectors[i]? = some left)
    (hblank : ∀ x ∈ ancestors, x.NoBlank)
    (hhead : ∃ x, (e :: ancestors)[0]? = some x ∧ c.PartFits (FitsState n) (i + 1) x)
    (ih : ∀ d parent rest, ancestors.drop d = parent :: rest → left.applies n parent = .ok true →
      Answers n c i (parent :: rest) (c.stateMatchesAt n i (parent :: rest) (some parent.pseudoClassStates))) :
    Answers n c (i + 1) (e :: ancestors) (match nearest (left.applies n) ancestors with
      | .error e => .error e
      | .ok [] => .ok false
      | .ok (parent :: rest) => c.stateMatchesAt n i (parent :: rest) (some parent.pseudoClassStates)) := by
  have hallowed : ∀ d, c.allowed i (e :: ancestors) d ↔ 1 ≤ d := by
    intro d
    rw [allowed, hcase]
  rcases nearest_spec ancestors (fun x hx => SimpleSelector.applies_returns n left (hblank x hx))
    with ⟨hnone, hall⟩ | ⟨d, parent, rest, hd, hnear, happly, hbefore⟩
  · rw [hnone]
    apply Answers.ofFalse
    rintro ⟨-, d, hd, hm⟩
    obtain ⟨x, hx, hxapplies⟩ := MatchedNearest.applies hm hleft
    have hpos := (hallowed d).mp hd.1
    obtain ⟨d, rfl⟩ : ∃ d', d = d' + 1 := ⟨d - 1, by omega⟩
    exact hall x (List.mem_of_getElem? hx) hxapplies
  · rw [hnear]
    dsimp only
    have hdrop : (e :: ancestors).drop (d + 1) = parent :: rest := hd
    have hparent : (e :: ancestors)[d + 1]? = some parent := by
      rw [← Nat.add_zero (d + 1), ← List.getElem?_drop, hdrop]
      rfl
    have hih := ih d parent rest hd happly
    rw [← hdrop] at hih ⊢
    refine hih.goOn hhead ⟨(hallowed _).mpr (by omega), ?_⟩ ?_
    · intro s _ hs p x hp hpd hx
      rw [hleft] at hs
      cases hs
      obtain ⟨p, rfl⟩ : ∃ p', p = p' + 1 := ⟨p - 1, by omega⟩
      exact hbefore p x (by omega) hx
    · -- a nearer ancestor does not match, and a farther one is not the nearest
      intro d' hd' hm
      obtain ⟨x, hx, hxapplies⟩ := MatchedNearest.applies hm hleft
      have hpos := (hallowed d').mp hd'.1
      rcases Nat.lt_trichotomy d' (d + 1) with hlt | heq | hgt
      · obtain ⟨d', rfl⟩ : ∃ d'', d' = d'' + 1 := ⟨d' - 1, by omega⟩
        exact absurd hxapplies (hbefore d' x (by omega) hx)
      · exact heq
      · exact absurd happly (hd'.2 left hcase hleft (d + 1) parent (by omega) hgt hparent)

end Steps

theorem stateMatchesAt_spec (hjoined : c.Joined) {i : Nat} (hi : i < c.selectors.length) {e : Styleable}
    {ancestors : List Styleable} (hblank : ∀ x ∈ e :: ancestors, x.NoBlank)
    (happlies : ∀ s, c.selectors[i]? = some s → s.applies n e = .ok true) :
    Answers n c i (e :: ancestors) (c.stateMatchesAt n i (e :: ancestors) (some e.pseudoClassStates)) := by
  induction i generalizing e ancestors with
  | zero =>
    have hs : c.selectors[0]? = some c.selectors[0] := List.getElem?_eq_getElem hi
    refine ⟨_, by rw [stateMatchesAt, hs], ?_⟩
    rw [stateMatches_some]
    constructor
    · intro hstates
      exact ⟨e, rfl, _, hs, happlies _ hs, hstates⟩
    · rintro ⟨x, hx, s, hs', hfits⟩
      cases hx
      rw [hs] at hs'
      cases hs'
      exact hfits.2
  | succ i ih =>
    have hs : c.selectors[i + 1]? = some c.selectors[i + 1] := List.getElem?_eq_getElem hi
    have hleft : c.selectors[i]? = some c.selectors[i] := List.getElem?_eq_getElem (by omega)
    have hrest : ∀ x ∈ ancestors, x.NoBlank := fun x hx => hblank x (List.mem_cons_of_mem _ hx)
    have hcalls : ∀ d parent rest, ancestors.drop d = parent :: rest → c.selectors[i].applies n parent = .ok true →
        Answers n c i (parent :: rest) (c.stateMatchesAt n i (parent :: rest) (some parent.pseudoClassStates)) := by
      intro d parent rest hd happly
      apply ih (by omega)
      · intro x hx
        rw [← hd] at hx
        exact hrest x (List.mem_of_mem_drop hx)
      · intro s hs'
        rw [hleft] at hs'
        cases hs'
        exact happly
    rw [stateMatchesAt.eq_def]
    dsimp only
    rw [hs]
    dsimp only
    by_cases hstates : c.selectors[i + 1].stateMatches (some e.pseudoClassStates) = true
    · have hhead : ∃ x, (e :: ancestors)[0]? = some x ∧ c.PartFits (FitsState n) (i + 1) x :=
        ⟨e, rfl, _, hs, happlies _ hs, (stateMatches_some _ _).mp hstates⟩
      rw [hstates, hleft]
      rw [if_neg (by simp)]
      cases hcase : c.relationships[i]? with
      | none =>
        rw [Joined] at hjoined
        rw [List.getElem?_eq_none_iff] at hcase
        omega
      | some rel =>
        cases rel with
        | child => exact answers_child hcase hleft hrest hhead (fun parent rest h => hcalls 0 parent rest h)
        | descendant => exact answers_descendant hcase hleft hrest hhead hcalls
    · rw [Bool.eq_false_iff.mpr hstates]
      rw [if_pos (by simp)]
      apply Answers.ofFalse
      rintro ⟨⟨x, hx, s, hs', hfits⟩, -⟩
      cases hx
      rw [hs] at hs'
      cases hs'
      exact hstates ((stateMatches_some _ _).mpr hfits.2)

/-! ### When the nearest ancestor will do -/

/-- A part without pseudo-classes and without a child combinator to its left may as
well lie on a nearer ancestor to which it applies. -/
theorem MatchedStates.nearer (hjoined : c.Joined) {i d d' : Nat} {chain : List Styleable} {s : SimpleSelector}
    {x : Styleable} (hs : c.selectors[i]? = some s) (hstates : ∀ j, has s.pseudoClassState j = false)
    (hchild : ∀ j, i = j + 1 → c.relationships[j]? ≠ some .child) (hle : d ≤ d') (hx : chain[d]? = some x)
    (happlies : s.applies n x = .ok true) (hm : MatchedStates n c i (chain.drop d')) :
    MatchedStates n c i (chain.drop d) := by
  have hhead : ∃ e, (chain.drop d)[0]? = some e ∧ c.PartFits (FitsState n) i e := by
    refine ⟨x, ?_, s, hs, happlies, ?_⟩
    · rw [List.getElem?_drop, Nat.add_zero]
      exact hx
    · intro j hj
      rw [hstates j] at hj
      cases hj
  cases i with
  | zero => exact hhead
  | succ i =>
    obtain ⟨-, g, hg, hrest⟩ := hm
    have hlt := (List.getElem?_eq_some_iff.mp hs).1
    rw [Joined] at hjoined
    refine ⟨hhead, d' - d + g, ?_, ?_⟩
    · cases hcase : c.relationships[i]? with
      | none =>
        rw [List.getElem?_eq_none_iff] at hcase
        omega
      | some rel =>
        cases rel with
        | child => exact absurd hcase (hchild i rfl)
        | descendant =>
          rw [allowed, hcase] at hg ⊢
          dsimp only at hg ⊢
          omega
    · rw [List.drop_drop] at hrest ⊢
      rw [show d + (d' - d + g) = d' + g by omega]
      exact hrest

theorem exists_nearest {P : Nat → Prop} {d : Nat} (hd : P d) (hpos : 1 ≤ d) :
    ∃ m, 1 ≤ m ∧ m ≤ d ∧ P m ∧ ∀ p, 1 ≤ p → p < m → ¬P p := by
  induction d using Nat.strong_induction_on with
  | h d ih =>
    by_cases hnearer : ∃ p, 1 ≤ p ∧ p < d ∧ P p
    · obtain ⟨p, hp, hlt, hP⟩ := hnearer
      obtain ⟨m, hm, hle, hPm, hmin⟩ := ih p hlt hP hp
      exact ⟨m, hm, by omega, hPm, hmin⟩
    · exact ⟨d, hpos, Nat.le_refl d, hd, fun p hp hlt hP => hnearer ⟨p, hp, hlt, hP⟩⟩

theorem MatchedStates.toNearest (hjoined : c.Joined) {i : Nat} {chain : List Styleable}
    (hunique : UniqueAncestor n c chain) (hm : MatchedStates n c i chain) : MatchedNearest n c i chain := by
  induction i generalizing chain with
  | zero => exact hm
  | succ i ih =>
    obtain ⟨hhead, d, hd, hrest⟩ := hm
    refine ⟨hhead, ?_⟩
    cases hcase : c.relationships[i]? with
    | none =>
      rw [allowed, hcase] at hd
      exact absurd hd id
    | some rel =>
      cases rel with
      | child =>
        refine ⟨d, ⟨hd, ?_⟩, ih (hunique.drop d) hrest⟩
        intro s hrel
        rw [hcase] at hrel
        cases hrel
      | descendant =>
        obtain ⟨y, hy, s, hs, hfits⟩ := hrest.head
        rw [List.getElem?_drop, Nat.add_zero] at hy
        have hpos : 1 ≤ d := by
          rw [allowed, hcase] at hd
          exact hd
        obtain ⟨m, hm, hle, ⟨x, hx, happlies⟩, hmin⟩ :=
          @exists_nearest (fun p => ∃ x, chain[p]? = some x ∧ s.applies n x = .ok true) d ⟨y, hy, hfits.1⟩ hpos
        refine ⟨m, ⟨?_, ?_⟩, ih (hunique.drop m) ?_⟩
        · rw [allowed, hcase]
          exact hm
        · intro s' _ hs' p x' hp hlt hx' happlies'
          rw [hs] at hs'
          cases hs'
          exact hmin p hp hlt ⟨x', hx', happlies'⟩
        · by_cases hasks : (∃ j, has s.pseudoClassState j = true) ∨ ∃ j, i = j + 1 ∧ c.relationships[j]? = some .child
          · rw [hunique i s hcase hs hasks m d x y hm hpos hx hy happlies hfits.1]
            exact hrest
          · refine MatchedStates.nearer hjoined hs ?_ ?_ hle hx happlies hrest
            · intro j
              exact Bool.eq_false_iff.mpr (fun hj => hasks (Or.inl ⟨j, hj⟩))
            · intro j hj hchild
              exact hasks (Or.inr ⟨j, hj, hchild⟩)

theorem appliesAt_withStates (i : Nat) (node : Styleable) (ancestors : List Styleable) (states : List Long) :
    c.appliesAt n i ({ node with pseudoClassStates := states } :: ancestors) =
      c.appliesAt n i (node :: ancestors) := by
  cases i with
  | zero => rfl
  | succ i => rfl

theorem stateMatchesAt_withStates (i : Nat) (node : Styleable) (ancestors : List Styleable) (states : List Long) :
    c.stateMatchesAt n i (node :: ancestors) (some states) =
      c.stateMatchesAt n i ({ node with pseudoClassStates := states } :: ancestors) (some states) := by
  cases i with
  | zero => rfl
  | succ i => rfl

theorem nearestParts_withStates (node : Styleable) (ancestors : List Styleable) (states : List Long)
    {pos : Nat → Nat} : NearestParts n c ({ node with pseudoClassStates := states } :: ancestors) pos ↔
      NearestParts n c (node :: ancestors) pos := by
  have hsame : ∀ p : Nat, 0 < p →
      ({ node with pseudoClassStates := states } :: ancestors)[p]? = (node :: ancestors)[p]? := by
    intro p hp
    obtain ⟨p, rfl⟩ : ∃ p', p = p' + 1 := ⟨p - 1, by omega⟩
    rfl
  constructor
  · intro h k s hk hs p x hp hp' hx
    rw [← hsame p (by omega)] at hx
    exact h k s hk hs p x hp hp' hx
  · intro h k s hk hs p x hp hp' hx
    rw [hsame p (by omega)] at hx
    exact h k s hk hs p x hp hp' hx

theorem matchedStates_iff (hjoined : c.Joined) {chain : List Styleable} :
    MatchedStates n c (c.selectors.length - 1) chain ↔ ∃ pos, Assignment c chain (FitsState n) pos := by
  rw [MatchedStates, matched_iff]
  simp only [assigned_iff_assignment hjoined]

theorem matchedNearest_iff (hjoined : c.Joined) {chain : List Styleable} :
    MatchedNearest n c (c.selectors.length - 1) chain ↔
      ∃ pos, Assignment c chain (FitsState n) pos ∧ NearestParts n c chain pos := by
  rw [MatchedNearest, matched_iff]
  simp only [assigned_nearest_iff hjoined, assigned_iff_assignment hjoined]

/-- For a selector without pseudo-classes the elements' states do not matter. -/
theorem matchedStates_iff_applies (hnone : ∀ s ∈ c.selectors, ∀ i, has s.pseudoClassState i = false) {i : Nat}
    {chain : List Styleable} :
    MatchedStates n c i chain ↔ Matched (c.PartFits (AppliesTo n)) c.allowed i chain := by
  constructor
  · intro hm
    refine hm.mono ?_ (fun _ _ _ hd => hd)
    rintro k e ⟨s, hs, hfits⟩
    exact ⟨s, hs, hfits.1⟩
  · intro hm
    refine hm.mono ?_ (fun _ _ _ hd => hd)
    rintro k e ⟨s, hs, hfits⟩
    refine ⟨s, hs, hfits, ?_⟩
    intro i hi
    rw [hnone s (List.mem_of_getElem? hs) i] at hi
    cases hi

/-- The parts lie on the node, which has the given states, and its ancestors. -/
abbrev Assigns (n : Names) (c : CompoundSelector) (node : Styleable) (ancestors : List Styleable)
    (states : List Long) (pos : Nat → Nat) : Prop :=
  Assignment c ({ node with pseudoClassStates := states } :: ancestors) (FitsState n) pos

/-- For a selector whose last part applies to the node `stateMatches` returns, and
when it answers true, its parts can be assigned to the node and its ancestors so
that each part applies to its element and its pseudo-classes are among the states
of the element.  It answers true for every such assignment, and agrees with
`applies` for a selector without pseudo-classes, if and only if, when there is an
assignment at all, there is one to the nearest ancestors. -/
theorem stateMatches_iff_assignment (n : Names) (c : CompoundSelector) (hjoined : c.Joined) (node : Styleable)
    (ancestors : List Styleable) (states : List Long) (hblank : ∀ e ∈ node :: ancestors, e.NoBlank)
    (happlies : ∀ s, c.selectors.getLast? = some s → s.applies n node = .ok true) :
    ∃ b, c.stateMatches n (node :: ancestors) (some states) = .ok b ∧
      (b = true → ∃ pos, Assigns n c node ancestors states pos) ∧
      (((b = true ↔ ∃ pos, Assigns n c node ancestors states pos) ∧
          ((∀ s ∈ c.selectors, ∀ i, has s.pseudoClassState i = false) → c.applies n (node :: ancestors) = .ok b)) ↔
        ((∃ pos, Assigns n c node ancestors states pos) →
          ∃ pos, Assigns n c node ancestors states pos ∧ NearestParts n c (node :: ancestors) pos)) ∧
      (UniqueAncestor n c (node :: ancestors) → (∃ pos, Assigns n c node ancestors states pos) →
        ∃ pos, Assigns n c node ancestors states pos ∧ NearestParts n c (node :: ancestors) pos) := by
  have hlength : c.selectors.length = c.selectors.length - 1 + 1 := by
    rw [Joined] at hjoined
    omega
  have hlast : c.selectors.length - 1 < c.selectors.length := by omega
  have hblank' : ∀ e ∈ { node with pseudoClassStates := states } :: ancestors, e.NoBlank := by
    intro e he
    rcases List.mem_cons.mp he with rfl | he
    · exact hblank node (List.mem_cons_self ..)
    · exact hblank e (List.mem_cons_of_mem _ he)
  obtain ⟨b, hb, hiff⟩ := stateMatchesAt_spec (n := n) hjoined hlast hblank' (by
    intro s hs
    rw [← List.getLast?_eq_getElem?] at hs
    exact happlies s hs)
  have hnearest : b = true ↔ ∃ pos, Assigns n c node ancestors states pos ∧ NearestParts n c (node :: ancestors) pos := by
    rw [hiff, matchedNearest_iff hjoined]
    simp only [nearestParts_withStates]
  have hunique : UniqueAncestor n c (node :: ancestors) →
      UniqueAncestor n c ({ node with pseudoClassStates := states } :: ancestors) := by
    intro h k s hk hs hasks p q x y hp hq hx hy
    obtain ⟨p, rfl⟩ : ∃ p', p = p' + 1 := ⟨p - 1, by omega⟩
    obtain ⟨q, rfl⟩ : ∃ q', q = q' + 1 := ⟨q - 1, by omega⟩
    exact h k s hk hs hasks _ _ x y hp hq hx hy
  have hsound : b = true → ∃ pos, Assigns n c node ancestors states pos := by
    intro htrue
    obtain ⟨pos, hpos, -⟩ := hnearest.mp htrue
    exact ⟨pos, hpos⟩
  refine ⟨b, ?_, hsound, ⟨?_, ?_⟩, ?_⟩
  · rw [stateMatches, hlength]
    dsimp only
    rw [stateMatchesAt_withStates]
    exact hb
  · rintro ⟨hcomplete, -⟩ hassigned
    exact hnearest.mp (hcomplete.mpr hassigned)
  · intro hmove
    have hcomplete : b = true ↔ ∃ pos, Assigns n c node ancestors states pos :=
      ⟨hsound, fun hassigned => hnearest.mpr (hmove hassigned)⟩
    refine ⟨hcomplete, ?_⟩
    intro hnone
    obtain ⟨b', hb', hiff'⟩ := appliesAt_spec (n := n) hjoined hlast (List.cons_ne_nil _ _) hblank'
    have hsame : b' = b := by
      rw [Bool.eq_iff_iff, hiff', ← matchedStates_iff_applies hnone, matchedStates_iff hjoined, hcomplete]
    rw [applies, hlength]
    dsimp only
    rw [← appliesAt_withStates, hb', hsame]
  · intro h hassigned
    have hmatched := MatchedStates.toNearest hjoined (hunique h) ((matchedStates_iff hjoined).mpr hassigned)
    exact hnearest.mp (hiff.mpr hmatched)

/-- The selector `X > .a .b`, where the part `.a` applies to one ancestor only. -/
theorem stateMatches_iff_assignment_descendant :
    let typeX : SimpleSelector := ⟨"X", [], [], .inherit, "", by decide, by decide⟩
    let c : CompoundSelector := ⟨[typeX, dotA, dotB], [.child, .descendant]⟩
    let node := element "Label" "b"
    let ancestors := [element "Pane" "c", element "Pane" "a", element "X" "c"]
    c.Joined ∧ (∀ e ∈ node :: ancestors, e.NoBlank) ∧
      (∀ s, c.selectors.getLast? = some s → s.applies namesAB node = .ok true) ∧
      UniqueAncestor namesAB c (node :: ancestors) ∧
      c.stateMatches namesAB (node :: ancestors) (some []) = .ok true ∧
      c.applies namesAB (node :: ancestors) = .ok true := by
  intro typeX c node ancestors
  have hblank : ∀ e ∈ node :: ancestors, e.NoBlank := by
    intro e he y hy _
    simp only [ancestors, node, List.mem_cons, List.not_mem_nil, or_false] at he
    rcases he with rfl | rfl | rfl | rfl <;> simp only [element, List.mem_singleton, Option.some.injEq] at hy <;>
      subst hy <;> decide
  have happlies : ∀ s, c.selectors.getLast? = some s → s.applies namesAB node = .ok true := by
    intro s hs
    obtain rfl : dotB = s := Option.some.inj hs
    rfl
  have honly : ∀ p x, 1 ≤ p → (node :: ancestors)[p]? = some x → dotA.applies namesAB x = .ok true → p = 2 := by
    intro p x hp hx hxapplies
    rcases p with _ | _ | _ | _ | p
    · omega
    · cases hx
      cases hxapplies
    · rfl
    · cases hx
      cases hxapplies
    · cases hx
  have hunique : UniqueAncestor namesAB c (node :: ancestors) := by
    intro k s hk hs _ p q x y hp hq hx hy hsx hsy
    rcases k with _ | _ | k
    · cases hk
    · cases hs
      rw [honly p x hp hx hsx, honly q y hq hy hsy]
    · cases hk
  obtain ⟨b, hb, -, hexact, hmoves⟩ := stateMatches_iff_assignment namesAB c rfl node ancestors [] hblank happlies
  have htrue : b = true := Except.ok.inj (hb.symm.trans rfl)
  rw [htrue] at hb hexact
  refine ⟨rfl, hblank, happlies, hunique, hb, (hexact.mpr (hmoves hunique)).2 ?_⟩
  intro s hs i
  rcases List.mem_cons.mp hs with rfl | hs
  · exact has_nil i
  rcases List.mem_cons.mp hs with rfl | hs
  · exact has_nil i
  · rw [List.mem_singleton.mp hs]
    exact has_nil i

/-- The selector `X > .a .b` on two nested elements of class `a`, of which only the
outer one is a child of an `X`; and the selector `.a .b` on a node to which its
last part does not apply. -/
theorem stateMatches_commits_to_the_nearest :
    let typeX : SimpleSelector := ⟨"X", [], [], .inherit, "", by decide, by decide⟩
    let c : CompoundSelector := ⟨[typeX, dotA, dotB], [.child, .descendant]⟩
    let chain := [element "Label" "b", element "Pane" "a", element "Pane" "a", element "X" "c"]
    let fits := fun (s : SimpleSelector) (e : Styleable) => s.applies namesAB e = .ok true ∧
      ∀ i, has s.pseudoClassState i = true → has e.pseudoClassStates i = true
    (c.stateMatches namesAB chain (some []) = .ok false ∧ c.applies namesAB chain = .ok true ∧
      ∃ pos, Assignment c chain fits pos) ∧
    ((CompoundSelector.mk [dotA, dotB] [.descendant]).stateMatches namesAB
        [element "Label" "c", element "Pane" "a"] (some []) = .ok true ∧
      ¬∃ pos, Assignment ⟨[dotA, dotB], [.descendant]⟩ [element "Label" "c", element "Pane" "a"] fits pos) := by
  intro typeX c chain fits
  have hstates : ∀ (e : Styleable) (i : Nat), has ([] : List Long) i = true → has e.pseudoClassStates i = true := by
    intro e i hi
    rw [has_nil] at hi
    cases hi
  refine ⟨⟨rfl, rfl, fun k => if k = 0 then 3 else if k = 1 then 2 else 0, rfl, ?_, ?_, ?_⟩, rfl, ?_⟩
  · intro k hk
    match k with
    | 0 => decide
    | 1 => cases hk
    | k + 2 => cases hk
  · intro k hk
    match k with
    | 0 => cases hk
    | 1 => decide
    | k + 2 => cases hk
  · intro k s hs
    match k with
    | 0 =>
        cases hs
        exact ⟨element "X" "c", rfl, rfl, hstates _⟩
    | 1 =>
        cases hs
        exact ⟨element "Pane" "a", rfl, rfl, hstates _⟩
    | 2 =>
        cases hs
        exact ⟨element "Label" "b", rfl, rfl, hstates _⟩
    | k + 3 => cases hs
  · rintro ⟨pos, hpos⟩
    obtain ⟨e, he, happlies, -⟩ := hpos.parts 1 dotB rfl
    have hnode : pos 1 = 0 := hpos.node
    rw [hnode] at he
    cases he
    cases happlies

end CompoundSelector

end OpenJfx.Css
