import Mathlib.Data.List.Basic

/-! # Patterns along a chain

A pattern with parts `0, …, i` is laid over a chain of elements, part `i` on its
first element and every part a distance before the next one that `gap` allows, on
the chain that starts with the element of that next part.  `Matched` takes the parts one by one, `Assigned` gives all positions at once. -/
set_option autoImplicit false
namespace OpenJfx.Lib.AncestorChain

section Chain
variable {E : Type} (ok : Nat → E → Prop) (gap : Nat → List E → Nat → Prop)

def Matched : Nat → List E → Prop
  | 0, chain => ∃ e, chain[0]? = some e ∧ ok 0 e
  | i + 1, chain => (∃ e, chain[0]? = some e ∧ ok (i + 1) e) ∧ ∃ d, gap i chain d ∧ Matched i (chain.drop d)

structure Assigned (i : Nat) (chain : List E) (pos : Nat → Nat) : Prop where
  last : pos i = 0
  gaps : ∀ k, k < i → ∃ d, gap k (chain.drop (pos (k + 1))) d ∧ pos k = pos (k + 1) + d
  parts : ∀ k, k ≤ i → ∃ e, chain[pos k]? = some e ∧ ok k e

variable {ok gap}

theorem Assigned.pos_add_le {i : Nat} {chain : List E} {pos : Nat → Nat} (h : Assigned ok gap i chain pos)
    (k m : Nat) (hk : k + m ≤ i) : pos (k + m) ≤ pos k := by
  induction m with
  | zero => exact Nat.le_refl _
  | succ m ih =>
    obtain ⟨d, -, hd⟩ := h.gaps (k + m) (by omega)
    have hle := ih (by omega)
    rw [show k + (m + 1) = k + m + 1 by omega]
    omega

theorem Assigned.pos_le {i : Nat} {chain : List E} {pos : Nat → Nat} (h : Assigned ok gap (i + 1) chain pos)
    {k : Nat} (hk : k ≤ i) : pos i ≤ pos k := by
  have hle := h.pos_add_le k (i - k) (by omega)
  rw [show k + (i - k) = i by omega] at hle
  exact hle

theorem Matched.assigned {i : Nat} {chain : List E} (h : Matched ok gap i chain) :
    ∃ pos, Assigned ok gap i chain pos := by
  induction i generalizing chain with
  | zero =>
    refine ⟨fun _ => 0, rfl, fun k hk => absurd hk (Nat.not_lt_zero k), ?_⟩
    intro k hk
    rw [Nat.le_zero.mp hk]
    exact h
  | succ i ih =>
    obtain ⟨hhead, d, hgap, hrest⟩ := h
    obtain ⟨pos, hlast, hgaps, hparts⟩ := ih hrest
    refine ⟨fun k => if k = i + 1 then 0 else pos k + d, if_pos rfl, ?_, ?_⟩
    · intro k hk
      have hthis : (if k = i + 1 then 0 else pos k + d) = pos k + d := if_neg (by omega)
      by_cases hki : k = i
      · subst hki
        refine ⟨d, ?_, ?_⟩
        · rw [if_pos rfl]
          exact hgap
        · rw [hthis, if_pos rfl, hlast]
      · obtain ⟨g, hg, hpos⟩ := hgaps k (by omega)
        have hnext : (if k + 1 = i + 1 then 0 else pos (k + 1) + d) = pos (k + 1) + d := if_neg (by omega)
        refine ⟨g, ?_, ?_⟩
        · rw [hnext, Nat.add_comm, ← List.drop_drop]
          exact hg
        · rw [hthis, hnext, hpos]
          omega
    · intro k hk
      by_cases hki : k = i + 1
      · rw [if_pos hki, hki]
        exact hhead
      · obtain ⟨e, he, hok⟩ := hparts k (by omega)
        rw [List.getElem?_drop] at he
        refine ⟨e, ?_, hok⟩
        rw [if_neg hki, Nat.add_comm]
        exact he

theorem Assigned.matched {i : Nat} {chain : List E} {pos : Nat → Nat} (h : Assigned ok gap i chain pos) :
    Matched ok gap i chain := by
  induction i generalizing chain pos with
  | zero =>
    obtain ⟨e, he, hok⟩ := h.parts 0 (Nat.le_refl _)
    rw [h.last] at he
    exact ⟨e, he, hok⟩
  | succ i ih =>
    obtain ⟨e, he, hok⟩ := h.parts (i + 1) (Nat.le_refl _)
    obtain ⟨d, hgap, hd⟩ := h.gaps i (by omega)
    rw [h.last] at he hd
    rw [Nat.zero_add] at hd
    rw [h.last, List.drop_zero] at hgap
    refine ⟨⟨e, he, hok⟩, d, hgap, @ih _ (fun k => pos k - d) ?_⟩
    refine ⟨by rw [hd, Nat.sub_self], ?_, ?_⟩
    · intro k hk
      obtain ⟨g, hg, hpos⟩ := h.gaps k (by omega)
      have hle := h.pos_le (show k + 1 ≤ i by omega)
      refine ⟨g, ?_, by omega⟩
      rw [List.drop_drop, show d + (pos (k + 1) - d) = pos (k + 1) by omega]
      exact hg
    · intro k hk
      obtain ⟨x, hx, hokx⟩ := h.parts k (by omega)
      have hle := h.pos_le hk
      refine ⟨x, ?_, hokx⟩
      rw [List.getElem?_drop, show d + (pos k - d) = pos k by omega]
      exact hx

theorem matched_iff {i : Nat} {chain : List E} : Matched ok gap i chain ↔ ∃ pos, Assigned ok gap i chain pos :=
  ⟨Matched.assigned, fun ⟨_, h⟩ => h.matched⟩

theorem Matched.head {i : Nat} {chain : List E} (h : Matched ok gap i chain) :
    ∃ e, chain[0]? = some e ∧ ok i e := by
  cases i with
  | zero => exact h
  | succ i => exact h.1

theorem Matched.mono {ok' : Nat → E → Prop} {gap' : Nat → List E → Nat → Prop} (hok : ∀ k e, ok k e → ok' k e)
    (hgap : ∀ k chain d, gap k chain d → gap' k chain d) {i : Nat} {chain : List E}
    (h : Matched ok gap i chain) : Matched ok' gap' i chain := by
  induction i generalizing chain with
  | zero =>
    obtain ⟨e, he, hfits⟩ := h
    exact ⟨e, he, hok 0 e hfits⟩
  | succ i ih =>
    obtain ⟨⟨e, he, hfits⟩, d, hd, hrest⟩ := h
    exact ⟨⟨e, he, hok (i + 1) e hfits⟩, d, hgap i chain d hd, ih hrest⟩

theorem not_matched_nil (i : Nat) : ¬Matched ok gap i ([] : List E) := by
  intro h
  obtain ⟨e, he, -⟩ := h.head
  cases he

end Chain

end OpenJfx.Lib.AncestorChain
