import Mathlib.Logic.Relation
import Mathlib.Logic.Function.Basic
import Mathlib.Data.Fintype.Card

/-! # Upward links

Every node has at most one link to another node.  `Reaches` follows links, and
the links are `Acyclic` when no node leads back to itself.  New links to `p` keep
the links acyclic when `p` does not lead to a node that gets one. -/
set_option autoImplicit false
namespace OpenJfx.Lib

section Links
variable {N : Type}

/-- `b` is `a` or is found by following links from `a`. -/
def Reaches (link : N → Option N) (a b : N) : Prop := Relation.ReflTransGen (fun x y => link x = some y) a b

def Acyclic (link : N → Option N) : Prop := ∀ n, ¬Relation.TransGen (fun x y => link x = some y) n n

section AttachAll
variable {link link' : N → Option N} {p : N} {below : N → Prop}
variable (hfree : ∀ c, below c → ¬Reaches link p c)
variable (hnew : ∀ x y, link' x = some y → below x ∧ y = p ∨ link x = some y)

include hfree hnew

theorem Reaches.of_attachAll {b : N} (h : Reaches link' p b) : Reaches link p b := by
  induction h with
  | refl => exact Relation.ReflTransGen.refl
  | @tail b c hpath hedge ih =>
    rcases hnew b c hedge with ⟨hb, -⟩ | hold
    · exact absurd ih (hfree b hb)
    · exact ih.tail hold

theorem transGen_attachAll {a b : N} (h : Relation.TransGen (fun x y => link' x = some y) a b) :
    Relation.TransGen (fun x y => link x = some y) a b ∨ ∃ c, below c ∧ Reaches link' a c ∧ Reaches link' p b := by
  induction h with
  | @single b hedge =>
    rcases hnew a b hedge with ⟨ha, rfl⟩ | hold
    · exact Or.inr ⟨a, ha, Relation.ReflTransGen.refl, Relation.ReflTransGen.refl⟩
    · exact Or.inl (Relation.TransGen.single hold)
  | @tail b c hpath hedge ih =>
    rcases hnew b c hedge with ⟨hb, rfl⟩ | hold
    · exact Or.inr ⟨b, hb, hpath.to_reflTransGen, Relation.ReflTransGen.refl⟩
    · rcases ih with hfirst | ⟨d, hd, hto, hfrom⟩
      · exact Or.inl (hfirst.tail hold)
      · exact Or.inr ⟨d, hd, hto, hfrom.tail hedge⟩

theorem Acyclic.attachAll (h : Acyclic link) : Acyclic link' := by
  intro a ha
  rcases transGen_attachAll hfree hnew ha with hold | ⟨c, hc, hto, hfrom⟩
  · exact h a hold
  · exact hfree c hc (Reaches.of_attachAll hfree hnew (hfrom.trans hto))

end AttachAll

/-! ## Walking up -/

/-- The nodes met by following `fuel` links. -/
def ascend (link : N → Option N) : Nat → N → List N
  | 0, _ => []
  | fuel + 1, n => n :: match link n with
      | some m => ascend link fuel m
      | none => []

attribute [local simp] ascend

theorem mem_ascend {link : N → Option N} {fuel : Nat} {n m : N} (h : m ∈ ascend link fuel n) : Reaches link n m := by
  induction fuel generalizing n with
  | zero => cases h
  | succ fuel ih =>
    rcases List.mem_cons.mp h with rfl | hrest
    · exact Relation.ReflTransGen.refl
    · cases hlink : link n with
      | none =>
        rw [hlink] at hrest
        cases hrest
      | some k =>
        rw [hlink] at hrest
        exact Relation.ReflTransGen.head hlink (ih hrest)

theorem ascend_nodup {link : N → Option N} (hacyclic : Acyclic link) (fuel : Nat) (n : N) :
    (ascend link fuel n).Nodup := by
  induction fuel generalizing n with
  | zero => exact List.nodup_nil
  | succ fuel ih =>
    unfold ascend
    cases hlink : link n with
    | none => simp
    | some m =>
      refine List.nodup_cons.mpr ⟨?_, ih m⟩
      intro hmem
      exact hacyclic n (Relation.TransGen.head' hlink (mem_ascend hmem))

/-! ## All nodes above a node -/

section Above
variable {link : N → Option N}

theorem ascend_add {fuel : Nat} {n : N} (hfuel : (ascend link fuel n).length < fuel) (extra : Nat) :
    ascend link (fuel + extra) n = ascend link fuel n := by
  induction fuel generalizing n with
  | zero => cases hfuel
  | succ fuel ih =>
    rw [Nat.add_right_comm, ascend, ascend]
    rw [ascend] at hfuel
    cases hlink : link n with
    | none => rfl
    | some m =>
      rw [hlink] at hfuel
      exact congrArg (n :: ·) (ih (Nat.lt_of_succ_lt_succ hfuel))

theorem mem_ascend_of_reaches {fuel : Nat} {n m : N} (hfuel : (ascend link fuel n).length < fuel)
    (h : Reaches link n m) : m ∈ ascend link fuel n := by
  induction fuel generalizing n with
  | zero => cases hfuel
  | succ fuel ih =>
    rw [ascend] at hfuel ⊢
    rcases Relation.ReflTransGen.cases_head h with rfl | ⟨k, hk, hrest⟩
    · exact List.mem_cons_self ..
    · simp only [hk] at hfuel ⊢
      exact List.mem_cons_of_mem _ (ih (Nat.lt_of_succ_lt_succ hfuel) hrest)

variable [Fintype N]

/-- The nodes from a node up to the top, itself included. -/
def lineage (link : N → Option N) (n : N) : List N := ascend link (Fintype.card N + 1) n

theorem lineage_length_le (hacyclic : Acyclic link) (n : N) : (lineage link n).length ≤ Fintype.card N :=
  (ascend_nodup hacyclic _ n).length_le_card

theorem mem_lineage (hacyclic : Acyclic link) {n m : N} : m ∈ lineage link n ↔ Reaches link n m :=
  ⟨mem_ascend, mem_ascend_of_reaches (Nat.lt_succ_of_le (lineage_length_le hacyclic n))⟩

theorem lineage_of_link (hacyclic : Acyclic link) {n m : N} (hlink : link n = some m) :
    lineage link n = n :: lineage link m := by
  have hlen := lineage_length_le hacyclic n
  rw [lineage, ascend, hlink] at hlen ⊢
  rw [lineage, ascend_add (Nat.lt_of_succ_le hlen) 1]

theorem Acyclic.wellFounded (hacyclic : Acyclic link) : WellFounded (fun c p => link c = some p) := by
  refine Subrelation.wf ?_ (measure fun n => Fintype.card N - (lineage link n).length).wf
  intro c p hlink
  have hle := lineage_length_le hacyclic c
  rw [lineage_of_link hacyclic hlink, List.length_cons] at hle
  simp only [InvImage, WellFoundedRelation.rel, lineage_of_link hacyclic hlink, List.length_cons]
  exact Nat.sub_lt_sub_left hle (Nat.lt_succ_self _)

end Above

end Links

end OpenJfx.Lib
