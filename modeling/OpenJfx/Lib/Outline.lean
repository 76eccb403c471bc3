import Mathlib
import OpenJfx.Lib.Links

/-! # Outlines

A tree of nodes that can be opened and closed, shown as a list of rows: a node
is followed by the rows of its children when it is open.  The nodes are linked
by lists of children; that no node is below itself is part of the structure. -/
set_option autoImplicit false
namespace OpenJfx.Lib

structure Outline (N : Type) where
  children : N → List N
  isOpen : N → Bool
  wellFounded : WellFounded (fun c p => c ∈ children p)

namespace Outline
variable {N : Type}

noncomputable def rows (o : Outline N) : N → List N :=
  o.wellFounded.fix fun x below =>
    x :: if o.isOpen x then (o.children x).attach.flatMap (fun c => below c.1 c.2) else []

section Rows
variable (o : Outline N) {x y : N}

theorem rows_eq (x : N) : o.rows x = x :: if o.isOpen x then (o.children x).flatMap o.rows else [] := by
  rw [rows, WellFounded.fix_eq]
  congr 1
  split
  · rw [List.flatMap_subtype (fun y _ => rfl), List.unattach_attach]
  · rfl

theorem rows_closed (h : o.isOpen x = false) : o.rows x = [x] := by
  rw [rows_eq, h]
  rfl

theorem rows_open (h : o.isOpen x = true) : o.rows x = x :: (o.children x).flatMap o.rows := by
  rw [rows_eq, if_pos h]

theorem self_mem_rows (x : N) : x ∈ o.rows x := by
  rw [rows_eq]
  exact List.mem_cons_self ..

theorem mem_rows_iff : y ∈ o.rows x ↔ y = x ∨ o.isOpen x = true ∧ ∃ c ∈ o.children x, y ∈ o.rows c := by
  rw [rows_eq, List.mem_cons]
  cases o.isOpen x with
  | true => simp
  | false => simp

theorem mem_rows_iff_path :
    y ∈ o.rows x ↔ Relation.ReflTransGen (fun p c => o.isOpen p = true ∧ c ∈ o.children p) x y := by
  induction x using o.wellFounded.induction with
  | _ x ih =>
    rw [mem_rows_iff, Relation.ReflTransGen.cases_head_iff, eq_comm]
    constructor
    · rintro (h | ⟨hopen, c, hc, hy⟩)
      · exact Or.inl h
      · exact Or.inr ⟨c, ⟨hopen, hc⟩, (ih c hc).mp hy⟩
    · rintro (h | ⟨c, ⟨hopen, hc⟩, hy⟩)
      · exact Or.inl h
      · exact Or.inr ⟨hopen, c, hc, (ih c hc).mpr hy⟩

theorem rows_congr {o' : Outline N} (same_open : ∀ y ∈ o.rows x, o'.isOpen y = o.isOpen y)
    (same_children : ∀ y ∈ o.rows x, o'.children y = o.children y) : o'.rows x = o.rows x := by
  induction x using o.wellFounded.induction with
  | _ x ih =>
    have hself := o.self_mem_rows x
    rw [rows_eq, rows_eq, same_open x hself, same_children x hself]
    cases hopen : o.isOpen x with
    | false => rfl
    | true =>
      have hbelow : ∀ c ∈ o.children x, o'.rows c = o.rows c := by
        intro c hc
        have hsub : ∀ y ∈ o.rows c, y ∈ o.rows x :=
          fun y hy => o.mem_rows_iff.mpr (Or.inr ⟨hopen, c, hc, hy⟩)
        exact ih c hc (fun y hy => same_open y (hsub y hy)) (fun y hy => same_children y (hsub y hy))
      rw [if_pos rfl, if_pos rfl, List.flatMap_congr hbelow]

end Rows

/-! ## Counting -/

noncomputable def size (o : Outline N) (x : N) : Nat := (o.rows x).length

section Size
variable (o : Outline N) {x : N}

theorem size_closed (h : o.isOpen x = false) : o.size x = 1 := by
  rw [size, rows_closed o h]
  rfl

theorem size_open (h : o.isOpen x = true) : o.size x = 1 + ((o.children x).map o.size).sum := by
  rw [size, rows_open o h, List.length_cons, List.length_flatMap, Nat.add_comm]
  rfl

theorem size_pos (x : N) : 0 < o.size x := List.length_pos_of_mem (o.self_mem_rows x)

theorem row_of_child {p c y : N} {before after : List N} {k : Nat} (hopen : o.isOpen p = true)
    (hchildren : o.children p = before ++ c :: after) (h : (o.rows c)[k]? = some y) :
    (o.rows p)[k + (before.map o.size).sum + 1]? = some y := by
  have hlen : (before.flatMap o.rows).length = (before.map o.size).sum := List.length_flatMap
  have hk : k < (o.rows c).length := (List.getElem?_eq_some_iff.mp h).1
  rw [rows_open o hopen, List.getElem?_cons_succ, hchildren, List.flatMap_append, List.flatMap_cons,
    List.getElem?_append_right (by omega), hlen, Nat.add_sub_cancel, List.getElem?_append_left hk, h]

end Size

/-! ## Forests

A node is a child once. -/

structure IsForest (o : Outline N) : Prop where
  nodup : ∀ p, (o.children p).Nodup
  unique : ∀ p q c, c ∈ o.children p → c ∈ o.children q → p = q

theorem not_mem_rows_child (o : Outline N) {p c : N} (hc : c ∈ o.children p) : p ∉ o.rows c := by
  intro hp
  have hpath := o.mem_rows_iff_path.mp hp
  have hcycle : Relation.TransGen (fun c p => c ∈ o.children p) p p := by
    have hup : Relation.ReflTransGen (fun c p => c ∈ o.children p) p c := by
      rw [← Relation.reflTransGen_swap]
      exact Relation.ReflTransGen.mono (fun _ _ h => h.2) _ _ hpath
    exact Relation.TransGen.tail' hup hc
  exact o.wellFounded.transGen.asymmetric p p hcycle hcycle

section Forest
variable {o : Outline N} (forest : o.IsForest)
include forest

theorem IsForest.comparable {a b y : N} (ha : y ∈ o.rows a) (hb : y ∈ o.rows b) : b ∈ o.rows a ∨ a ∈ o.rows b := by
  rw [mem_rows_iff_path] at ha hb ⊢
  rw [mem_rows_iff_path]
  rw [← Relation.reflTransGen_swap] at ha hb
  have hunique : Relator.RightUnique (Function.swap fun p c => o.isOpen p = true ∧ c ∈ o.children p) := by
    intro y p q hp hq
    exact forest.unique p q y hp.2 hq.2
  rcases Relation.ReflTransGen.total_of_right_unique hunique ha hb with h | h
  · right
    rwa [Relation.reflTransGen_swap] at h
  · left
    rwa [Relation.reflTransGen_swap] at h

theorem IsForest.disjoint_siblings {p c d y : N} (hc : c ∈ o.children p) (hd : d ∈ o.children p)
    (hyc : y ∈ o.rows c) (hyd : y ∈ o.rows d) : c = d := by
  have general : ∀ a b : N, a ∈ o.children p → b ∈ o.children p → b ∈ o.rows a → a = b := by
    intro a b ha hb hmem
    rcases Relation.ReflTransGen.cases_tail (o.mem_rows_iff_path.mp hmem) with heq | ⟨q, hpath, -, hq⟩
    · exact heq.symm
    · rw [forest.unique q p b hq hb] at hpath
      exact absurd (o.mem_rows_iff_path.mpr hpath) (o.not_mem_rows_child ha)
  rcases forest.comparable hyc hyd with h | h
  · exact general c d hc hd h
  · exact (general d c hd hc h).symm

theorem IsForest.nodup_rows (x : N) : (o.rows x).Nodup := by
  induction x using o.wellFounded.induction with
  | _ x ih =>
    cases hopen : o.isOpen x with
    | false =>
      rw [o.rows_closed hopen]
      exact List.nodup_singleton x
    | true =>
      rw [o.rows_open hopen, List.nodup_cons, List.mem_flatMap, List.nodup_flatMap]
      refine ⟨?_, ih, ?_⟩
      · rintro ⟨c, hc, hx⟩
        exact o.not_mem_rows_child hc hx
      · refine (forest.nodup x).imp_of_mem ?_
        intro c d hc hd hne y hyc hyd
        exact hne (forest.disjoint_siblings hc hd hyc hyd)

theorem IsForest.row_unique {x y : N} {j k : Nat} (hj : (o.rows x)[j]? = some y) (hk : (o.rows x)[k]? = some y) :
    j = k := by
  obtain ⟨hlt, -⟩ := List.getElem?_eq_some_iff.mp hj
  exact (List.getElem?_inj hlt (forest.nodup_rows x)).mp (hj.trans hk.symm)

end Forest

end Outline
end OpenJfx.Lib
