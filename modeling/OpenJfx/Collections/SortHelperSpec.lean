import OpenJfx.Collections.SortHelper
import OpenJfx.Lib.IndexPermutation
import Mathlib.Data.List.DropRight

/-! # What `SortHelper` does

The range of `dest` is sorted, whatever the offset between the two arrays is.
The permutation is followed step by step: the elements of the range are paired
with the entries of `reversePermutation` at the same places, and as long as both
arrays use the same coordinates every step moves the pairs as a whole. -/
set_option autoImplicit false
namespace OpenJfx.Collections
open OpenJfx.Lib

namespace SortHelper
variable {α : Type}

structure Bounded (n : Nat) (s : State α) : Prop where
  length : s.permutation.length = n
  reverse_length : s.reversePermutation.length = n
  entries : ∀ v ∈ s.permutation, 0 ≤ v ∧ v < n
  reverse_entries : ∀ v ∈ s.reversePermutation, 0 ≤ v ∧ v < n

/-- `permutation` maps the entries `ids` to the places from `low` on. -/
def Follows (permutation : List Int) (low : Int) (ids : List Int) : Prop :=
  ∀ k, (h : k < ids.length) → readAt permutation ids[k] = .ok (low + k)

theorem Follows.nodup {permutation ids : List Int} {low : Int} (h : Follows permutation low ids) :
    ids.Nodup := by
  apply List.pairwise_iff_getElem.mpr
  intro i j hi hj hij heq
  have h1 := h i hi
  rw [heq, h j hj] at h1
  have := Except.ok.inj h1
  omega

theorem follows_cons {permutation ids : List Int} {low id : Int} :
    Follows permutation low (id :: ids) ↔
      readAt permutation id = .ok low ∧ Follows permutation (low + 1) ids := by
  constructor
  · intro h
    constructor
    · have h0 := h 0 (by simp)
      simpa using h0
    · intro k hk
      have hk1 := h (k + 1) (by simpa using hk)
      rw [List.getElem_cons_succ] at hk1
      rw [hk1]
      congr 1
      omega
  · rintro ⟨h0, h⟩ k hk
    cases k with
    | zero => simpa using h0
    | succ k =>
      have := h k (by simpa using hk)
      rw [List.getElem_cons_succ, this]
      congr 1
      omega

theorem follows_append {permutation ids js : List Int} {low : Int} :
    Follows permutation low (ids ++ js) ↔
      Follows permutation low ids ∧ Follows permutation (low + ids.length) js := by
  induction ids generalizing low with
  | nil => simp [Follows]
  | cons id ids ih =>
    have hlow : low + 1 + (ids.length : Int) = low + ((id :: ids).length : Nat) := by
      rw [List.length_cons]
      omega
    rw [List.cons_append, follows_cons, follows_cons, ih, hlow, and_assoc]

theorem Follows.congr {permutation permutation' ids : List Int} {low : Int}
    (h : Follows permutation low ids)
    (same : ∀ id ∈ ids, readAt permutation' id = readAt permutation id) :
    Follows permutation' low ids := by
  intro k hk
  rw [same _ (List.getElem_mem hk)]
  exact h k hk

/-! ## Insertion sort -/

theorem swap_spec {n : Nat} {s : State α} {front back : List α} {x y : α} {frontR backR : List Int}
    {a b low : Int} (bounded : Bounded n s) (hdest : s.dest = front ++ x :: y :: back)
    (hrev : s.reversePermutation = frontR ++ a :: b :: backR) (hlow : low = front.length)
    (hlowR : low = frontR.length) :
    ∃ permutation, swap (low + 1) low s = .ok ⟨s.src, front ++ y :: x :: back, permutation,
        frontR ++ b :: a :: backR⟩ ∧
      Bounded n (⟨s.src, front ++ y :: x :: back, permutation, frontR ++ b :: a :: backR⟩ : State α) ∧
      readAt permutation a = .ok (low + 1) ∧ (a ≠ b → readAt permutation b = .ok low) ∧
      ∀ t, t ≠ a → t ≠ b → readAt permutation t = readAt s.permutation t := by
  have ha := bounded.reverse_entries a (by simp [hrev])
  have hb := bounded.reverse_entries b (by simp [hrev])
  have hlen := bounded.length
  have hlenR := bounded.reverse_length
  rw [hrev, List.length_append, List.length_cons, List.length_cons] at hlenR
  obtain ⟨p₁, h₁⟩ := @writeAt_inside _ s.permutation b low hb.1 (by omega)
  have hlen₁ := writeAt_length h₁
  obtain ⟨p₂, h₂⟩ := @writeAt_inside _ p₁ a (low + 1) ha.1 (by omega)
  have hx : readAt s.dest low = .ok x := by
    rw [hdest]
    exact readAt_split hlow
  have hy : readAt s.dest (low + 1) = .ok y := by
    rw [hdest, List.append_cons]
    exact readAt_split (by simp; omega)
  have hra : readAt s.reversePermutation low = .ok a := by
    rw [hrev]
    exact readAt_split hlowR
  have hrb : readAt s.reversePermutation (low + 1) = .ok b := by
    rw [hrev, List.append_cons]
    exact readAt_split (by simp; omega)
  have hd₁ : writeAt s.dest (low + 1) x = .ok (front ++ x :: x :: back) := by
    rw [hdest, List.append_cons, List.append_cons front x (x :: back)]
    exact writeAt_split (by simp; omega)
  have hd₂ : writeAt (front ++ x :: x :: back) low y = .ok (front ++ y :: x :: back) :=
    writeAt_split hlow
  have hr₁ : writeAt s.reversePermutation (low + 1) a = .ok (frontR ++ a :: a :: backR) := by
    rw [hrev, List.append_cons, List.append_cons frontR a (a :: backR)]
    exact writeAt_split (by simp; omega)
  have hr₂ : writeAt (frontR ++ a :: a :: backR) low b = .ok (frontR ++ b :: a :: backR) :=
    writeAt_split hlowR
  refine ⟨p₂, ?_, ⟨?_, ?_, ?_, ?_⟩, readAt_writeAt_self h₂, ?_, ?_⟩
  · simp only [swap, hx, hy, hra, hrb, hd₁, hd₂, h₁, h₂, hr₁, hr₂, bind, Except.bind]
  · exact (writeAt_length h₂).trans (hlen₁.trans hlen)
  · simp only [List.length_append, List.length_cons]
    omega
  · intro v hv
    rcases mem_of_writeAt h₂ hv with rfl | hv
    · omega
    · rcases mem_of_writeAt h₁ hv with rfl | hv
      · omega
      · exact bounded.entries v hv
  · intro v hv
    apply bounded.reverse_entries v
    rw [hrev]
    simp only [List.mem_append, List.mem_cons] at hv ⊢
    tauto
  · intro hab
    rw [readAt_writeAt_ne h₂ (Ne.symm hab)]
    exact readAt_writeAt_self h₁
  · intro t hta htb
    rw [readAt_writeAt_ne h₂ hta, readAt_writeAt_ne h₁ htb]

abbrev byFirst (c : Comparator α) : Comparator (α × Int) := c.comap Prod.fst

def Stable (c : Comparator α) (ps : List (α × Int)) : Prop := ps.Pairwise fun p q => c.compare p.1 q.1 = 0 → p.2 < q.2

theorem stable_append {c : Comparator α} {ps qs : List (α × Int)} :
    Stable c (ps ++ qs) ↔ Stable c ps ∧ Stable c qs ∧ ∀ p ∈ ps, ∀ q ∈ qs, c.compare p.1 q.1 = 0 → p.2 < q.2 :=
  List.pairwise_append

theorem Stable.swap {c : Comparator α} {ps rest : List (α × Int)} {p q : α × Int}
    (h : Stable c (ps ++ p :: q :: rest)) (hgt : c.compare p.1 q.1 > 0) : Stable c (ps ++ q :: p :: rest) := by
  obtain ⟨hps, hrest, hacross⟩ := stable_append.mp h
  obtain ⟨hp, hrest⟩ := List.pairwise_cons.mp hrest
  obtain ⟨hq, hrest⟩ := List.pairwise_cons.mp hrest
  have hlt := (c.swap p.1 q.1).mp hgt
  refine stable_append.mpr ⟨hps, List.pairwise_cons.mpr ⟨?_, List.pairwise_cons.mpr ⟨?_, hrest⟩⟩, ?_⟩
  · intro r hr heq
    rcases List.mem_cons.mp hr with rfl | hr
    · omega
    · exact hq r hr heq
  · intro r hr
    exact hp r (List.mem_cons_of_mem _ hr)
  · intro r hr r' hr'
    rcases List.mem_cons.mp hr' with rfl | hr'
    · exact hacross r hr r' (by simp)
    · rcases List.mem_cons.mp hr' with rfl | hr'
      · exact hacross r hr r' (by simp)
      · exact hacross r hr r' (by simp [hr'])

theorem Stable.merge {c : Comparator α} {ps qs : List (α × Int)} (h : Stable c (ps ++ qs))
    (hps : (byFirst c).Sorted ps) : Stable c (List.merge ps qs (byFirst c).le) := by
  induction ps generalizing qs with
  | nil => rwa [List.nil_append, ← List.nil_merge qs] at h
  | cons p ps ihp =>
    induction qs with
    | nil => rwa [List.append_nil, ← List.merge_right (p :: ps)] at h
    | cons q qs ihq =>
      obtain ⟨hleft, hright, hacross⟩ := stable_append.mp h
      obtain ⟨hp, hleft'⟩ := List.pairwise_cons.mp hleft
      obtain ⟨hq, hright'⟩ := List.pairwise_cons.mp hright
      obtain ⟨hmin, hsorted⟩ := List.pairwise_cons.mp hps
      rw [List.cons_merge_cons]
      by_cases hle : (byFirst c).le p q = true
      · rw [if_pos hle]
        have hrest : Stable c (ps ++ q :: qs) :=
          stable_append.mpr ⟨hleft', hright, fun r hr => hacross r (List.mem_cons_of_mem _ hr)⟩
        refine List.pairwise_cons.mpr ⟨?_, ihp hrest hsorted⟩
        intro r hr
        rcases List.mem_append.mp ((List.merge_perm_append _).mem_iff.mp hr) with hr | hr
        · exact hp r hr
        · exact hacross p (List.mem_cons_self ..) r hr
      · rw [if_neg hle]
        have hrest : Stable c (p :: ps ++ qs) :=
          stable_append.mpr ⟨hleft, hright', fun r hr r' hr' => hacross r hr r' (List.mem_cons_of_mem _ hr')⟩
        refine List.pairwise_cons.mpr ⟨?_, ihq hrest⟩
        intro r hr heq
        rcases List.mem_append.mp ((List.merge_perm_append _).mem_iff.mp hr) with hr | hr
        · -- `r` is not smaller than `p`, and `p` is greater than `q`
          have hpr : (byFirst c).le p r = true := by
            rcases List.mem_cons.mp hr with rfl | hr
            · exact (byFirst c).le_refl r
            · exact hmin r hr
          have hrq : (byFirst c).le r q = true := by
            rw [Comparator.le_iff]
            by_contra hgt
            have := (c.swap r.1 q.1).mp (Int.not_le.mp hgt)
            omega
          exact absurd ((byFirst c).le_trans hpr hrq) hle
        · exact hq r hr heq

/-- A range of `dest` together with the same places of `reversePermutation`. -/
structure Paired (low : Int) (front back : List α) (frontR backR : List Int) (ps : List (α × Int))
    (s : State α) : Prop where
  dest : s.dest = front ++ (ps.map Prod.fst ++ back)
  reverse : s.reversePermutation = frontR ++ (ps.map Prod.snd ++ backR)
  front : low = front.length
  frontR : low = frontR.length

/-- What a sorting step does: it reorders the pairs and leaves everything else. -/
structure Reorders (n : Nat) (low : Int) (front back : List α) (frontR backR : List Int)
    (ps qs : List (α × Int)) (s s' : State α) : Prop where
  bounded : Bounded n s'
  paired : Paired low front back frontR backR qs s'
  src : s'.src = s.src
  perm : qs.Perm ps
  follows : Follows s.permutation low (ps.map Prod.snd) → Follows s'.permutation low (qs.map Prod.snd)
  frame : ∀ t, t ∉ ps.map Prod.snd → readAt s'.permutation t = readAt s.permutation t

theorem Reorders.refl {n : Nat} {low : Int} {front back : List α} {frontR backR : List Int}
    {ps : List (α × Int)} {s : State α} (bounded : Bounded n s)
    (paired : Paired low front back frontR backR ps s) :
    Reorders n low front back frontR backR ps ps s s :=
  ⟨bounded, paired, rfl, List.Perm.refl _, fun h => h, fun _ _ => rfl⟩

theorem Reorders.trans {n : Nat} {low : Int} {front back : List α} {frontR backR : List Int}
    {ps qs rs : List (α × Int)} {s s' s'' : State α}
    (h₁ : Reorders n low front back frontR backR ps qs s s')
    (h₂ : Reorders n low front back frontR backR qs rs s' s'') :
    Reorders n low front back frontR backR ps rs s s'' where
  bounded := h₂.bounded
  paired := h₂.paired
  src := h₂.src.trans h₁.src
  perm := h₂.perm.trans h₁.perm
  follows h := h₂.follows (h₁.follows h)
  frame t ht := by
    have hperm := (h₁.perm.map Prod.snd).mem_iff (a := t)
    rw [h₂.frame t (fun hmem => ht (hperm.mp hmem)), h₁.frame t ht]

theorem swap_reorders {n : Nat} {s : State α} {front back : List α} {frontR backR : List Int}
    {low : Int} {ps rest : List (α × Int)} {p q : α × Int} (bounded : Bounded n s)
    (paired : Paired low front back frontR backR (ps ++ p :: q :: rest) s) :
    ∃ s', swap (low + ps.length + 1) (low + ps.length) s = .ok s' ∧
      Reorders n low front back frontR backR (ps ++ p :: q :: rest) (ps ++ q :: p :: rest) s s' := by
  have hdest : s.dest = (front ++ ps.map Prod.fst) ++ p.1 :: q.1 :: (rest.map Prod.fst ++ back) := by
    rw [paired.dest]
    simp
  have hrev : s.reversePermutation =
      (frontR ++ ps.map Prod.snd) ++ p.2 :: q.2 :: (rest.map Prod.snd ++ backR) := by
    rw [paired.reverse]
    simp
  have hfront := paired.front
  have hfrontR := paired.frontR
  obtain ⟨permutation, hswap, hbounded, ha, hb, hframe⟩ := @swap_spec α n s _ _ _ _ _ _ _ _
    (low + ps.length) bounded hdest hrev (by simp; omega) (by simp; omega)
  refine ⟨_, hswap, hbounded, ⟨?_, ?_, hfront, hfrontR⟩, rfl, ?_, ?_, ?_⟩
  · simp
  · simp
  · exact (List.Perm.swap p q rest).append_left ps
  · intro h
    have hnodup := h.nodup
    simp only [List.map_append, List.map_cons] at h hnodup ⊢
    have hpq : p.2 ≠ q.2 := by
      have := (List.nodup_append.mp hnodup).2.1
      simp only [List.nodup_cons, List.mem_cons] at this
      tauto
    have hrest : ∀ r ∈ rest.map Prod.snd, r ≠ p.2 ∧ r ≠ q.2 := by
      intro r hr
      have := (List.nodup_append.mp hnodup).2.1
      simp only [List.nodup_cons, List.mem_cons] at this
      constructor
      · rintro rfl
        tauto
      · rintro rfl
        tauto
    have hps : ∀ r ∈ ps.map Prod.snd, r ≠ p.2 ∧ r ≠ q.2 := by
      intro r hr
      have := (List.nodup_append.mp hnodup).2.2 r hr
      exact ⟨this _ (by simp), this _ (by simp)⟩
    rw [follows_append, follows_cons, follows_cons] at h ⊢
    obtain ⟨h1, -, -, h4⟩ := h
    refine ⟨h1.congr (fun r hr => hframe r (hps r hr).1 (hps r hr).2), ?_, ?_,
      h4.congr (fun r hr => hframe r (hrest r hr).1 (hrest r hr).2)⟩
    · rw [List.length_map]
      exact hb hpq
    · rw [List.length_map]
      exact ha
  · intro t ht
    simp only [List.map_append, List.map_cons, List.mem_append, List.mem_cons] at ht
    exact hframe t (by tauto) (by tauto)

theorem sink_reorders {n : Nat} {front back : List α} {frontR backR : List Int} {low : Int}
    (c : Comparator α) (ps : List (α × Int)) {s : State α} {q : α × Int} {rest : List (α × Int)}
    (bounded : Bounded n s) (paired : Paired low front back frontR backR (ps ++ q :: rest) s) :
    ∃ s' qs, sink c low ps.length s = .ok s' ∧
      Reorders n low front back frontR backR (ps ++ q :: rest) (qs ++ rest) s s' ∧
      qs.Perm (ps ++ [q]) ∧ ((byFirst c).Sorted ps → (byFirst c).Sorted qs) ∧
      (Stable c (ps ++ q :: rest) → Stable c (qs ++ rest)) := by
  induction ps using List.reverseRecOn generalizing s rest with
  | nil =>
    exact ⟨s, [q], rfl, Reorders.refl bounded paired, List.Perm.refl _, fun _ => List.pairwise_singleton _ _, fun h => h⟩
  | append_singleton ps p ih =>
    rw [List.append_assoc, List.singleton_append] at paired
    have hfront := paired.front
    have hx : readAt s.dest (low + ps.length) = .ok p.1 := by
      have hdest : s.dest = (front ++ ps.map Prod.fst) ++ p.1 :: (q.1 :: (rest.map Prod.fst ++ back)) := by
        rw [paired.dest]
        simp
      rw [hdest]
      exact readAt_split (by simp; omega)
    have hy : readAt s.dest (low + ps.length + 1) = .ok q.1 := by
      have hdest : s.dest = (front ++ ps.map Prod.fst ++ [p.1]) ++ q.1 :: (rest.map Prod.fst ++ back) := by
        rw [paired.dest]
        simp
      rw [hdest]
      exact readAt_split (by simp; omega)
    rw [List.length_append, List.length_singleton, sink, hx, hy]
    simp only [bind, Except.bind]
    split
    · rename_i hgt
      obtain ⟨s₁, hswap, hreorder⟩ := swap_reorders bounded paired
      obtain ⟨s₂, qs, hsink, hreorder₂, hperm, hsorted, hstable⟩ := @ih s₁ (p :: rest) hreorder.bounded hreorder.paired
      rw [hswap]
      refine ⟨s₂, qs ++ [p], hsink, ?_, ?_, ?_, ?_⟩
      · simpa using hreorder.trans hreorder₂
      · calc (qs ++ [p]).Perm (ps ++ [q] ++ [p]) := hperm.append_right [p]
          _ = ps ++ ([q] ++ [p]) := List.append_assoc ..
          _ |>.Perm (ps ++ ([p] ++ [q])) := (List.perm_append_comm).append_left ps
          _ = ps ++ [p] ++ [q] := (List.append_assoc ..).symm
      · intro hps
        obtain ⟨h1, -, h3⟩ := List.pairwise_append.mp hps
        apply List.pairwise_append.mpr
        refine ⟨hsorted h1, List.pairwise_singleton _ _, ?_⟩
        intro r hr r' hr'
        rw [List.mem_singleton.mp hr']
        rcases List.mem_append.mp (hperm.mem_iff.mp hr) with hr | hr
        · exact h3 r hr p (List.mem_singleton_self p)
        · rw [List.mem_singleton.mp hr]
          apply (byFirst c).le_of_gt
          rw [Comparator.le_iff]
          change ¬ c.compare p.1 q.1 ≤ 0
          omega
      · intro h
        rw [List.append_assoc, List.singleton_append] at h ⊢
        exact hstable (h.swap hgt)
    · rename_i hle
      refine ⟨s, ps ++ [p] ++ [q], rfl, ?_, List.Perm.refl _, ?_, ?_⟩
      · have hlist : ps ++ [p] ++ [q] ++ rest = ps ++ p :: q :: rest := by simp
        have hlist' : ps ++ [p] ++ q :: rest = ps ++ p :: q :: rest := by simp
        rw [hlist, hlist']
        exact Reorders.refl bounded paired
      · intro hps
        have hpq : (byFirst c).le p q = true := by
          rw [Comparator.le_iff]
          change c.compare p.1 q.1 ≤ 0
          omega
        apply List.pairwise_append.mpr
        refine ⟨hps, List.pairwise_singleton _ _, ?_⟩
        intro r hr r' hr'
        rw [List.mem_singleton.mp hr']
        rcases List.mem_append.mp hr with hr | hr
        · exact (byFirst c).le_trans ((List.pairwise_append.mp hps).2.2 r hr p (List.mem_singleton_self p)) hpq
        · rw [List.mem_singleton.mp hr]
          exact hpq
      · intro h
        rwa [List.append_assoc (ps ++ [p]), List.singleton_append]

theorem insertionSort_reorders {n : Nat} {front back : List α} {frontR backR : List Int} {low : Int}
    (c : Comparator α) {ps : List (α × Int)} {s : State α}
    (bounded : Bounded n s) (paired : Paired low front back frontR backR ps s) :
    ∃ s' qs, insertionSort c low (low + ps.length) s = .ok s' ∧
      Reorders n low front back frontR backR ps qs s s' ∧ (byFirst c).Sorted qs ∧ (Stable c ps → Stable c qs) := by
  -- after some rounds the pairs of a front part are sorted
  have general : ∀ (rest done : List (α × Int)) (s : State α), Bounded n s →
      Paired low front back frontR backR (done ++ rest) s → (byFirst c).Sorted done →
      ∃ s' qs, (intRange (low + done.length) (low + done.length + rest.length)).foldlM
          (fun s i => sink c low (i - low).toNat s) s = .ok s' ∧
        Reorders n low front back frontR backR (done ++ rest) qs s s' ∧ (byFirst c).Sorted qs ∧
        (Stable c (done ++ rest) → Stable c qs) := by
    intro rest
    induction rest with
    | nil =>
      intro done s hbounded hpaired hsorted
      rw [List.append_nil] at hpaired ⊢
      refine ⟨s, done, ?_, Reorders.refl hbounded hpaired, hsorted, fun h => h⟩
      simp [intRange]
      rfl
    | cons q rest ih =>
      intro done s hbounded hpaired hsorted
      obtain ⟨s₁, qs, hsink, hreorder, hperm, hqs, hstable⟩ := sink_reorders c done hbounded hpaired
      have hlen : qs.length = done.length + 1 := by
        rw [hperm.length_eq, List.length_append, List.length_singleton]
      obtain ⟨s₂, qs₂, hrun, hreorder₂, hsorted₂, hstable₂⟩ :=
        ih qs s₁ hreorder.bounded hreorder.paired (hqs hsorted)
      refine ⟨s₂, qs₂, ?_, hreorder.trans hreorder₂, hsorted₂, fun h => hstable₂ (hstable h)⟩
      have hrange : intRange (low + done.length) (low + done.length + (q :: rest).length) =
          (low + done.length) :: intRange (low + qs.length) (low + qs.length + rest.length) := by
        have hstart : low + (done.length : Int) < low + done.length + ((q :: rest).length : Nat) := by
          rw [List.length_cons]
          omega
        rw [List.length_cons] at hstart ⊢
        rw [intRange_cons hstart, hlen]
        congr 2
        · omega
        · omega
      have hindex : (low + (done.length : Int) - low).toNat = done.length := by omega
      rw [hrange, List.foldlM_cons, hindex, hsink]
      exact hrun
  have := general ps [] s bounded paired List.Pairwise.nil
  simpa [insertionSort] using this

/-! ## Merging -/

/-- The merge loop before a round.  `L` and `R` are what is left of the two
halves of `src`, each element with its entry of `reversePermutation`. -/
structure Merging (n : Nat) (mid high i p q : Int) (L R : List (α × Int)) (front junk back : List α)
    (s : State α) : Prop where
  bounded : Bounded n s
  src : ∃ A M B, s.src = A ++ (L.map Prod.fst ++ (M ++ (R.map Prod.fst ++ B))) ∧ p = A.length ∧
    q = p + L.length + M.length
  reverse : ∃ A M B, s.reversePermutation = A ++ (L.map Prod.snd ++ (M ++ (R.map Prod.snd ++ B))) ∧
    p = A.length ∧ q = p + L.length + M.length
  dest : s.dest = front ++ (junk ++ back)
  place : i = front.length
  mid : mid = p + L.length
  high : high = q + R.length
  count : junk.length = L.length + R.length
  fits : i + junk.length ≤ n

/-- The merge loop from here on: it writes `out` to `dest` and their places to
`permutation`. -/
structure Merged (n : Nat) (i : Int) (front back : List α) (out : List (α × Int)) (s s' : State α) :
    Prop where
  bounded : Bounded n s'
  src : s'.src = s.src
  reverse : s'.reversePermutation = s.reversePermutation
  dest : s'.dest = front ++ (out.map Prod.fst ++ back)
  follows : (out.map Prod.snd).Nodup → Follows s'.permutation i (out.map Prod.snd)
  frame : ∀ t, t ∉ out.map Prod.snd → readAt s'.permutation t = readAt s.permutation t

theorem Merged.cons {n : Nat} {i : Int} {front back dest : List α} {out : List (α × Int)}
    {x : α × Int} {permutation : List Int} {s s' : State α}
    (hwrite : writeAt s.permutation x.2 i = .ok permutation)
    (h : Merged n (i + 1) (front ++ [x.1]) back out
      { s with dest := dest, permutation := permutation } s') :
    Merged n i front back (x :: out) s s' where
  bounded := h.bounded
  src := h.src
  reverse := h.reverse
  dest := by
    rw [h.dest]
    simp
  follows := by
    intro hnodup
    rw [List.map_cons, List.nodup_cons] at hnodup
    rw [List.map_cons, follows_cons]
    refine ⟨?_, h.follows hnodup.2⟩
    rw [h.frame _ hnodup.1]
    exact readAt_writeAt_self hwrite
  frame := by
    intro t ht
    rw [List.map_cons, List.mem_cons, not_or] at ht
    rw [h.frame t ht.2]
    exact readAt_writeAt_ne hwrite ht.1

theorem bounded_write {n : Nat} {s : State α} {dest : List α} {permutation : List Int} {id i : Int}
    (bounded : Bounded n s) (hwrite : writeAt s.permutation id i = .ok permutation) (h0 : 0 ≤ i)
    (hi : i < n) : Bounded n { s with dest := dest, permutation := permutation } where
  length := (writeAt_length hwrite).trans bounded.length
  reverse_length := bounded.reverse_length
  entries := by
    intro v hv
    rcases mem_of_writeAt hwrite hv with rfl | hv
    · exact ⟨h0, hi⟩
    · exact bounded.entries v hv
  reverse_entries := bounded.reverse_entries

theorem Merging.write {n : Nat} {mid high i p q k : Int} {L R : List (α × Int)}
    {front junk back : List α} {s : State α} {x : α × Int} {j : α}
    (h : Merging n mid high i p q L R front (j :: junk) back s)
    (hrev : readAt s.reversePermutation k = .ok x.2) :
    ∃ permutation, writeAt s.dest i x.1 = .ok (front ++ [x.1] ++ (junk ++ back)) ∧
      writeAt s.permutation x.2 i = .ok permutation ∧
      Bounded n { s with dest := front ++ [x.1] ++ (junk ++ back), permutation := permutation } := by
  have hplace := h.place
  have hfits := h.fits
  rw [List.length_cons] at hfits
  have hid : 0 ≤ x.2 ∧ x.2 < n := by
    obtain ⟨m, rfl, hm⟩ := readAt_eq_ok hrev
    exact h.bounded.reverse_entries _ (List.mem_of_getElem? hm)
  have hlen := h.bounded.length
  obtain ⟨permutation, hwrite⟩ := @writeAt_inside _ s.permutation x.2 i hid.1 (by omega)
  refine ⟨permutation, ?_, hwrite, bounded_write h.bounded hwrite (by omega) (by omega)⟩
  rw [h.dest, List.append_assoc, List.cons_append, List.singleton_append]
  exact writeAt_split hplace

theorem Merging.left {n : Nat} {mid high i p q : Int} {L R : List (α × Int)}
    {front junk back : List α} {s : State α} {x : α × Int} {j : α}
    (h : Merging n mid high i p q (x :: L) R front (j :: junk) back s) :
    ∃ permutation, readAt s.src p = .ok x.1 ∧ readAt s.reversePermutation p = .ok x.2 ∧
      writeAt s.dest i x.1 = .ok (front ++ [x.1] ++ (junk ++ back)) ∧
      writeAt s.permutation x.2 i = .ok permutation ∧
      Merging n mid high (i + 1) (p + 1) q L R (front ++ [x.1]) junk back
        { s with dest := front ++ [x.1] ++ (junk ++ back), permutation := permutation } := by
  obtain ⟨A, M, B, hsrc, hA, hq⟩ := h.src
  obtain ⟨A', M', B', hrev, hA', hq'⟩ := h.reverse
  have hplace := h.place
  have hmid := h.mid
  have hcount := h.count
  have hfits := h.fits
  simp only [List.length_cons] at hq hq' hmid hcount hfits
  have hread : readAt s.src p = .ok x.1 := by
    rw [hsrc]
    exact readAt_split hA
  have hreadR : readAt s.reversePermutation p = .ok x.2 := by
    rw [hrev]
    exact readAt_split hA'
  obtain ⟨permutation, hdest, hwrite, hbounded⟩ := h.write hreadR
  refine ⟨permutation, hread, hreadR, hdest, hwrite, hbounded, ⟨A ++ [x.1], M, B, ?_, ?_, ?_⟩,
    ⟨A' ++ [x.2], M', B', ?_, ?_, ?_⟩, rfl, ?_, ?_, h.high, ?_, ?_⟩
  · simpa using hsrc
  · simp; omega
  · omega
  · simpa using hrev
  · simp; omega
  · omega
  · simp; omega
  · omega
  · omega
  · omega

theorem Merging.right {n : Nat} {mid high i p q : Int} {L R : List (α × Int)}
    {front junk back : List α} {s : State α} {x : α × Int} {j : α}
    (h : Merging n mid high i p q L (x :: R) front (j :: junk) back s) :
    ∃ permutation, readAt s.src q = .ok x.1 ∧ readAt s.reversePermutation q = .ok x.2 ∧
      writeAt s.dest i x.1 = .ok (front ++ [x.1] ++ (junk ++ back)) ∧
      writeAt s.permutation x.2 i = .ok permutation ∧
      Merging n mid high (i + 1) p (q + 1) L R (front ++ [x.1]) junk back
        { s with dest := front ++ [x.1] ++ (junk ++ back), permutation := permutation } := by
  obtain ⟨A, M, B, hsrc, hA, hq⟩ := h.src
  obtain ⟨A', M', B', hrev, hA', hq'⟩ := h.reverse
  have hplace := h.place
  have hhigh := h.high
  have hcount := h.count
  have hfits := h.fits
  simp only [List.length_cons] at hhigh hcount hfits
  have hsrc' : s.src = (A ++ (L.map Prod.fst ++ M)) ++ x.1 :: (R.map Prod.fst ++ B) := by
    rw [hsrc]
    simp
  have hrev' : s.reversePermutation = (A' ++ (L.map Prod.snd ++ M')) ++ x.2 :: (R.map Prod.snd ++ B') := by
    rw [hrev]
    simp
  have hread : readAt s.src q = .ok x.1 := by
    rw [hsrc']
    exact readAt_split (by simp; omega)
  have hreadR : readAt s.reversePermutation q = .ok x.2 := by
    rw [hrev']
    exact readAt_split (by simp; omega)
  obtain ⟨permutation, hdest, hwrite, hbounded⟩ := h.write hreadR
  refine ⟨permutation, hread, hreadR, hdest, hwrite, hbounded, ⟨A, M ++ [x.1], B, ?_, hA, ?_⟩,
    ⟨A', M' ++ [x.2], B', ?_, hA', ?_⟩, rfl, ?_, h.mid, ?_, ?_, ?_⟩
  · simpa using hsrc
  · simp; omega
  · simpa using hrev
  · simp; omega
  · simp; omega
  · omega
  · omega
  · omega

theorem Merging.takesLeft {n : Nat} {mid high i p q : Int} {L R : List (α × Int)}
    {front junk back : List α} {s : State α} (c : Comparator α)
    (h : Merging n mid high i p q L R front junk back s) :
    SortHelper.takesLeft c mid high p q s.src = .ok (match L, R with
      | _, [] => true
      | [], _ => false
      | x :: _, y :: _ => (byFirst c).le x y) := by
  have hmid := h.mid
  have hhigh := h.high
  rw [SortHelper.takesLeft]
  cases R with
  | nil =>
    rw [if_pos (by rw [hhigh]; simp)]
  | cons y R =>
    rw [if_neg (by rw [hhigh, List.length_cons]; omega)]
    cases L with
    | nil => rw [if_neg (by rw [hmid]; simp)]
    | cons x L =>
      obtain ⟨A, M, B, hsrc, hA, hq⟩ := h.src
      have hx : readAt s.src p = .ok x.1 := by
        rw [hsrc]
        exact readAt_split hA
      have hy : readAt s.src q = .ok y.1 := by
        have hsrc' : s.src = (A ++ ((x :: L).map Prod.fst ++ M)) ++ y.1 :: (R.map Prod.fst ++ B) := by
          rw [hsrc]
          simp
        rw [hsrc']
        exact readAt_split (by simp at hq ⊢; omega)
      rw [if_pos (by rw [hmid, List.length_cons]; omega), hx, hy]
      rfl

theorem mergeLoop_merged {n : Nat} {mid high : Int} {back : List α} (c : Comparator α)
    (junk : List α) {i p q : Int} {L R : List (α × Int)} {front : List α} {s : State α}
    (h : Merging n mid high i p q L R front junk back s) :
    ∃ s', mergeLoop c mid high junk.length i p q s = .ok s' ∧
      Merged n i front back (List.merge L R (byFirst c).le) s s' := by
  induction junk generalizing i p q L R front s with
  | nil =>
    have hcount := h.count
    rw [List.length_nil] at hcount
    have hL : L = [] := List.eq_nil_of_length_eq_zero (by omega)
    have hR : R = [] := List.eq_nil_of_length_eq_zero (by omega)
    subst hL hR
    refine ⟨s, rfl, h.bounded, rfl, rfl, ?_, ?_, fun _ _ => rfl⟩
    · rw [h.dest]
      simp
    · intro _ k hk
      simp at hk
  | cons j junk ih =>
    have hcmp := h.takesLeft c
    rw [List.length_cons, mergeLoop, hcmp]
    -- one round, then the others
    have left : ∀ x L', L = x :: L' →
        ∃ s', (do
          let y ← readAt s.src p
          let dest ← writeAt s.dest i y
          let r ← readAt s.reversePermutation p
          let permutation ← writeAt s.permutation r i
          mergeLoop c mid high junk.length (i + 1) (p + 1) q
            { s with dest := dest, permutation := permutation }) = .ok s' ∧
          Merged n i front back (x :: List.merge L' R (byFirst c).le) s s' := by
      intro x L' hL
      subst hL
      obtain ⟨permutation, hread, hreadR, hdest, hwrite, hnext⟩ := h.left
      obtain ⟨s', hrun, hmerged⟩ := ih hnext
      refine ⟨s', ?_, Merged.cons hwrite hmerged⟩
      simp only [hread, hdest, hreadR, hwrite, bind, Except.bind]
      exact hrun
    have right : ∀ x R', R = x :: R' →
        ∃ s', (do
          let y ← readAt s.src q
          let dest ← writeAt s.dest i y
          let r ← readAt s.reversePermutation q
          let permutation ← writeAt s.permutation r i
          mergeLoop c mid high junk.length (i + 1) p (q + 1)
            { s with dest := dest, permutation := permutation }) = .ok s' ∧
          Merged n i front back (x :: List.merge L R' (byFirst c).le) s s' := by
      intro x R' hR
      subst hR
      obtain ⟨permutation, hread, hreadR, hdest, hwrite, hnext⟩ := h.right
      obtain ⟨s', hrun, hmerged⟩ := ih hnext
      refine ⟨s', ?_, Merged.cons hwrite hmerged⟩
      simp only [hread, hdest, hreadR, hwrite, bind, Except.bind]
      exact hrun
    cases R with
    | nil =>
      cases L with
      | nil =>
        have hcount := h.count
        simp at hcount
      | cons x L =>
        have hstep := left x L rfl
        rw [List.merge_right] at hstep
        rw [List.merge_right]
        exact hstep
    | cons y R =>
      cases L with
      | nil =>
        have hstep := right y R rfl
        rw [List.nil_merge] at hstep
        rw [List.nil_merge]
        exact hstep
      | cons x L =>
        rw [List.cons_merge_cons]
        by_cases hle : (byFirst c).le x y = true
        · rw [if_pos hle]
          simp only [hle]
          exact left x L rfl
        · rw [if_neg hle]
          simp only [Bool.not_eq_true] at hle
          simp only [hle]
          exact right y R rfl

theorem renewAlong_spec {n : Nat} (is : List Int) {s : State α} (bounded : Bounded n s)
    (hin : ∀ i ∈ is, 0 ≤ i ∧ i < n) :
    ∃ reverse, is.foldlM (fun (s : State α) i => do
        let p ← readAt s.permutation i
        let reverse ← writeAt s.reversePermutation p i
        .ok { s with reversePermutation := reverse }) s =
          .ok { s with reversePermutation := reverse } ∧
      Bounded n { s with reversePermutation := reverse } ∧
      (∀ t, (∀ i ∈ is, readAt s.permutation i ≠ .ok t) →
        readAt reverse t = readAt s.reversePermutation t) ∧
      ∀ i ∈ is, ∀ v, readAt s.permutation i = .ok v →
        (∀ i' ∈ is, readAt s.permutation i' = .ok v → i' = i) → readAt reverse v = .ok i := by
  induction is generalizing s with
  | nil => exact ⟨s.reversePermutation, rfl, bounded, fun _ _ => rfl, by simp⟩
  | cons i is ih =>
    have hi := hin i (List.mem_cons_self ..)
    have hlen := bounded.length
    have hlenR := bounded.reverse_length
    obtain ⟨p, hp, hread⟩ := @readAt_inside _ s.permutation i hi.1 (by omega)
    have hpb := bounded.entries p hp
    obtain ⟨reverse₁, hwrite⟩ := @writeAt_inside _ s.reversePermutation p i hpb.1 (by omega)
    have hbounded : Bounded n { s with reversePermutation := reverse₁ } := by
      refine ⟨hlen, (writeAt_length hwrite).trans hlenR, bounded.entries, ?_⟩
      intro v hv
      rcases mem_of_writeAt hwrite hv with rfl | hv
      · exact hi
      · exact bounded.reverse_entries v hv
    obtain ⟨reverse, hrun, hbounded', hframe, hset⟩ :=
      ih hbounded (fun j hj => hin j (List.mem_cons_of_mem _ hj))
    refine ⟨reverse, ?_, hbounded', ?_, ?_⟩
    · rw [List.foldlM_cons, hread]
      simp only [bind, Except.bind, hwrite]
      exact hrun
    · intro t ht
      rw [hframe t (fun j hj => ht j (List.mem_cons_of_mem _ hj))]
      apply readAt_writeAt_ne hwrite
      rintro rfl
      exact ht i (List.mem_cons_self ..) hread
    · intro j hj v hv hunique
      by_cases hlater : ∃ i' ∈ is, readAt s.permutation i' = .ok v
      · obtain ⟨i', hi', hread'⟩ := hlater
        have heq := hunique i' (List.mem_cons_of_mem _ hi') hread'
        subst heq
        exact hset i' hi' v hread' (fun k hk => hunique k (List.mem_cons_of_mem _ hk))
      · have hji : j = i := by
          rcases List.mem_cons.mp hj with rfl | hj
          · rfl
          · exact absurd ⟨j, hj, hv⟩ hlater
        subst hji
        have hpv : p = v := by
          rw [hread] at hv
          exact Except.ok.inj hv
        subst hpv
        rw [hframe p (fun k hk hread' => hlater ⟨k, hk, hread'⟩)]
        exact readAt_writeAt_self hwrite

theorem renewReverse_inverts {n : Nat} {low : Int} {s : State α} {frontR ids ids' backR : List Int}
    (bounded : Bounded n s) (hrev : s.reversePermutation = frontR ++ (ids ++ backR))
    (hlow : low = frontR.length) (hids : ids'.Perm (intRange low (low + ids.length)))
    (hfollows : Follows s.permutation low ids') :
    renewReverse low (low + ids.length) s =
      .ok { s with reversePermutation := frontR ++ (ids' ++ backR) } := by
  have hlen : ids'.length = ids.length := by
    rw [hids.length_eq, intRange_length]
    omega
  have hlenR := bounded.reverse_length
  rw [hrev, List.length_append, List.length_append] at hlenR
  obtain ⟨reverse, hrun, hbounded, hframe, hset⟩ := @renewAlong_spec α n
    (intRange low (low + ids.length)) s bounded (by
      intro i hi
      rw [mem_intRange] at hi
      omega)
  -- the only index that is mapped to `low + k` is `ids'[k]`
  have hunique : ∀ k, (hk : k < ids'.length) → ∀ i ∈ intRange low (low + ids.length),
      readAt s.permutation i = .ok (low + k) → i = ids'[k] := by
    intro k hk i hi hread
    obtain ⟨l, hl, rfl⟩ := List.getElem_of_mem (hids.mem_iff.mpr hi)
    rw [hfollows l hl] at hread
    have hkl : l = k := by
      have := Except.ok.inj hread
      omega
    subst hkl
    rfl
  have hreverse : reverse = frontR ++ (ids' ++ backR) := by
    have hlen' : reverse.length = n := hbounded.reverse_length
    apply eq_of_readAt
    · simp only [List.length_append]
      omega
    · intro t ht
      by_cases hin : low ≤ t ∧ t < low + (ids.length : Int)
      · obtain ⟨k, hk⟩ : ∃ k : Nat, (t : Int) = low + k := ⟨(t - low).toNat, by omega⟩
        have hk' : k < ids'.length := by omega
        have hmem : ids'[k] ∈ intRange low (low + ids.length) :=
          hids.mem_iff.mp (List.getElem_mem hk')
        rw [hk, hset _ hmem _ (hfollows k hk') (fun i hi hread => hunique k hk' i hi hread),
          readAt_append_right (by omega), readAt_append_left (by omega),
          show low + (k : Int) - frontR.length = k by omega, readAt_natCast _ _ hk']
      · have hout : ∀ i ∈ intRange low (low + ids.length), readAt s.permutation i ≠ .ok (t : Int) := by
          intro i hi hread
          obtain ⟨l, hl, rfl⟩ := List.getElem_of_mem (hids.mem_iff.mpr hi)
          rw [hfollows l hl] at hread
          have := Except.ok.inj hread
          omega
        rw [hframe t hout, hrev]
        by_cases hbefore : (t : Int) < low
        · rw [readAt_append_left (by omega), readAt_append_left (by omega)]
        · rw [readAt_append_right (by omega), readAt_append_right (by omega),
            readAt_append_right (by omega), readAt_append_right (by omega), hlen]
  rw [renewReverse, hrun, hreverse]

/-- The two halves `ps` of a range have become `qs`. -/
structure Joined (n : Nat) (c : Comparator α) (destLow low : Int) (front back : List α) (frontR backR : List Int)
    (ps : List (α × Int)) (s s' : State α) (qs : List (α × Int)) : Prop where
  bounded : Bounded n s'
  src : s'.src = s.src
  dest : s'.dest = front ++ (qs.map Prod.fst ++ back)
  perm : qs.Perm ps
  sorted : (byFirst c).Sorted qs
  frame : ∀ t, t ∉ ps.map Prod.snd → readAt s'.permutation t = readAt s.permutation t
  stable : Stable c ps → Stable c qs
  followed : destLow = low → (ps.map Prod.snd).Perm (intRange low (low + ps.length)) →
    Follows s.permutation low (ps.map Prod.snd) →
    s'.reversePermutation = frontR ++ (qs.map Prod.snd ++ backR) ∧ Follows s'.permutation low (qs.map Prod.snd)

/-- Sorted halves whose last and first elements are in order. -/
theorem Comparator.sorted_append {β : Type} {c : Comparator β} {ps qs : List β} {x y : β}
    (hps : c.Sorted (ps ++ [x])) (hqs : c.Sorted (y :: qs)) (hxy : c.le x y = true) :
    c.Sorted (ps ++ [x] ++ (y :: qs)) := by
  refine List.pairwise_append.mpr ⟨hps, hqs, ?_⟩
  intro a ha b hb
  have hax : c.le a x = true := by
    rcases List.mem_append.mp ha with ha | ha
    · exact (List.pairwise_append.mp hps).2.2 a ha x (List.mem_singleton_self x)
    · rw [List.mem_singleton.mp ha]
      exact c.le_refl x
  have hyb : c.le y b = true := by
    rcases List.mem_cons.mp hb with rfl | hb
    · exact c.le_refl b
    · exact (List.pairwise_cons.mp hqs).1 b hb
  exact c.le_trans hax (c.le_trans hxy hyb)

section Halves
variable {n : Nat} {destLow low : Int} {s : State α} {front junk back frontS backS : List α} {frontR backR : List Int}
  {ps₁ ps₂ : List (α × Int)} (c : Comparator α)

theorem joined_copied (bounded : Bounded n s)
    (hrev : s.reversePermutation = frontR ++ (ps₁.map Prod.snd ++ (ps₂.map Prod.snd ++ backR)))
    (hsorted : (byFirst c).Sorted (ps₁ ++ ps₂)) :
    Joined n c destLow low front back frontR backR (ps₁ ++ ps₂) s
      { s with dest := front ++ ((ps₁ ++ ps₂).map Prod.fst ++ back) } (ps₁ ++ ps₂) := by
  refine ⟨⟨bounded.length, bounded.reverse_length, bounded.entries, bounded.reverse_entries⟩, rfl, rfl,
    List.Perm.refl _, hsorted, fun _ _ => rfl, fun h => h, ?_⟩
  intro _ _ hfollows
  refine ⟨?_, hfollows⟩
  change s.reversePermutation = _
  rw [hrev]
  simp

theorem joined_merged
    (hmerging : Merging n (low + ps₁.length) (low + ps₁.length + ps₂.length) destLow low (low + ps₁.length) ps₁ ps₂
      front junk back s)
    (hrev : s.reversePermutation = frontR ++ (ps₁.map Prod.snd ++ (ps₂.map Prod.snd ++ backR)))
    (hlowR : low = frontR.length) (hsorted₁ : (byFirst c).Sorted ps₁) (hsorted₂ : (byFirst c).Sorted ps₂) :
    ∃ s₁ s', mergeLoop c (low + ps₁.length) (low + ps₁.length + ps₂.length) junk.length destLow low (low + ps₁.length) s
        = .ok s₁ ∧ renewReverse destLow (destLow + junk.length) s₁ = .ok s' ∧
      Joined n c destLow low front back frontR backR (ps₁ ++ ps₂) s s' (List.merge ps₁ ps₂ (byFirst c).le) := by
  obtain ⟨s₁, hrun, hmerged⟩ := mergeLoop_merged c junk hmerging
  have hcount := hmerging.count
  have hperm : (List.merge ps₁ ps₂ (byFirst c).le).Perm (ps₁ ++ ps₂) := List.merge_perm_append _
  have hrevlen : ((ps₁ ++ ps₂).map Prod.snd).length = junk.length := by
    rw [List.length_map, List.length_append]
    omega
  have hrev' : s₁.reversePermutation = frontR ++ ((ps₁ ++ ps₂).map Prod.snd ++ backR) := by
    rw [hmerged.reverse, hrev]
    simp
  have hfits := hmerging.fits
  have hplace := hmerging.place
  obtain ⟨reverse, hrenew, hbounded, -, -⟩ := @renewAlong_spec α n
    (intRange destLow (destLow + junk.length)) s₁ hmerged.bounded (by
      intro i hi
      rw [mem_intRange] at hi
      omega)
  refine ⟨s₁, _, hrun, hrenew, hbounded, hmerged.src, hmerged.dest, hperm,
    (byFirst c).sorted_merge hsorted₁ hsorted₂, ?_, fun h => h.merge hsorted₁, ?_⟩
  · intro t ht
    apply hmerged.frame
    intro hmem
    exact ht ((hperm.map Prod.snd).mem_iff.mp hmem)
  · intro hsame hids hfollows
    subst hsame
    have hnodup : ((List.merge ps₁ ps₂ (byFirst c).le).map Prod.snd).Nodup :=
      (hperm.map Prod.snd).nodup_iff.mpr hfollows.nodup
    have hmfollows := hmerged.follows hnodup
    have hinverts := renewReverse_inverts hmerged.bounded hrev' hlowR
      (((hperm.map Prod.snd).trans hids).trans (by rw [List.length_map])) hmfollows
    rw [hrevlen, renewReverse, hrenew] at hinverts
    have hstate := Except.ok.inj hinverts
    refine ⟨?_, hmfollows⟩
    exact congrArg State.reversePermutation hstate

/-- The two sorted halves of `src` become one sorted range of `dest`; when both
arrays use the same coordinates, the permutation arrays follow. -/
theorem joinHalves_spec (bounded : Bounded n s) (hdest : s.dest = front ++ (junk ++ back))
    (hdestLow : destLow = front.length)
    (hsrc : s.src = frontS ++ (ps₁.map Prod.fst ++ (ps₂.map Prod.fst ++ backS))) (hlow : low = frontS.length)
    (hrev : s.reversePermutation = frontR ++ (ps₁.map Prod.snd ++ (ps₂.map Prod.snd ++ backR)))
    (hlowR : low = frontR.length) (hcount : junk.length = ps₁.length + ps₂.length)
    (hfits : destLow + junk.length ≤ n) (hne₁ : ps₁ ≠ []) (hne₂ : ps₂ ≠ [])
    (hsorted₁ : (byFirst c).Sorted ps₁) (hsorted₂ : (byFirst c).Sorted ps₂) :
    ∃ s' qs, joinHalves c destLow (destLow + junk.length) low (low + ps₁.length)
        (low + ps₁.length + ps₂.length) s = .ok s' ∧
      Joined n c destLow low front back frontR backR (ps₁ ++ ps₂) s s' qs := by
  obtain ⟨init, x, hx⟩ := (List.eq_nil_or_concat' ps₁).resolve_left hne₁
  obtain ⟨y, rest, hy⟩ := List.exists_cons_of_ne_nil hne₂
  have hreadx : readAt s.src (low + ps₁.length - 1) = .ok x.1 := by
    have h : s.src = (frontS ++ init.map Prod.fst) ++ x.1 :: (ps₂.map Prod.fst ++ backS) := by
      rw [hsrc, hx]
      simp
    rw [h]
    apply readAt_split
    rw [hx]
    simp
    omega
  have hready : readAt s.src (low + ps₁.length) = .ok y.1 := by
    have h : s.src = (frontS ++ ps₁.map Prod.fst) ++ y.1 :: (rest.map Prod.fst ++ backS) := by
      rw [hsrc, hy]
      simp
    rw [h]
    apply readAt_split
    simp
    omega
  have hlength : destLow + (junk.length : Int) - destLow = junk.length := by omega
  rw [joinHalves, hreadx, hready]
  simp only [bind, Except.bind, hlength]
  split
  · -- the halves are in order already
    rename_i hle
    have hcopy : arraycopy s.src low s.dest destLow junk.length =
        .ok (front ++ ((ps₁ ++ ps₂).map Prod.fst ++ back)) := by
      have h : s.src = frontS ++ ((ps₁ ++ ps₂).map Prod.fst ++ backS) := by
        rw [hsrc]
        simp
      rw [h, hdest]
      apply arraycopy_split hlow hdestLow
      · simp
        omega
      · rfl
    rw [hcopy]
    refine ⟨_, ps₁ ++ ps₂, rfl, joined_copied c bounded hrev ?_⟩
    rw [hx] at hsorted₁ ⊢
    rw [hy] at hsorted₂ ⊢
    exact Comparator.sorted_append hsorted₁ hsorted₂ ((byFirst c).le_iff.mpr hle)
  · have hmerging : Merging n (low + ps₁.length) (low + ps₁.length + ps₂.length) destLow low
        (low + ps₁.length) ps₁ ps₂ front junk back s := by
      refine ⟨bounded, ⟨frontS, [], backS, ?_, hlow, by simp⟩, ⟨frontR, [], backR, ?_, hlowR, by simp⟩,
        hdest, hdestLow, rfl, rfl, hcount, hfits⟩
      · rw [hsrc]
        simp
      · rw [hrev]
        simp
    obtain ⟨s₁, s', hrun, hrenew, hjoined⟩ := joined_merged c hmerging hrev hlowR hsorted₁ hsorted₂
    rw [Int.toNat_natCast, hrun]
    exact ⟨s', _, hrenew, hjoined⟩

end Halves

/-! ## The sort -/

/-- The permutation arrays after a range has been sorted: `ids` is the new
content of `reversePermutation` there. -/
structure Followed (low : Int) (frontR backR : List Int) (xs ys : List α) (ids : List Int)
    (s s' : State α) : Prop where
  reverse : s'.reversePermutation = frontR ++ (ids ++ backR)
  follows : Follows s'.permutation low ids
  perm : ids.Perm (intRange low (low + xs.length))
  pairs : (ys.zip ids).Perm (xs.zip (intRange low (low + xs.length)))
  frame : ∀ t, t ∉ intRange low (low + xs.length) → readAt s'.permutation t = readAt s.permutation t

/-- What `mergeSort` does with the range `xs` of `dest`, which `src` holds too. -/
structure Sorts (n : Nat) (c : Comparator α) (low off : Int) (front back frontS backS xs : List α)
    (s s' : State α) (ys : List α) : Prop where
  bounded : Bounded n s'
  perm : ys.Perm xs
  sorted : c.Sorted ys
  dest : s'.dest = front ++ (ys ++ back)
  src : ∃ zs, s'.src = frontS ++ (zs ++ backS) ∧ zs.length = xs.length
  followed : off = 0 ∨ (xs.length : Int) < insertionSortThreshold → ∀ frontR backR,
    s.reversePermutation = frontR ++ (intRange low (low + xs.length) ++ backR) →
    low = frontR.length → Follows s.permutation low (intRange low (low + xs.length)) →
    ∃ ids, Followed low frontR backR xs ys ids s s' ∧ Stable c (ys.zip ids)

theorem intRange_length_add (low : Int) (n : Nat) : (intRange low (low + n)).length = n := by
  rw [intRange_length]
  omega

theorem zip_fst_snd {β : Type} (ps : List (α × β)) : (ps.map Prod.fst).zip (ps.map Prod.snd) = ps := by
  induction ps with
  | nil => rfl
  | cons p ps ih => rw [List.map_cons, List.map_cons, List.zip_cons_cons, ih]

theorem map_fst_zip_eq {β : Type} {xs : List α} {ids : List β} (h : ids.length = xs.length) :
    (xs.zip ids).map Prod.fst = xs := List.map_fst_zip h.ge

theorem map_snd_zip_eq {β : Type} {xs : List α} {ids : List β} (h : ids.length = xs.length) :
    (xs.zip ids).map Prod.snd = ids := List.map_snd_zip h.le

theorem stable_zip_intRange (c : Comparator α) (xs : List α) (low high : Int) : Stable c (xs.zip (intRange low high)) := by
  rw [Stable, List.pairwise_iff_getElem]
  intro i j hi hj hij _
  simp only [List.getElem_zip, intRange, List.getElem_map, List.getElem_range]
  omega

theorem exists_front {β : Type} {a : List β} {n : Nat} (h : n ≤ a.length) : ∃ front back, a = front ++ back ∧ front.length = n :=
  ⟨a.take n, a.drop n, (List.take_append_drop n a).symm, List.length_take_of_le h⟩

theorem exists_part {β : Type} (a : List β) {low count : Nat} (h : low + count ≤ a.length) :
    ∃ front part back, a = front ++ (part ++ back) ∧ front.length = low ∧ part.length = count := by
  obtain ⟨front, rest, rfl, hfront⟩ := exists_front (by omega : low ≤ a.length)
  rw [List.length_append] at h
  obtain ⟨part, back, rfl, hpart⟩ := exists_front (by omega : count ≤ rest.length)
  exact ⟨front, part, back, rfl, hfront, hpart⟩

theorem insertionSort_sorts {n : Nat} {low off : Int} {front back frontS backS xs : List α} {s : State α}
    (c : Comparator α) (bounded : Bounded n s) (hdest : s.dest = front ++ (xs ++ back))
    (hsrc : s.src = frontS ++ (xs ++ backS)) (hlow : low = front.length) (hfits : low + xs.length ≤ n) :
    ∃ s' ys, insertionSort c low (low + xs.length) s = .ok s' ∧
      Sorts n c low off front back frontS backS xs s s' ys := by
  have hlenR := bounded.reverse_length
  obtain ⟨frontR, ids, backR, hrev, hfrontR, hids⟩ :=
    @exists_part _ s.reversePermutation front.length xs.length (by omega)
  have hpaired : Paired low front back frontR backR (xs.zip ids) s := by
    refine ⟨?_, ?_, hlow, by omega⟩
    · rw [map_fst_zip_eq hids]
      exact hdest
    · rw [map_snd_zip_eq hids]
      exact hrev
  have hlen : (xs.zip ids).length = xs.length := by
    rw [List.length_zip]
    omega
  obtain ⟨s', qs, hrun, hreorder, hsorted, hstable⟩ := insertionSort_reorders c bounded hpaired
  rw [hlen] at hrun
  have hfst : ((xs.zip ids).map Prod.fst) = xs := map_fst_zip_eq hids
  have hsnd : ((xs.zip ids).map Prod.snd) = ids := map_snd_zip_eq hids
  refine ⟨s', qs.map Prod.fst, hrun, hreorder.bounded, ?_, c.sorted_map.mpr hsorted,
    hreorder.paired.dest, ⟨xs, hreorder.src.trans hsrc, rfl⟩, ?_⟩
  · have := hreorder.perm.map Prod.fst
    rwa [hfst] at this
  · intro _ frontR' backR' hrev' hlow' hfollows
    -- the decoration is the content of `reversePermutation`
    have hlen' := intRange_length_add low xs.length
    obtain ⟨rfl, hrest⟩ := List.append_inj (hrev.symm.trans hrev') (by omega)
    obtain ⟨rfl, rfl⟩ := List.append_inj hrest (by omega)
    refine ⟨qs.map Prod.snd, ⟨hreorder.paired.reverse, ?_, ?_, ?_, ?_⟩, ?_⟩
    · apply hreorder.follows
      rw [hsnd]
      exact hfollows
    · have := hreorder.perm.map Prod.snd
      rwa [hsnd] at this
    · rw [zip_fst_snd]
      exact hreorder.perm
    · intro t ht
      apply hreorder.frame
      rw [hsnd]
      exact ht
    · rw [zip_fst_snd]
      exact hstable (stable_zip_intRange c xs _ _)

/-- The arrays after the two halves have been sorted. -/
theorem Followed.append {low : Int} {frontR backR ids₁ ids₂ : List Int} {xs₁ xs₂ ys₁ ys₂ : List α}
    {s s₁ s₂ : State α} (hlength : ys₁.length = xs₁.length)
    (h₁ : Followed low frontR (intRange (low + xs₁.length) (low + xs₁.length + xs₂.length) ++ backR) xs₁ ys₁ ids₁ s s₁)
    (h₂ : Followed (low + xs₁.length) (frontR ++ ids₁) backR xs₂ ys₂ ids₂ s₁ s₂) :
    Followed low frontR backR (xs₁ ++ xs₂) (ys₁ ++ ys₂) (ids₁ ++ ids₂) s s₂ := by
  have hids₁ : ids₁.length = xs₁.length := by rw [h₁.perm.length_eq, intRange_length_add]
  have hsplit : intRange low (low + (xs₁ ++ xs₂).length) =
      intRange low (low + xs₁.length) ++ intRange (low + xs₁.length) (low + xs₁.length + xs₂.length) := by
    rw [List.length_append, intRange_append (by omega : low ≤ low + xs₁.length) (by omega)]
    congr 2
    omega
  refine ⟨?_, ?_, ?_, ?_, ?_⟩
  · rw [h₂.reverse, List.append_assoc, List.append_assoc]
  · rw [follows_append, hids₁]
    refine ⟨?_, h₂.follows⟩
    apply h₁.follows.congr
    intro t ht
    apply h₂.frame
    have := h₁.perm.mem_iff.mp ht
    rw [mem_intRange] at this ⊢
    omega
  · rw [hsplit]
    exact h₁.perm.append h₂.perm
  · rw [hsplit, List.zip_append (by omega), List.zip_append (by rw [intRange_length_add])]
    exact h₁.pairs.append h₂.pairs
  · intro t ht
    rw [hsplit, List.mem_append, not_or] at ht
    rw [h₂.frame t ht.2, h₁.frame t ht.1]

/-- The indices of the first half are below those of the second. -/
theorem Followed.stable_append {c : Comparator α} {low : Int} {frontR backR frontR' backR' ids₁ ids₂ : List Int}
    {xs₁ xs₂ ys₁ ys₂ : List α} {s s₁ s₂ : State α} (hlength : ys₁.length = xs₁.length)
    (h₁ : Followed low frontR backR xs₁ ys₁ ids₁ s s₁)
    (h₂ : Followed (low + xs₁.length) frontR' backR' xs₂ ys₂ ids₂ s₁ s₂) (hstable₁ : Stable c (ys₁.zip ids₁))
    (hstable₂ : Stable c (ys₂.zip ids₂)) : Stable c ((ys₁ ++ ys₂).zip (ids₁ ++ ids₂)) := by
  have hids₁ : ids₁.length = xs₁.length := by rw [h₁.perm.length_eq, intRange_length_add]
  rw [List.zip_append (by omega)]
  refine SortHelper.stable_append.mpr ⟨hstable₁, hstable₂, ?_⟩
  intro p hp q hq _
  have hp₁ := h₁.perm.mem_iff.mp (List.of_mem_zip hp).2
  have hq₂ := h₂.perm.mem_iff.mp (List.of_mem_zip hq).2
  rw [mem_intRange] at hp₁ hq₂
  omega

/-- `joinHalves_spec` for the elements alone: `reversePermutation` supplies the
decoration, whatever its entries are. -/
theorem joinHalves_sorts {n : Nat} {destLow low : Int} {s : State α} {front junk back frontS backS ys₁ ys₂ : List α}
    (c : Comparator α) (bounded : Bounded n s) (hdest : s.dest = front ++ (junk ++ back))
    (hdestLow : destLow = front.length) (hsrc : s.src = frontS ++ (ys₁ ++ (ys₂ ++ backS)))
    (hlow : low = frontS.length) (hcount : junk.length = ys₁.length + ys₂.length)
    (hfits : destLow + junk.length ≤ n) (hfitsS : low + junk.length ≤ n) (hne₁ : ys₁ ≠ []) (hne₂ : ys₂ ≠ [])
    (hsorted₁ : c.Sorted ys₁) (hsorted₂ : c.Sorted ys₂) :
    ∃ s' ys, joinHalves c destLow (destLow + junk.length) low (low + ys₁.length)
        (low + ys₁.length + ys₂.length) s = .ok s' ∧
      Bounded n s' ∧ s'.src = s.src ∧ s'.dest = front ++ (ys ++ back) ∧ ys.Perm (ys₁ ++ ys₂) ∧ c.Sorted ys ∧
      (destLow = low → ∀ (s₀ : State α) xs frontR backR ids, xs.length = junk.length → low = frontR.length →
        Followed low frontR backR xs (ys₁ ++ ys₂) ids s₀ s → Stable c ((ys₁ ++ ys₂).zip ids) →
        ∃ ids', Followed low frontR backR xs ys ids' s₀ s' ∧ Stable c (ys.zip ids')) := by
  have hlenR := bounded.reverse_length
  obtain ⟨frontR, ids, backR, hrev, hfrontR, hids⟩ :=
    @exists_part _ s.reversePermutation frontS.length (ys₁.length + ys₂.length) (by omega)
  obtain ⟨ids₁, ids₂, rfl, hids₁⟩ := @exists_front _ ids ys₁.length (by omega)
  have hids₂ : ids₂.length = ys₂.length := by
    rw [List.length_append] at hids
    omega
  have hfst₁ := map_fst_zip_eq hids₁
  have hsnd₁ := map_snd_zip_eq hids₁
  have hfst₂ := map_fst_zip_eq hids₂
  have hsnd₂ := map_snd_zip_eq hids₂
  have hzip₁ : (ys₁.zip ids₁).length = ys₁.length := by rw [List.length_zip]; omega
  have hzip₂ : (ys₂.zip ids₂).length = ys₂.length := by rw [List.length_zip]; omega
  obtain ⟨s', qs, hjoin, hbounded, hsrc', hdest', hperm, hsorted, hframe, hstable, htrack⟩ :=
    @joinHalves_spec α n destLow low s front junk back frontS backS frontR backR (ys₁.zip ids₁) (ys₂.zip ids₂) c
      bounded hdest hdestLow (by rw [hfst₁, hfst₂]; exact hsrc) hlow
      (by rw [hrev, hsnd₁, hsnd₂, List.append_assoc]) (by omega) (by omega) hfits
      (by rw [ne_eq, ← List.length_eq_zero_iff, hzip₁, List.length_eq_zero_iff]; exact hne₁)
      (by rw [ne_eq, ← List.length_eq_zero_iff, hzip₂, List.length_eq_zero_iff]; exact hne₂)
      (c.sorted_map.mp (by rw [hfst₁]; exact hsorted₁)) (c.sorted_map.mp (by rw [hfst₂]; exact hsorted₂))
  rw [hzip₁, hzip₂] at hjoin
  rw [← List.zip_append (by omega)] at hperm hframe hstable htrack
  have hfst : ((ys₁ ++ ys₂).zip (ids₁ ++ ids₂)).map Prod.fst = ys₁ ++ ys₂ :=
    map_fst_zip_eq (by rw [List.length_append, List.length_append]; omega)
  have hsnd : ((ys₁ ++ ys₂).zip (ids₁ ++ ids₂)).map Prod.snd = ids₁ ++ ids₂ :=
    map_snd_zip_eq (by rw [List.length_append, List.length_append]; omega)
  rw [hsnd] at hframe htrack
  refine ⟨s', qs.map Prod.fst, hjoin, hbounded, hsrc', hdest', ?_, c.sorted_map.mpr hsorted, ?_⟩
  · have := hperm.map Prod.fst
    rwa [hfst] at this
  · intro hsame s₀ xs frontR' backR' ids' hxs hlow' hf hdecorated
    -- the decoration is what the halves left
    have hlen' : ids'.length = xs.length := by rw [hf.perm.length_eq, intRange_length_add]
    obtain ⟨rfl, hrest⟩ := List.append_inj (hrev.symm.trans hf.reverse) (by omega)
    obtain ⟨rfl, rfl⟩ := List.append_inj hrest (by omega)
    have hcountPs : ((ys₁ ++ ys₂).zip (ids₁ ++ ids₂)).length = xs.length := by
      rw [List.length_zip, List.length_append]
      omega
    obtain ⟨hreverse, hfollows⟩ := htrack hsame (by rw [hcountPs]; exact hf.perm) hf.follows
    have hqs : (qs.map Prod.snd).Perm (ids₁ ++ ids₂) := by
      have := hperm.map Prod.snd
      rwa [hsnd] at this
    refine ⟨qs.map Prod.snd, ⟨hreverse, hfollows, hqs.trans hf.perm, ?_, ?_⟩, ?_⟩
    · rw [zip_fst_snd]
      exact hperm.trans hf.pairs
    · intro t ht
      rw [hframe t (fun hmem => ht (hf.perm.mem_iff.mp hmem)), hf.frame t ht]
    · rw [zip_fst_snd]
      exact hstable hdecorated

theorem mergeSort_sorts {n : Nat} (c : Comparator α) (fuel : Nat) {low off : Int}
    {front back frontS backS xs : List α} {s : State α} (bounded : Bounded n s)
    (hdest : s.dest = front ++ (xs ++ back)) (hsrc : s.src = frontS ++ (xs ++ backS))
    (hlow : low = front.length) (hoff : low + off = frontS.length) (hfits : low + xs.length ≤ n)
    (hfitsS : low + off + xs.length ≤ n) (hfuel : xs.length < fuel) :
    ∃ s' ys, mergeSort c fuel low (low + xs.length) off s = .ok s' ∧
      Sorts n c low off front back frontS backS xs s s' ys := by
  induction fuel generalizing low off front back frontS backS xs s with
  | zero => omega
  | succ fuel ih =>
    have hlength : low + (xs.length : Int) - low = xs.length := by omega
    have hthreshold : (insertionSortThreshold : Int) = 7 := rfl
    rw [mergeSort, hlength]
    by_cases hshort : (xs.length : Int) < insertionSortThreshold
    · rw [if_pos hshort]
      exact insertionSort_sorts c bounded hdest hsrc hlow hfits
    · rw [if_neg hshort]
      obtain ⟨xs₁, xs₂, rfl, hhalf⟩ := @exists_front _ xs (xs.length / 2) (by omega)
      rw [List.length_append] at hhalf hshort hfits hfitsS hfuel ⊢
      have hmid : (low + off + (low + ((xs₁.length + xs₂.length : Nat) : Int) + off)) / 2 =
          low + off + xs₁.length := by omega
      have hhigh : low + ((xs₁.length + xs₂.length : Nat) : Int) + off =
          low + off + xs₁.length + xs₂.length := by omega
      rw [List.append_assoc] at hdest hsrc
      -- the first half
      obtain ⟨s₁, ys₁, hrun₁, h₁⟩ := @ih (low + off) (-off) frontS (xs₂ ++ backS) front (xs₂ ++ back) xs₁
        s.exchange ⟨bounded.length, bounded.reverse_length, bounded.entries, bounded.reverse_entries⟩
        hsrc hdest hoff (by omega) (by omega) (by omega) (by omega)
      obtain ⟨zs₁, hzs₁, hzlen₁⟩ := h₁.src
      have hylen₁ : ys₁.length = xs₁.length := h₁.perm.length_eq
      -- the second half
      obtain ⟨s₂, ys₂, hrun₂, h₂⟩ := @ih (low + off + xs₁.length) (-off) (frontS ++ ys₁) backS
        (front ++ zs₁) back xs₂ s₁ h₁.bounded (by rw [h₁.dest, List.append_assoc])
        (by rw [hzs₁, List.append_assoc]) (by rw [List.length_append]; omega)
        (by rw [List.length_append]; omega) (by omega) (by omega) (by omega)
      obtain ⟨zs₂, hzs₂, hzlen₂⟩ := h₂.src
      have hylen₂ : ys₂.length = xs₂.length := h₂.perm.length_eq
      have hjunk : (zs₁ ++ zs₂).length = xs₁.length + xs₂.length := by
        rw [List.length_append]
        omega
      obtain ⟨s', ys, hjoin, hbounded, hsrc', hdest', hperm, hsorted, hfollowed⟩ :=
        @joinHalves_sorts α n low (low + off) s₂.exchange front (zs₁ ++ zs₂) back frontS backS ys₁ ys₂ c
          ⟨h₂.bounded.length, h₂.bounded.reverse_length, h₂.bounded.entries, h₂.bounded.reverse_entries⟩
          (by change s₂.src = _; rw [hzs₂, List.append_assoc, List.append_assoc]) hlow
          (by change s₂.dest = _; rw [h₂.dest, List.append_assoc]) hoff (by omega) (by omega) (by omega)
          (by rw [ne_eq, ← List.length_eq_zero_iff]; omega)
          (by rw [ne_eq, ← List.length_eq_zero_iff]; omega) h₁.sorted h₂.sorted
      rw [hjunk, hylen₁, hylen₂] at hjoin
      refine ⟨s', ys, ?_, hbounded, hperm.trans (h₁.perm.append h₂.perm), hsorted, hdest',
        ⟨ys₁ ++ ys₂, ?_, ?_⟩, ?_⟩
      · simp only [hmid]
        simp only [hhigh, hrun₁, hrun₂, bind, Except.bind]
        exact hjoin
      · rw [hsrc']
        change s₂.dest = _
        rw [h₂.dest, List.append_assoc, List.append_assoc]
      · rw [List.length_append, List.length_append]
        omega
      · intro hzero frontR backR hrev hlowR hfollows
        rw [List.length_append] at hzero hrev hfollows
        obtain rfl : off = 0 := by omega
        rw [Int.add_zero] at h₁ h₂ hfollowed
        have hsplit : intRange low (low + ((xs₁.length + xs₂.length : Nat) : Int)) =
            intRange low (low + xs₁.length) ++
              intRange (low + xs₁.length) (low + xs₁.length + xs₂.length) := by
          rw [intRange_append (by omega : low ≤ low + xs₁.length) (by omega)]
          congr 2
          omega
        rw [hsplit] at hrev hfollows
        rw [follows_append, intRange_length_add] at hfollows
        obtain ⟨ids₁, hf₁, hstable₁⟩ := h₁.followed (Or.inl rfl) frontR _ (by
          change s.reversePermutation = _
          rw [hrev, List.append_assoc]) hlowR hfollows.1
        have hids₁ : ids₁.length = xs₁.length := by rw [hf₁.perm.length_eq, intRange_length_add]
        obtain ⟨ids₂, hf₂, hstable₂⟩ := h₂.followed (Or.inl rfl) (frontR ++ ids₁) backR (by
          rw [hf₁.reverse, List.append_assoc]) (by rw [List.length_append]; omega) (by
          apply hfollows.2.congr
          intro t ht
          apply hf₁.frame
          rw [mem_intRange] at ht ⊢
          omega)
        have hboth := hf₁.append hylen₁ hf₂
        -- exchanging `src` and `dest` leaves the arrays alone
        exact hfollowed rfl s _ frontR backR _ (by rw [hjunk, List.length_append]) hlowR
          ⟨hboth.reverse, hboth.follows, hboth.perm, hboth.pairs, hboth.frame⟩
          (hf₁.stable_append hylen₁ hf₂ hstable₁ hstable₂)

theorem bounded_init (src dest : List α) (n : Nat) :
    Bounded n (⟨src, dest, initPermutation n, initPermutation n⟩ : State α) := by
  have hlen : (initPermutation n).length = n := by
    rw [initPermutation, intRange_length]
    omega
  have hmem : ∀ v ∈ initPermutation n, 0 ≤ v ∧ v < n := by
    intro v hv
    rw [initPermutation, mem_intRange] at hv
    exact hv
  exact ⟨hlen, hlen, hmem, hmem⟩

theorem readAt_initPermutation {n : Nat} {i : Int} (h0 : 0 ≤ i) (hi : i < n) :
    readAt (initPermutation n) i = .ok i := by
  obtain ⟨k, rfl⟩ : ∃ k : Nat, i = k := ⟨i.toNat, by omega⟩
  have hk : k < (initPermutation n).length := by
    rw [initPermutation, intRange_length]
    omega
  rw [readAt_natCast _ _ hk]
  simp [initPermutation, intRange]

/-- The permutation `r` that is reported for a range: the element `xs[k]` is
found at the place `r[k]`. -/
def Reports (low : Int) (xs ys : List α) (r : List Int) : Prop :=
  IsRangePerm low r ∧ ∀ k, k < xs.length → ∃ m : Nat, r[k]? = some (low + m) ∧ ys[m]? = xs[k]?

def KeepsOrder (c : Comparator α) (xs : List α) (r : List Int) : Prop :=
  ∀ (i j : Nat) (x y : α) (v w : Int), i < j → xs[i]? = some x → xs[j]? = some y → c.compare x y = 0 →
    r[i]? = some v → r[j]? = some w → v < w

theorem reports_of_followed {n : Nat} {low : Int} {frontR backR : List Int} {xs ys : List α}
    {ids : List Int} {s s' : State α} {c : Comparator α} (bounded : Bounded n s') (h0 : 0 ≤ low)
    (hfits : low + xs.length ≤ n) (hlen : ys.length = xs.length)
    (h : Followed low frontR backR xs ys ids s s') (hstable : Stable c (ys.zip ids)) :
    ∃ r, copyOfRange 0 s'.permutation low (low + xs.length) = .ok r ∧ r.length = xs.length ∧
      Reports low xs ys r ∧ KeepsOrder c xs r := by
  obtain ⟨l, rfl⟩ : ∃ l : Nat, low = l := ⟨low.toNat, by omega⟩
  have hlenP := bounded.length
  obtain ⟨front, r, back, hperm, hfront, hr⟩ :=
    @exists_part _ s'.permutation l xs.length (by omega)
  have hcopy : copyOfRange 0 s'.permutation l (l + xs.length) = .ok r := by
    rw [hperm]
    exact copyOfRange_split (by omega) (by omega)
  have hidlen : ids.length = xs.length := by rw [h.perm.length_eq, intRange_length_add]
  -- the entry for the element with the index `ids[m]`
  have hentry : ∀ m, (hm : m < ids.length) → ∃ k : Nat, k < xs.length ∧ ids[m] = l + k ∧
      r[k]? = some ((l : Int) + m) := by
    intro m hm
    have hmem := h.perm.mem_iff.mp (List.getElem_mem hm)
    rw [mem_intRange] at hmem
    obtain ⟨k, hk⟩ : ∃ k : Nat, ids[m] = (l : Int) + k := ⟨(ids[m] - l).toNat, by omega⟩
    refine ⟨k, by omega, hk, ?_⟩
    have hread := h.follows m hm
    have hkr : k < r.length := by omega
    rw [hk, hperm, readAt_append_right (by omega), readAt_append_left (by omega),
      show (l : Int) + k - front.length = k by omega, readAt_natCast _ _ hkr] at hread
    rw [List.getElem?_eq_getElem hkr, Except.ok.inj hread]
  -- the place of the element `xs[k]`
  have hplace : ∀ k, (hk : k < xs.length) → ∃ m, ∃ hm : m < (ys.zip ids).length,
      (ys.zip ids)[m] = (xs[k], (l : Int) + k) ∧ r[k]? = some ((l : Int) + m) := by
    intro k hk
    have hk' : k < (intRange (l : Int) (l + xs.length)).length := by
      rw [intRange_length_add]
      exact hk
    have hpair : (xs[k], (l : Int) + k) ∈ xs.zip (intRange (l : Int) (l + xs.length)) := by
      rw [List.mem_iff_getElem]
      refine ⟨k, by rw [List.length_zip]; omega, ?_⟩
      rw [List.getElem_zip]
      simp [intRange]
    obtain ⟨m, hm, hget⟩ := List.getElem_of_mem (h.pairs.mem_iff.mpr hpair)
    refine ⟨m, hm, hget, ?_⟩
    rw [List.length_zip] at hm
    rw [List.getElem_zip, Prod.mk.injEq] at hget
    obtain ⟨k', hk'lt, hid, hrk⟩ := hentry m (by omega)
    have hkk : k' = k := by
      have := hid.symm.trans hget.2
      omega
    rw [← hkk]
    exact hrk
  refine ⟨r, hcopy, hr, ⟨?_, ?_⟩, ?_⟩
  · -- every place occurs among the entries
    apply isRangePerm_of_mem
    intro v hlo hhi
    obtain ⟨m, rfl⟩ : ∃ m : Nat, v = (l : Int) + m := ⟨(v - l).toNat, by omega⟩
    obtain ⟨k, -, -, hk⟩ := hentry m (by omega)
    exact List.mem_of_getElem? hk
  · intro k hk
    obtain ⟨m, hm, hget, hrk⟩ := hplace k hk
    rw [List.length_zip] at hm
    rw [List.getElem_zip, Prod.mk.injEq] at hget
    refine ⟨m, hrk, ?_⟩
    rw [List.getElem?_eq_getElem (by omega), List.getElem?_eq_getElem hk, hget.1]
  · intro i j x y v w hij hx hy heq hv hw
    obtain ⟨hi, rfl⟩ := List.getElem?_eq_some_iff.mp hx
    obtain ⟨hj, rfl⟩ := List.getElem?_eq_some_iff.mp hy
    obtain ⟨m, hm, hget, hri⟩ := hplace i hi
    obtain ⟨m', hm', hget', hrj⟩ := hplace j hj
    rw [hri] at hv
    rw [hrj] at hw
    cases hv
    cases hw
    rcases Nat.lt_trichotomy m m' with hlt | hsame | hgt
    · omega
    · subst hsame
      have := congrArg Prod.snd (hget.symm.trans hget')
      dsimp only at this
      omega
    · have hless := List.pairwise_iff_getElem.mp hstable m' m hm' hm hgt
      rw [hget, hget'] at hless
      have hsym : c.compare xs[j] xs[i] = 0 := by
        have h1 := c.swap xs[j] xs[i]
        have h2 := c.swap xs[i] xs[j]
        omega
      have := hless hsym
      omega

/-- `sort` of a range `xs`: the range is sorted, and the reported permutation is
right when the range starts at the front of the array or is short. -/
theorem sort_spec (c : Comparator α) (front xs back : List α) :
    ∃ ys r, sort c (front ++ (xs ++ back)) front.length (front.length + xs.length) =
        .ok (front ++ (ys ++ back), r) ∧ ys.Perm xs ∧ c.Sorted ys ∧ r.length = xs.length ∧
      (front = [] ∨ xs.length < 7 → Reports front.length xs ys r ∧ KeepsOrder c xs r) := by
  have hlen : (front ++ (xs ++ back)).length = front.length + (xs.length + back.length) := by
    rw [List.length_append, List.length_append]
  have haux : ((front ++ (xs ++ back)).drop front.length).take xs.length = xs := by
    rw [List.drop_left' rfl, List.take_left' rfl]
  have hcheck : rangeCheck (front ++ (xs ++ back)).length front.length (front.length + xs.length) =
      .ok () := by
    rw [rangeCheck, if_neg (by omega), if_neg (by omega), if_neg (by omega)]
  have hsource : xs = [] ++ (xs ++ []) := by simp
  obtain ⟨s, ys, hrun, hsorts⟩ := @mergeSort_sorts α (front ++ (xs ++ back)).length c
    ((front ++ (xs ++ back)).length + 1) front.length (-front.length) front back [] [] xs
    ⟨xs, front ++ (xs ++ back), initPermutation (front ++ (xs ++ back)).length,
      initPermutation (front ++ (xs ++ back)).length⟩
    (bounded_init _ _ _) rfl hsource rfl (by simp) (by omega) (by omega) (by omega)
  have hylen : ys.length = xs.length := hsorts.perm.length_eq
  have hcount : ((front.length : Int) + xs.length - front.length).toNat = xs.length := by omega
  -- the returned part of the permutation array
  obtain ⟨r, hcopy, hr, hreports⟩ : ∃ r, copyOfRange 0 s.permutation front.length
      (front.length + xs.length) = .ok r ∧ r.length = xs.length ∧
      (front = [] ∨ xs.length < 7 → Reports front.length xs ys r ∧ KeepsOrder c xs r) := by
    by_cases hcond : front = [] ∨ xs.length < 7
    · have hinit : initPermutation (front ++ (xs ++ back)).length =
          intRange 0 front.length ++ (intRange front.length (front.length + xs.length) ++
            intRange (front.length + xs.length) (front ++ (xs ++ back)).length) := by
        rw [initPermutation, ← intRange_append (by omega) (by omega), ← intRange_append (by omega) (by omega)]
      have hoff : (-(front.length : Int)) = 0 ∨ (xs.length : Int) < insertionSortThreshold := by
        rcases hcond with rfl | hshort
        · exact Or.inl rfl
        · right
          change (xs.length : Int) < 7
          omega
      obtain ⟨ids, hfollowed, hstable⟩ := hsorts.followed hoff _ _ hinit (by rw [intRange_length]; omega) (by
        intro k hk
        have hget : (intRange (front.length : Int) (front.length + xs.length))[k] = (front.length : Int) + k := by
          simp [intRange]
        rw [intRange_length_add] at hk
        rw [hget]
        exact readAt_initPermutation (by omega) (by omega))
      obtain ⟨r, hcopy, hr, hreports⟩ := reports_of_followed hsorts.bounded (by omega) (by omega) hylen hfollowed hstable
      exact ⟨r, hcopy, hr, fun _ => hreports⟩
    · have hlenP := hsorts.bounded.length
      obtain ⟨frontP, r, backP, hperm, hfrontP, hr⟩ :=
        @exists_part _ s.permutation front.length xs.length (by omega)
      refine ⟨r, ?_, hr, fun h => absurd h hcond⟩
      rw [hperm]
      exact copyOfRange_split (by omega) (by omega)
  refine ⟨ys, r, ?_, hsorts.perm, hsorts.sorted, hr, hreports⟩
  rw [sort, hcheck]
  simp only [bind, Except.bind, Int.toNat_natCast, hcount, haux, hrun, hcopy, hsorts.dest]

end SortHelper
end OpenJfx.Collections
