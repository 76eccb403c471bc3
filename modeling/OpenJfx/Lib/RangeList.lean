import OpenJfx.Lib.Bisect

/-! # Ordered lists of half-open ranges

Records with a range `[lo r, hi r)`, listed from left to right without overlap.
Ranges may be empty and may touch.  `findRange` is the binary search for the
range that contains an index; a miss returns the complement of the number of
ranges that end at or before the index. -/
set_option autoImplicit false
namespace OpenJfx.Lib

section Ranges
variable {β : Type} (lo hi : β → Int)

/-- The ranges start at `p` or later, follow each other and do not overlap. -/
def Ordered : Int → List β → Prop
  | _, [] => True
  | p, r :: rest => p ≤ lo r ∧ lo r ≤ hi r ∧ Ordered (hi r) rest

instance decidableOrdered : ∀ (p : Int) (rs : List β), Decidable (Ordered lo hi p rs)
  | _, [] => isTrue trivial
  | p, r :: rest =>
      have := decidableOrdered (hi r) rest
      inferInstanceAs (Decidable (p ≤ lo r ∧ lo r ≤ hi r ∧ Ordered lo hi (hi r) rest))

def lastEnd : Int → List β → Int
  | p, [] => p
  | _, r :: rest => lastEnd (hi r) rest

def rangeProbe (idx : Int) (rs : List β) (i : Nat) : Ordering :=
  match rs[i]? with
  | some r => if idx ≥ hi r then .lt else if idx < lo r then .gt else .eq
  | none => .gt

def findRange (idx : Int) (rs : List β) : Int := bisect (rangeProbe lo hi idx rs) rs.length

variable {lo hi}

theorem Ordered.lo_ge {p : Int} {rs : List β} (h : Ordered lo hi p rs) :
    ∀ r ∈ rs, p ≤ lo r ∧ lo r ≤ hi r := by
  induction rs generalizing p with
  | nil => simp
  | cons r rest ih =>
    intro r' hr'
    rcases List.mem_cons.mp hr' with rfl | hmem
    · exact ⟨h.1, h.2.1⟩
    · have := ih h.2.2 r' hmem
      have := h.1
      have := h.2.1
      omega

theorem ordered_append {p : Int} {rs ss : List β} :
    Ordered lo hi p (rs ++ ss) ↔ Ordered lo hi p rs ∧ Ordered lo hi (lastEnd hi p rs) ss := by
  induction rs generalizing p with
  | nil => simp [Ordered, lastEnd]
  | cons r rest ih =>
    simp only [List.cons_append, Ordered, lastEnd, ih]
    tauto

theorem Ordered.pairwise {p : Int} {rs : List β} (h : Ordered lo hi p rs) :
    rs.Pairwise (fun r s => lo r ≤ lo s ∧ hi r ≤ lo s) := by
  induction rs generalizing p with
  | nil => exact List.Pairwise.nil
  | cons r rest ih =>
    refine List.Pairwise.cons ?_ (ih h.2.2)
    intro s hs
    have := (h.2.2.lo_ge s hs).1
    have := h.2.1
    omega

theorem Ordered.le_lastEnd {p : Int} {rs : List β} (h : Ordered lo hi p rs) :
    p ≤ lastEnd hi p rs := by
  induction rs generalizing p with
  | nil => exact le_rfl
  | cons r rest ih =>
    have := ih h.2.2
    have := h.1
    have := h.2.1
    simp only [lastEnd]
    omega

theorem Ordered.hi_le_lastEnd {p : Int} {rs : List β} (h : Ordered lo hi p rs) :
    ∀ r ∈ rs, hi r ≤ lastEnd hi p rs := by
  induction rs generalizing p with
  | nil => simp
  | cons r rest ih =>
    intro r' hr'
    rcases List.mem_cons.mp hr' with rfl | hmem
    · exact h.2.2.le_lastEnd
    · exact ih h.2.2 r' hmem

theorem lastEnd_mem (p : Int) (rs : List β) :
    lastEnd hi p rs = p ∧ rs = [] ∨ ∃ r ∈ rs, lastEnd hi p rs = hi r := by
  induction rs generalizing p with
  | nil => exact Or.inl ⟨rfl, rfl⟩
  | cons r rest ih =>
    right
    rcases ih (hi r) with ⟨h, -⟩ | ⟨r', hr', h⟩
    · exact ⟨r, List.mem_cons_self .., h⟩
    · exact ⟨r', List.mem_cons_of_mem _ hr', h⟩

theorem lastEnd_le {p q : Int} {rs : List β} (hp : p ≤ q) (h : ∀ r ∈ rs, hi r ≤ q) :
    lastEnd hi p rs ≤ q := by
  rcases @lastEnd_mem _ hi p rs with ⟨heq, -⟩ | ⟨r, hr, heq⟩
  · exact heq.le.trans hp
  · exact heq.le.trans (h r hr)

/-- In an ordered list the ranges that end at or before an index come first. -/
theorem Ordered.split {p : Int} {rs : List β} (h : Ordered lo hi p rs) (idx : Int) :
    ∃ pre post, rs = pre ++ post ∧ (∀ r ∈ pre, hi r ≤ idx) ∧ ∀ r ∈ post, idx < hi r := by
  induction rs generalizing p with
  | nil => exact ⟨[], [], rfl, by simp, by simp⟩
  | cons r rest ih =>
    by_cases hr : hi r ≤ idx
    · obtain ⟨pre, post, rfl, hpre, hpost⟩ := ih h.2.2
      refine ⟨r :: pre, post, rfl, ?_, hpost⟩
      intro r' hr'
      rcases List.mem_cons.mp hr' with rfl | hmem
      · exact hr
      · exact hpre r' hmem
    · refine ⟨[], r :: rest, rfl, by simp, ?_⟩
      intro r' hr'
      rcases List.mem_cons.mp hr' with rfl | hmem
      · omega
      · have := h.2.2.lo_ge r' hmem
        omega

private theorem rangeProbe_pre {idx : Int} {pre post : List β} (hpre : ∀ r ∈ pre, hi r ≤ idx)
    {i : Nat} (hlt : i < pre.length) : rangeProbe lo hi idx (pre ++ post) i = .lt := by
  have hmem : pre[i] ∈ pre := List.getElem_mem hlt
  have hle := hpre _ hmem
  have hget : (pre ++ post)[i]? = some pre[i] := by
    rw [List.getElem?_append_left hlt, List.getElem?_eq_getElem hlt]
  simp [rangeProbe, hget, hle]

private theorem rangeProbe_post {idx : Int} {pre post : List β} (hpost : ∀ r ∈ post, idx < hi r)
    {i : Nat} (hge : pre.length ≤ i) : rangeProbe lo hi idx (pre ++ post) i ≠ .lt := by
  intro h
  rw [rangeProbe, List.getElem?_append_right hge] at h
  cases hget : post[i - pre.length]? with
  | none => simp [hget] at h
  | some r =>
    have hmem : r ∈ post := List.mem_of_getElem? hget
    have := hpost r hmem
    rw [hget] at h
    simp only [ge_iff_le] at h
    split at h
    · omega
    · split at h <;> cases h

theorem findRange_spec {p : Int} {rs : List β} (h : Ordered lo hi p rs) (idx : Int) :
    ∃ pre post, rs = pre ++ post ∧ (∀ r ∈ pre, hi r ≤ idx) ∧ (∀ r ∈ post, idx < hi r) ∧
      ((∃ r rest, post = r :: rest ∧ lo r ≤ idx ∧ findRange lo hi idx rs = .ofNat pre.length) ∨
        ((∀ r ∈ post, idx < lo r) ∧ findRange lo hi idx rs = .negSucc pre.length)) := by
  obtain ⟨pre, post, rfl, hpre, hpost⟩ := h.split idx
  refine ⟨pre, post, rfl, hpre, hpost, ?_⟩
  have hord : Ordered lo hi (lastEnd hi p pre) post := (ordered_append.mp h).2
  cases hres : findRange lo hi idx (pre ++ post) with
  | ofNat m =>
    left
    obtain ⟨hlen, heq⟩ := bisect_hit _ _ _ hres
    have hge : pre.length ≤ m := by
      by_contra hlt
      rw [rangeProbe_pre hpre (by omega)] at heq
      cases heq
    have hlt : m - pre.length < post.length := by
      rw [List.length_append] at hlen
      omega
    rw [rangeProbe, List.getElem?_append_right hge, List.getElem?_eq_getElem hlt] at heq
    simp only [ge_iff_le] at heq
    have hlo : lo post[m - pre.length] ≤ idx := by
      split at heq
      · cases heq
      · split at heq
        · cases heq
        · omega
    cases post with
    | nil => simp at hlt
    | cons r rest =>
      have hm : m - pre.length = 0 := by
        by_contra hne
        obtain ⟨k, hk⟩ : ∃ k, m - pre.length = k + 1 := ⟨m - pre.length - 1, by omega⟩
        simp only [hk, List.getElem_cons_succ, List.length_cons] at hlo hlt
        have h1 := hord.2.2.lo_ge _ (List.getElem_mem (by omega : k < rest.length))
        have h2 := hpost r (List.mem_cons_self ..)
        omega
      refine ⟨r, rest, rfl, ?_, by rw [show m = pre.length by omega]⟩
      simpa [hm] using hlo
  | negSucc k =>
    right
    have low : ∀ i j, i < j → j < (pre ++ post).length →
        rangeProbe lo hi idx (pre ++ post) j = .lt → rangeProbe lo hi idx (pre ++ post) i = .lt := by
      intro i j hij _ hj
      have : j < pre.length := by
        by_contra hge
        exact rangeProbe_post hpost (by omega) hj
      exact rangeProbe_pre hpre (by omega)
    have high : ∀ i j, i < j → j < (pre ++ post).length →
        rangeProbe lo hi idx (pre ++ post) i = .gt → rangeProbe lo hi idx (pre ++ post) j = .gt := by
      intro i j hij hj hi'
      have hge : pre.length ≤ i := by
        by_contra hlt
        rw [rangeProbe_pre hpre (by omega)] at hi'
        cases hi'
      rw [List.length_append] at hj
      have hjlt : j - pre.length < post.length := by omega
      have hilt : i - pre.length < post.length := by omega
      rw [rangeProbe, List.getElem?_append_right hge, List.getElem?_eq_getElem hilt] at hi'
      rw [rangeProbe, List.getElem?_append_right (by omega), List.getElem?_eq_getElem hjlt]
      have hsplit : post = post.take (j - pre.length) ++ post[j - pre.length] ::
          post.drop (j - pre.length + 1) := by simp
      have hmem : post[i - pre.length] ∈ post.take (j - pre.length) := by
        rw [List.mem_take_iff_getElem]
        exact ⟨i - pre.length, by omega, rfl⟩
      have hord' := hord
      rw [hsplit, ordered_append] at hord'
      have h1 := hord'.1.hi_le_lastEnd _ hmem
      have h2 := hord'.2.1
      have h3 := hord'.2.2.1
      have h4 := (hord.lo_ge _ (List.getElem_mem hilt))
      simp only [ge_iff_le] at hi' ⊢
      have hgt : idx < lo post[i - pre.length] := by
        split at hi'
        · cases hi'
        · split at hi'
          · assumption
          · cases hi'
      rw [if_neg (by omega), if_pos (by omega)]
    obtain ⟨hk, hlow, hhigh⟩ := bisect_miss _ _ k low high hres
    have hkpre : k = pre.length := by
      by_contra hne
      rcases Nat.lt_or_gt_of_ne hne with hlt | hgt
      · have h1 := hhigh k le_rfl (by rw [List.length_append]; omega)
        rw [rangeProbe_pre hpre hlt] at h1
        cases h1
      · exact rangeProbe_post hpost le_rfl (hlow pre.length hgt)
    subst hkpre
    refine ⟨?_, rfl⟩
    intro r hr
    obtain ⟨i, hi', rfl⟩ := List.getElem_of_mem hr
    have h1 := hhigh (pre.length + i) (by omega) (by rw [List.length_append]; omega)
    rw [rangeProbe, List.getElem?_append_right (by omega),
      show pre.length + i - pre.length = i by omega, List.getElem?_eq_getElem hi'] at h1
    simp only [ge_iff_le] at h1
    split at h1
    · cases h1
    · split at h1
      · assumption
      · cases h1

end Ranges
end OpenJfx.Lib
