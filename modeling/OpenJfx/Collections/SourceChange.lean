import OpenJfx.Collections.BuilderKinds

/-! # Changes of a source list

What a listener may expect of a change: the permutations come first, then the
add/remove sub-changes in the order of their positions, then the updates.  The
listener sees the list in its final state.  `edits_end` is the rule for a
listener that works through the add/remove sub-changes one by one: between two
of them the list is a part of the final list followed by a part of the old one. -/
set_option autoImplicit false
namespace OpenJfx.Collections
open OpenJfx.Lib

/-- `getAddedSubList()`: a part of the changed list. -/
def SubChange.getAddedSubList {E : Type} (list : List E) (c : SubChange E) : List E :=
  if c.wasAdded then (list.drop c.fromIdx.toNat).take (c.toIdx - c.fromIdx).toNat else []

structure SourceChange (E : Type) where
  permutations : List (SubChange E)
  edits : List (SubChange E)
  updates : List (SubChange E)
deriving DecidableEq, Repr

namespace SourceChange
variable {E : Type}

def change (c : SourceChange E) : Change E := c.permutations ++ (c.edits ++ c.updates)

/-- The permutations lead from `old` to `mid`. -/
def Permutes : List (SubChange E) → List E → List E → Prop
  | [], old, mid => old = mid
  | c :: cs, old, mid => c.wasPermutated = true ∧ c.ValidPermutation old.length ∧
      Permutes cs (permuteRange c.fromIdx c.perm old) mid

/-- An update of a range of a list of length `n`. -/
def Updates (n : Nat) (u : SubChange E) : Prop :=
  u.perm = [] ∧ u.updated = true ∧ u.getRemoved = [] ∧ 0 ≤ u.fromIdx ∧ u.fromIdx ≤ u.toIdx ∧ u.toIdx ≤ n

instance (n : Nat) (u : SubChange E) : Decidable (Updates n u) :=
  inferInstanceAs (Decidable (_ ∧ _ ∧ _ ∧ _ ∧ _ ∧ _))

/-- The change leads from `old` to `new`. -/
structure Legal (old new : List E) (c : SourceChange E) : Prop where
  plain : ∀ e ∈ c.edits, e.Plain
  updates : ∀ u ∈ c.updates, Updates new.length u
  turns : ∃ mid, Permutes c.permutations old mid ∧ Turns 0 (c.edits.map SubChange.edit) mid new

theorem plain_accessors {c : SubChange E} (h : c.Plain) : c.wasPermutated = false ∧ c.wasUpdated = false := by
  obtain ⟨hperm, hupdated⟩ := h
  exact ⟨by rw [SubChange.wasPermutated, hperm]; rfl, hupdated⟩

theorem updates_accessors {n : Nat} {u : SubChange E} (h : Updates n u) :
    u.wasPermutated = false ∧ u.wasUpdated = true := by
  obtain ⟨hperm, hupdated, -⟩ := h
  exact ⟨by rw [SubChange.wasPermutated, hperm]; rfl, hupdated⟩

/-! ## What is added and removed -/

theorem getAddedSubList_plain {c : SubChange E} (h : c.Plain) (list : List E) :
    c.getAddedSubList list = (list.drop c.fromIdx.toNat).take (c.toIdx - c.fromIdx).toNat := by
  obtain ⟨hperm, hupdated⟩ := plain_accessors h
  rw [SubChange.getAddedSubList, SubChange.wasAdded, hperm, hupdated]
  by_cases hlt : c.fromIdx < c.toIdx
  · rw [if_pos (by simpa using hlt)]
  · rw [if_neg (by simpa using hlt), show (c.toIdx - c.fromIdx).toNat = 0 by omega, List.take_zero]

theorem Permutes.perm {cs : List (SubChange E)} {old mid : List E} (h : Permutes cs old mid) : mid.Perm old := by
  induction cs generalizing old with
  | nil =>
    have heq : old = mid := h
    rw [heq]
  | cons c cs ih =>
    obtain ⟨-, ⟨hlow, hto, hlen, hrange⟩, hrest⟩ := h
    exact (ih hrest).trans (permuteRange_perm hrange hlow (by omega))

theorem Permutes.wasPermutated {cs : List (SubChange E)} {old mid : List E} (h : Permutes cs old mid) :
    ∀ c ∈ cs, c.wasPermutated = true := by
  induction cs generalizing old with
  | nil => simp
  | cons d cs ih =>
    obtain ⟨hd, -, hrest⟩ := h
    intro c hc
    rcases List.mem_cons.mp hc with rfl | hc
    · exact hd
    · exact ih hrest c hc

theorem Legal.parts {old new : List E} {c : SourceChange E} (h : c.Legal old new)
    (permutations : ∀ d ∈ c.permutations, d.getRemoved = []) :
    ∃ kept, old.Perm (kept ++ c.change.flatMap SubChange.getRemoved) ∧
      new.Perm (kept ++ c.change.flatMap (SubChange.getAddedSubList new)) := by
  obtain ⟨mid, hpermutes, hturns⟩ := h.turns
  have hfirst : c.permutations.flatMap (SubChange.getAddedSubList new) = [] := by
    rw [List.flatMap_eq_nil_iff]
    intro d hd
    rw [SubChange.getAddedSubList, SubChange.wasAdded, hpermutes.wasPermutated d hd]
    rfl
  have hlast : c.updates.flatMap (SubChange.getAddedSubList new) = [] := by
    rw [List.flatMap_eq_nil_iff]
    intro u hu
    rw [SubChange.getAddedSubList, SubChange.wasAdded, (updates_accessors (h.updates u hu)).2]
    simp
  have hedits : c.edits.flatMap (SubChange.getAddedSubList new) =
      (c.edits.map SubChange.edit).flatMap fun e => (new.drop e.lo.toNat).take (e.hi - e.lo).toNat := by
    rw [List.flatMap_map]
    exact List.flatMap_congr fun d hd => getAddedSubList_plain (h.plain d hd) new
  have hremovedFirst : c.permutations.flatMap SubChange.getRemoved = [] :=
    List.flatMap_eq_nil_iff.mpr permutations
  have hremovedLast : c.updates.flatMap SubChange.getRemoved = [] :=
    List.flatMap_eq_nil_iff.mpr fun u hu => (h.updates u hu).2.2.1
  have hremoved : c.edits.flatMap SubChange.getRemoved = (c.edits.map SubChange.edit).flatMap Edit.old := by
    rw [List.flatMap_map]
    rfl
  have hstart : Turns ([] : List E).length (c.edits.map SubChange.edit) mid new := hturns
  obtain ⟨kept, hold, hnew⟩ := hstart.parts
  refine ⟨kept, hpermutes.perm.symm.trans ?_, ?_⟩
  · rw [change, List.flatMap_append, List.flatMap_append, hremovedFirst, hremovedLast, hremoved,
      List.nil_append, List.append_nil]
    exact hold
  · rw [change, List.flatMap_append, List.flatMap_append, hfirst, hlast, hedits, List.nil_append,
      List.append_nil]
    exact hnew

/-! ## Rules for a listener -/

section Rules
variable {σ : Type} {mayThrow : Prop} {step : SubChange E → σ → Outcome Exn σ}

theorem permutations_end {inv : List E → σ → Prop}
    (preserved : ∀ (c : SubChange E) (cur : List E) (s : σ), c.wasPermutated = true →
      c.ValidPermutation cur.length → inv cur s →
      Outcome.Ends mayThrow (inv (permuteRange c.fromIdx c.perm cur)) (step c s))
    {cs : List (SubChange E)} {old mid : List E} (h : Permutes cs old mid) {s : σ} (hs : inv old s) :
    Outcome.Ends mayThrow (inv mid) (Outcome.run step cs s) := by
  induction cs generalizing old s with
  | nil =>
    have heq : old = mid := h
    subst heq
    exact hs
  | cons c cs ih =>
    obtain ⟨hc, hvalid, hrest⟩ := h
    apply Outcome.Ends.bind
    apply (preserved c old s hc hvalid hs).mono
    intro t ht
    exact ih hrest ht

/-- The add/remove sub-changes.  `inv front rest s` is about the list
`front ++ rest`, with `front` taken from the final list and `rest` from the old
one; none of the sub-changes still to come reaches into the elements kept in
front of the current one. -/
theorem edits_end {inv : List E → List E → σ → Prop} {edits : List (SubChange E)} {old new : List E}
    (preserved : ∀ c ∈ edits, ∀ (front kept added rest back : List E) (s : σ),
      new = front ++ (kept ++ (added ++ back)) → c.fromIdx = front.length + kept.length →
      c.toIdx = c.fromIdx + added.length →
      (∀ e ∈ edits, ∀ i : Int, front.length ≤ i → i < c.fromIdx → ¬ (e.fromIdx ≤ i ∧ i < e.toIdx)) →
      inv front (kept ++ (c.getRemoved ++ rest)) s →
      Outcome.Ends mayThrow (inv (front ++ (kept ++ added)) rest) (step c s))
    (h : Turns 0 (edits.map SubChange.edit) old new) {s : σ} (hs : inv [] old s) :
    Outcome.Ends mayThrow (fun s => ∃ front rest, new = front ++ rest ∧ inv front rest s ∧
      ∀ e ∈ edits, e.toIdx ≤ front.length) (Outcome.run step edits s) := by
  -- the sub-changes that are done end before the front
  have general : ∀ (todo finished : List (SubChange E)) (front rest back : List E) (s : σ),
      edits = finished ++ todo → (∀ e ∈ finished, e.toIdx ≤ front.length) → new = front ++ back →
      Turns front.length (todo.map SubChange.edit) rest back → inv front rest s →
      Outcome.Ends mayThrow (fun s => ∃ front rest, new = front ++ rest ∧ inv front rest s ∧
        ∀ e ∈ edits, e.toIdx ≤ front.length) (Outcome.run step todo s) := by
    intro todo
    induction todo with
    | nil =>
      intro finished front rest back s hedits hfinished hnew hturns hinv
      have heq : rest = back := hturns
      subst heq
      refine ⟨front, rest, hnew, hinv, ?_⟩
      rw [hedits, List.append_nil]
      exact hfinished
    | cons c todo ih =>
      intro finished front rest back s hedits hfinished hnew hturns hinv
      obtain ⟨kept, added, rest', back', hrest, hback, hlo, hhi, hturns'⟩ := hturns
      simp only [SubChange.edit_lo, SubChange.edit_hi, SubChange.edit_old] at hrest hlo hhi hturns'
      have hordered := hturns'.ordered.1
      have hnew' : new = front ++ (kept ++ (added ++ back')) := by rw [hnew, hback]
      have hclear : ∀ e ∈ edits, ∀ i : Int, front.length ≤ i → i < c.fromIdx →
          ¬ (e.fromIdx ≤ i ∧ i < e.toIdx) := by
        intro e he i h1 h2
        rw [hedits, List.mem_append, List.mem_cons] at he
        rcases he with he | rfl | he
        · have := hfinished e he
          omega
        · omega
        · have := ((ListChangeBuilder.ordered_edits.mp hordered).lo_ge e he).1
          omega
      apply Outcome.Ends.bind
      apply (preserved c (by rw [hedits]; simp) front kept added rest' back' s hnew' hlo hhi hclear (by
        rw [← hrest]
        exact hinv)).mono
      intro t ht
      have hlen : ((front ++ (kept ++ added)).length : Int) = c.toIdx := by
        simp only [List.length_append]
        omega
      refine ih (finished ++ [c]) (front ++ (kept ++ added)) rest' back' t ?_ ?_ ?_ ?_ ht
      · rw [hedits]
        simp
      · intro e he
        rcases List.mem_append.mp he with he | he
        · have := hfinished e he
          omega
        · rw [List.mem_singleton.mp he]
          omega
      · rw [hnew']
        simp
      · rw [hlen]
        exact hturns'
  exact general edits [] [] old new s rfl (by simp) rfl h hs

end Rules

end SourceChange
end OpenJfx.Collections
