import OpenJfx.Lib.EditScript
import OpenJfx.Lib.Java

/-! # Edit scripts as interleavings

What an edit script removed lies between the elements that both lists keep.
`weave g t ys` puts the block `g (t + k)` in front of the `k`-th element of `ys`
and a last block behind them, so a script is determined by the kept elements and
the blocks.  `restore` undoes a script given position by position (which
positions were added, what was removed in front of each), `regrow` undoes a list
of edits on other kept elements than the script was made for. -/
set_option autoImplicit false
namespace OpenJfx.Lib

section Weave
variable {α : Type}

theorem map_intRange_getElem? (front mid back : List α) {a : Int} (ha : a = front.length) :
    (intRange a (a + mid.length)).map (fun i => (front ++ (mid ++ back))[i.toNat]?) =
      mid.map some := by
  induction mid generalizing front a with
  | nil => rw [intRange_of_ge (by simp)]; rfl
  | cons m mid ih =>
    have htail := ih (front ++ [m]) (a := a + 1) (by simp [ha])
    rw [List.append_assoc, List.singleton_append] at htail
    rw [List.length_cons, intRange_cons (by omega), List.map_cons, List.map_cons,
      show a + ((mid.length + 1 : Nat) : Int) = a + 1 + mid.length by omega, List.cons_append, htail,
      ha, Int.toNat_natCast, List.getElem?_append_right le_rfl, Nat.sub_self,
      List.getElem?_cons_zero]

def weave (g : Nat → List α) (t : Nat) : List α → List α
  | [] => g t
  | y :: ys => g t ++ y :: weave g (t + 1) ys

attribute [local simp] weave

theorem weave_congr {g h : Nat → List α} {t : Nat} (heq : ∀ u, t ≤ u → g u = h u) (ys : List α) :
    weave g t ys = weave h t ys := by
  induction ys generalizing t with
  | nil => exact heq t le_rfl
  | cons y ys ih => rw [weave, weave, heq t le_rfl, ih (fun u hu => heq u (by omega))]

theorem weave_skip {g : Nat → List α} {t : Nat} (as bs : List α)
    (hg : ∀ u, t ≤ u → u < t + as.length → g u = []) :
    weave g t (as ++ bs) = as ++ weave g (t + as.length) bs := by
  induction as generalizing t with
  | nil => rfl
  | cons a as ih =>
    rw [List.length_cons] at hg ⊢
    rw [List.cons_append, weave, hg t le_rfl (by omega), List.nil_append,
      ih (fun u h1 h2 => hg u (by omega) (by omega)), List.cons_append,
      show t + 1 + as.length = t + (as.length + 1) by omega]

theorem weave_put (a : List α) (h : Nat → List α) (t : Nat) (ys : List α) :
    weave (fun u => (if u = t then a else []) ++ h u) t ys = a ++ weave h t ys := by
  cases ys with
  | nil => simp [weave]
  | cons y ys =>
    have htail : weave (fun u => (if u = t then a else []) ++ h u) (t + 1) ys = weave h (t + 1) ys :=
      weave_congr (fun u hu => by rw [if_neg (by omega), List.nil_append]) ys
    rw [weave, weave, htail, if_pos rfl, List.append_assoc]

theorem append_cons_cancel {y : α} {as bs us vs : List α} (ha : y ∉ as) (hb : y ∉ bs)
    (h : as ++ y :: us = bs ++ y :: vs) : as = bs ∧ us = vs := by
  induction as generalizing bs with
  | nil =>
    cases bs with
    | nil => exact ⟨rfl, (List.cons.inj h).2⟩
    | cons b bs =>
      rw [List.nil_append, List.cons_append] at h
      exact absurd (by rw [(List.cons.inj h).1]; exact List.mem_cons_self ..) hb
  | cons a as ih =>
    cases bs with
    | nil =>
      rw [List.nil_append, List.cons_append] at h
      exact absurd (by rw [← (List.cons.inj h).1]; exact List.mem_cons_self ..) ha
    | cons b bs =>
      rw [List.cons_append, List.cons_append] at h
      obtain ⟨rfl, htail⟩ := List.cons.inj h
      obtain ⟨rfl, rfl⟩ := ih (fun hm => ha (List.mem_cons_of_mem _ hm))
        (fun hm => hb (List.mem_cons_of_mem _ hm)) htail
      exact ⟨rfl, rfl⟩

theorem weave_unique {g h : Nat → List α} {t : Nat} {ys : List α}
    (hg : ∀ u, ∀ y ∈ ys, y ∉ g u) (hh : ∀ u, ∀ y ∈ ys, y ∉ h u)
    (heq : weave g t ys = weave h t ys) : ∀ u, t ≤ u → u ≤ t + ys.length → g u = h u := by
  induction ys generalizing t with
  | nil =>
    intro u h1 h2
    rw [List.length_nil] at h2
    rw [show u = t by omega]
    exact heq
  | cons y ys ih =>
    rw [weave, weave] at heq
    obtain ⟨hblock, hrest⟩ := append_cons_cancel (hg t y (List.mem_cons_self ..))
      (hh t y (List.mem_cons_self ..)) heq
    have htail := ih (fun u z hz => hg u z (List.mem_cons_of_mem _ hz))
      (fun u z hz => hh u z (List.mem_cons_of_mem _ hz)) hrest
    intro u h1 h2
    rw [List.length_cons] at h2
    by_cases hu : u = t
    · rw [hu, hblock]
    · exact htail u (by omega) (by omega)

/-! ## Position by position -/

/-- The elements at positions that were not added; `ys` starts at position `j`. -/
def keep (added : Int → Bool) : Int → List α → List α
  | _, [] => []
  | j, y :: ys => if added j then keep added (j + 1) ys else y :: keep added (j + 1) ys

attribute [local simp] keep

/-- The old list: added elements are left out and `r j` is put back in front of
position `j`. -/
def restore (r : Int → List α) (added : Int → Bool) : Int → List α → List α
  | j, [] => r j
  | j, y :: ys =>
      r j ++ (if added j then restore r added (j + 1) ys else y :: restore r added (j + 1) ys)

attribute [local simp] restore

/-- The number of kept positions before `j`. -/
def rank (added : Int → Bool) (j : Int) : Nat := (intRange 0 j).countP (fun i => !added i)

theorem rank_succ (added : Int → Bool) {j : Int} (h : 0 ≤ j) :
    rank added (j + 1) = rank added j + (if added j then 0 else 1) := by
  rw [rank, intRange_append h (by omega : j ≤ j + 1), List.countP_append,
    intRange_cons (by omega : j < j + 1), intRange_of_ge le_rfl, rank]
  cases h : added j with
  | false => simp [h]
  | true => simp [h]

theorem rank_mono (added : Int → Bool) {i j : Int} (h : i ≤ j) : rank added i ≤ rank added j := by
  by_cases hi : 0 ≤ i
  · rw [rank, rank, intRange_append hi h, List.countP_append]
    omega
  · rw [rank, intRange_of_ge (by omega : i ≤ 0), List.countP_nil]
    omega

theorem rank_eq_countP (added : Int → Bool) {j : Int} {n : Nat} (h0 : 0 ≤ j) (hn : j ≤ n) :
    rank added j = (intRange 0 n).countP (fun i => !added i && decide (i < j)) := by
  have hbelow : (intRange 0 j).countP (fun i => !added i && decide (i < j)) =
      (intRange 0 j).countP (fun i => !added i) := by
    refine List.countP_congr ?_
    intro i hi
    simp [(mem_intRange.mp hi).2]
  have habove : (intRange j n).countP (fun i => !added i && decide (i < j)) = 0 := by
    rw [List.countP_eq_zero]
    intro i hi
    have := (mem_intRange.mp hi).1
    simp only [Bool.and_eq_true, decide_eq_true_eq]
    omega
  rw [intRange_append h0 hn, List.countP_append, hbelow, habove, Nat.add_zero, rank]

/-- What was removed in front of the positions `lo`, …, `hi` with rank `t`. -/
def slot (r : Int → List α) (added : Int → Bool) (lo hi : Int) (t : Nat) : List α :=
  ((intRange lo (hi + 1)).filter (fun i => rank added i = t)).flatMap r

theorem slot_cons (r : Int → List α) (added : Int → Bool) {lo hi : Int} (h : lo ≤ hi) (t : Nat) :
    slot r added lo hi t = (if t = rank added lo then r lo else []) ++ slot r added (lo + 1) hi t := by
  rw [slot, intRange_cons (by omega : lo < hi + 1), List.filter_cons]
  by_cases ht : rank added lo = t
  · rw [if_pos (by simpa using ht), if_pos ht.symm, List.flatMap_cons, slot]
  · rw [if_neg (by simpa using ht), if_neg (fun h => ht h.symm), List.nil_append, slot]

theorem slot_eq_nil (r : Int → List α) (added : Int → Bool) {lo hi : Int} {t : Nat}
    (h : t < rank added lo) : slot r added lo hi t = [] := by
  rw [slot, List.filter_eq_nil_iff.mpr, List.flatMap_nil]
  intro i hi
  have := rank_mono added (mem_intRange.mp hi).1
  simp only [decide_eq_true_eq]
  omega

theorem restore_eq_weave (r : Int → List α) (added : Int → Bool) {j : Int} (hj : 0 ≤ j)
    (ys : List α) :
    restore r added j ys =
      weave (slot r added j (j + ys.length)) (rank added j) (keep added j ys) := by
  induction ys generalizing j with
  | nil =>
    rw [restore, keep, weave, List.length_nil, Nat.cast_zero, Int.add_zero,
      slot_cons r added le_rfl, if_pos rfl, slot, intRange_of_ge (by omega)]
    simp
  | cons y ys ih =>
    have hend : j + 1 + (ys.length : Int) = j + ((y :: ys).length : Nat) := by
      rw [List.length_cons]
      omega
    have hslot : slot r added j (j + ((y :: ys).length : Nat)) = fun t =>
        (if t = rank added j then r j else []) ++
          slot r added (j + 1) (j + ((y :: ys).length : Nat)) t := by
      funext t
      exact slot_cons r added (by omega) t
    have hrank := rank_succ added hj
    rw [restore, keep, ih (by omega : 0 ≤ j + 1), hend, hslot]
    by_cases ha : added j = true
    · rw [if_pos ha, Nat.add_zero] at hrank
      rw [if_pos ha, if_pos ha, weave_put, hrank]
    · rw [if_neg ha] at hrank
      rw [if_neg ha, if_neg ha, weave, if_pos rfl, hrank,
        slot_eq_nil r added (by omega : rank added j < rank added (j + 1)), List.append_nil]
      refine congrArg (fun l => r j ++ y :: l) (weave_congr ?_ _)
      intro u hu
      rw [if_neg (by omega), List.nil_append]

theorem keep_append (added : Int → Bool) (j : Int) (as bs : List α) :
    keep added j (as ++ bs) = keep added j as ++ keep added (j + as.length) bs := by
  induction as generalizing j with
  | nil => simp [keep]
  | cons a as ih =>
    have hj : j + 1 + (as.length : Int) = j + ((a :: as).length : Nat) := by
      rw [List.length_cons]
      omega
    rw [List.cons_append, keep, keep, ih, hj]
    split
    · rfl
    · rfl

theorem keep_all {added : Int → Bool} {j : Int} (as : List α)
    (h : ∀ i, j ≤ i → i < j + as.length → added i = false) : keep added j as = as := by
  induction as generalizing j with
  | nil => rfl
  | cons a as ih =>
    rw [List.length_cons] at h
    rw [keep, if_neg (by rw [h j le_rfl (by omega)]; simp), ih (fun i h1 h2 => h i (by omega) (by omega))]

theorem keep_none {added : Int → Bool} {j : Int} (as : List α)
    (h : ∀ i, j ≤ i → i < j + as.length → added i = true) : keep added j as = [] := by
  induction as generalizing j with
  | nil => rfl
  | cons a as ih =>
    rw [List.length_cons] at h
    rw [keep, if_pos (h j le_rfl (by omega)), ih (fun i h1 h2 => h i (by omega) (by omega))]

theorem rank_keep (added : Int → Bool) {j : Int} (hj : 0 ≤ j) (ys : List α) :
    rank added (j + ys.length) = rank added j + (keep added j ys).length := by
  induction ys generalizing j with
  | nil => simp [keep]
  | cons y ys ih =>
    rw [List.length_cons, show j + ((ys.length + 1 : Nat) : Int) = j + 1 + ys.length by omega,
      ih (by omega), rank_succ added hj, keep]
    split
    · simp
    · rw [List.length_cons]
      omega

theorem keep_map {β : Type} {added : Int → Bool} {f : β → α} {j : Int} {ys : List α} {zs : List β}
    (hlen : ys.length = zs.length)
    (h : ∀ (k : Nat) (y : α) (z : β), added (j + k) = false → ys[k]? = some y → zs[k]? = some z → y = f z) :
    keep added j ys = (keep added j zs).map f := by
  induction ys generalizing j zs with
  | nil =>
    cases zs with
    | nil => rfl
    | cons z zs => cases hlen
  | cons y ys ih =>
    cases zs with
    | nil => cases hlen
    | cons z zs =>
      have htail := ih (j := j + 1) (by simpa using hlen) (fun k y' z' ha hy hz =>
        h (k + 1) y' z' (by rwa [show j + ((k + 1 : Nat) : Int) = j + 1 + k by omega])
          (by simpa using hy) (by simpa using hz))
      rw [keep, keep, htail]
      split
      · rfl
      · rename_i ha
        rw [List.map_cons, h 0 y z (by simpa using ha) rfl rfl]

theorem keep_eq_filter {added : Int → Bool} {q : α → Bool} {j : Int} {ys : List α}
    (h : ∀ (k : Nat) (y : α), ys[k]? = some y → q y = !added (j + k)) :
    keep added j ys = ys.filter q := by
  induction ys generalizing j with
  | nil => rfl
  | cons y ys ih =>
    have hy : q y = !added j := by simpa using h 0 y rfl
    have htail := ih (j := j + 1) (fun k z hz => by
      rw [h (k + 1) z (by simpa using hz), show j + ((k + 1 : Nat) : Int) = j + 1 + k by omega])
    rw [keep, htail, List.filter_cons, hy]
    cases added j with
    | false => rfl
    | true => rfl

/-! ## Edits -/

/-- The old list of a script whose kept elements are `ks`. -/
def regrow : Int → List (Edit α) → List α → List α
  | _, [], ks => ks
  | p, e :: es, ks =>
      ks.take (e.lo - p).toNat ++ (e.old ++ regrow e.hi es (ks.drop (e.lo - p).toNat))

attribute [local simp] regrow

theorem regrow_length (p : Int) (es : List (Edit α)) (ks : List α) :
    (regrow p es ks).length = ks.length + (es.map fun e => e.old.length).sum := by
  induction es generalizing p ks with
  | nil => simp [regrow]
  | cons e es ih =>
    have hsplit : (ks.take (e.lo - p).toNat).length + (ks.drop (e.lo - p).toNat).length = ks.length := by
      rw [List.length_take, List.length_drop]
      omega
    rw [regrow, List.length_append, List.length_append, ih, List.map_cons, List.sum_cons]
    omega

theorem regrow_perm (p : Int) (es : List (Edit α)) (ks : List α) :
    (regrow p es ks).Perm (ks ++ es.flatMap Edit.old) := by
  induction es generalizing p ks with
  | nil => rw [regrow, List.flatMap_nil, List.append_nil]
  | cons e es ih =>
    have hrest := (ih e.hi (ks.drop (e.lo - p).toNat)).append_left e.old
    have hswap : (e.old ++ (ks.drop (e.lo - p).toNat ++ es.flatMap Edit.old)).Perm
        (ks.drop (e.lo - p).toNat ++ (e.old ++ es.flatMap Edit.old)) := by
      rw [← List.append_assoc, ← List.append_assoc]
      exact List.perm_append_comm.append_right _
    have hall := (hrest.trans hswap).append_left (ks.take (e.lo - p).toNat)
    rwa [← List.append_assoc (ks.take _) (ks.drop _), List.take_append_drop] at hall

/-- `added` marks the positions from `p` on that lie in a range of the script. -/
def Marks (added : Int → Bool) (p : Int) (es : List (Edit α)) : Prop :=
  ∀ j, p ≤ j → (added j = true ↔ ∃ e ∈ es, e.lo ≤ j ∧ j < e.hi)

theorem marks_any (p : Int) (es : List (Edit α)) :
    Marks (fun j => es.any (fun e => decide (e.lo ≤ j ∧ j < e.hi))) p es := by
  intro j _
  simp

theorem Marks.tail {added : Int → Bool} {p : Int} {e : Edit α} {es : List (Edit α)}
    (h : Marks added p (e :: es)) (hp : p ≤ e.hi) : Marks added e.hi es := by
  intro j hj
  rw [h j (by omega)]
  constructor
  · rintro ⟨f, hf, h1, h2⟩
    rcases List.mem_cons.mp hf with rfl | hf
    · omega
    · exact ⟨f, hf, h1, h2⟩
  · rintro ⟨f, hf, h1, h2⟩
    exact ⟨f, List.mem_cons_of_mem _ hf, h1, h2⟩

theorem Marks.gap {added : Int → Bool} {p : Int} {e : Edit α} {es : List (Edit α)}
    (h : Marks added p (e :: es)) (ord : Ordered Edit.lo Edit.hi p (e :: es)) {j : Int}
    (h1 : p ≤ j) (h2 : j < e.lo) : added j = false := by
  rw [Bool.eq_false_iff, ne_eq, h j h1]
  rintro ⟨f, hf, hlo, -⟩
  rcases List.mem_cons.mp hf with rfl | hf
  · omega
  · have := (ord.2.2.lo_ge f hf).1
    have := ord.2.1
    omega

theorem Marks.inside {added : Int → Bool} {p : Int} {e : Edit α} {es : List (Edit α)}
    (h : Marks added p (e :: es)) {j : Int} (h0 : p ≤ j) (h1 : e.lo ≤ j) (h2 : j < e.hi) :
    added j = true := (h j h0).mpr ⟨e, List.mem_cons_self .., h1, h2⟩

theorem Turns.eq_regrow {p : Int} {es : List (Edit α)} {xs ys : List α} {added : Int → Bool}
    (h : Turns p es xs ys) (marks : Marks added p es) : xs = regrow p es (keep added p ys) := by
  induction es generalizing p xs ys with
  | nil =>
    rw [regrow, keep_all, h]
    intro i hi _
    rw [Bool.eq_false_iff, ne_eq, marks i hi]
    simp
  | cons e es ih =>
    have ord := h.ordered.1
    obtain ⟨kept, new, xs', ys', rfl, rfl, hlo, hhi, hrest⟩ := h
    have hkept : keep added p kept = kept :=
      keep_all kept (fun i h1 h2 => marks.gap ord h1 (by omega))
    have hnew : keep added (p + kept.length) new = [] :=
      keep_none new (fun i h1 h2 => marks.inside (by omega) (by omega) (by omega))
    have hpos : p + (kept.length : Int) + new.length = e.hi := by omega
    rw [keep_append, keep_append, hkept, hnew, hpos, List.nil_append, regrow,
      show (e.lo - p).toNat = kept.length by omega, List.take_left' rfl, List.drop_left' rfl,
      ← ih hrest (marks.tail (by omega))]

theorem Turns.unique {p : Int} {es : List (Edit α)} {xs xs' ys : List α} (h : Turns p es xs ys)
    (h' : Turns p es xs' ys) : xs = xs' := by
  rw [h.eq_regrow (marks_any p es), h'.eq_regrow (marks_any p es)]

theorem exists_turns {p : Int} {es : List (Edit α)} {ys : List α}
    (ord : Ordered Edit.lo Edit.hi p es) (hend : lastEnd Edit.hi p es ≤ p + ys.length) :
    ∃ xs, Turns p es xs ys := by
  induction es generalizing p ys with
  | nil => exact ⟨ys, rfl⟩
  | cons e es ih =>
    obtain ⟨h1, h2, h3⟩ := ord
    have hle := h3.le_lastEnd
    rw [lastEnd] at hend
    have hk : (e.lo - p).toNat ≤ ys.length := by omega
    have hm : (e.hi - e.lo).toNat ≤ (ys.drop (e.lo - p).toNat).length := by
      rw [List.length_drop]
      omega
    have hend' : lastEnd Edit.hi e.hi es ≤
        e.hi + ((ys.drop (e.lo - p).toNat).drop (e.hi - e.lo).toNat).length := by
      rw [List.length_drop, List.length_drop]
      omega
    obtain ⟨xs', hxs'⟩ := ih h3 hend'
    refine ⟨_, ys.take (e.lo - p).toNat, (ys.drop (e.lo - p).toNat).take (e.hi - e.lo).toNat, xs', _,
      rfl, ?_, ?_, ?_, hxs'⟩
    · rw [List.take_append_drop, List.take_append_drop]
    · rw [List.length_take, Nat.min_eq_left hk]
      omega
    · rw [List.length_take, Nat.min_eq_left hm]
      omega

/-! ## From edits to positions -/

/-- What the edits at position `j` removed. -/
def lookup (es : List (Edit α)) (j : Int) : List α :=
  (es.filter (fun e => e.lo = j)).flatMap Edit.old

theorem lookup_cons (e : Edit α) (es : List (Edit α)) (j : Int) :
    lookup (e :: es) j = (if e.lo = j then e.old else []) ++ lookup es j := by
  rw [lookup, List.filter_cons]
  by_cases h : e.lo = j
  · rw [if_pos (by simpa using h), if_pos h, List.flatMap_cons, lookup]
  · rw [if_neg (by simpa using h), if_neg h, List.nil_append, lookup]

theorem lookup_before {p j : Int} {es : List (Edit α)} (ord : Ordered Edit.lo Edit.hi p es)
    (h : j < p) : lookup es j = [] := by
  rw [lookup, List.filter_eq_nil_iff.mpr, List.flatMap_nil]
  intro e he
  have := (ord.lo_ge e he).1
  simp only [decide_eq_true_eq]
  omega

/-- The part of `restore` that belongs to the elements of `ys`. -/
def restoreTo (r : Int → List α) (added : Int → Bool) : Int → List α → List α
  | _, [] => []
  | j, y :: ys => r j ++ (if added j then [] else [y]) ++ restoreTo r added (j + 1) ys

attribute [local simp] restoreTo

theorem restore_append (r : Int → List α) (added : Int → Bool) (j : Int) (as bs : List α) :
    restore r added j (as ++ bs) =
      restoreTo r added j as ++ restore r added (j + as.length) bs := by
  induction as generalizing j with
  | nil => simp [restoreTo]
  | cons a as ih =>
    have hj : j + 1 + (as.length : Int) = j + ((a :: as).length : Nat) := by
      rw [List.length_cons]
      omega
    rw [List.cons_append, restore, ih, hj, restoreTo]
    cases added j with
    | true => simp
    | false => simp

theorem restore_congr {r r' : Int → List α} {added : Int → Bool} {j : Int}
    (h : ∀ i, j ≤ i → r i = r' i) (ys : List α) : restore r added j ys = restore r' added j ys := by
  induction ys generalizing j with
  | nil => exact h j le_rfl
  | cons y ys ih => rw [restore, restore, h j le_rfl, ih (fun i hi => h i (by omega))]

theorem restoreTo_congr {r r' : Int → List α} {added : Int → Bool} {j : Int} (ys : List α)
    (h : ∀ i, j ≤ i → i < j + ys.length → r i = r' i) :
    restoreTo r added j ys = restoreTo r' added j ys := by
  induction ys generalizing j with
  | nil => rfl
  | cons y ys ih =>
    rw [List.length_cons] at h
    rw [restoreTo, restoreTo, h j le_rfl (by omega), ih (fun i h1 h2 => h i (by omega) (by omega))]

theorem restoreTo_added {r : Int → List α} {added : Int → Bool} {j : Int} (ys : List α)
    (h : ∀ i, j ≤ i → i < j + ys.length → added i = true) :
    restoreTo r added j ys = (intRange j (j + ys.length)).flatMap r := by
  induction ys generalizing j with
  | nil => rw [intRange_of_ge (by simp)]; rfl
  | cons y ys ih =>
    rw [List.length_cons] at h ⊢
    have hend : j + 1 + (ys.length : Int) = j + ((ys.length + 1 : Nat) : Int) := by omega
    have hcons := intRange_cons (by omega : j < j + ((ys.length + 1 : Nat) : Int))
    rw [restoreTo, if_pos (h j le_rfl (by omega)), ih (fun i h1 h2 => h i (by omega) (by omega)),
      hcons, List.flatMap_cons, List.append_nil, hend]

theorem restoreTo_kept {r : Int → List α} {added : Int → Bool} {j : Int} (ys : List α)
    (h : ∀ i, j ≤ i → i < j + ys.length → added i = false ∧ r i = []) :
    restoreTo r added j ys = ys := by
  induction ys generalizing j with
  | nil => rfl
  | cons y ys ih =>
    rw [List.length_cons] at h
    obtain ⟨ha, hr⟩ := h j le_rfl (by omega)
    rw [restoreTo, ha, hr, ih (fun i h1 h2 => h i (by omega) (by omega))]
    rfl

theorem Turns.eq_restore {p : Int} {es : List (Edit α)} {xs ys : List α} {added : Int → Bool}
    (h : Turns p es xs ys) (marks : Marks added p es) : xs = restore (lookup es) added p ys := by
  induction es generalizing p xs ys with
  | nil =>
    have hkept := @restoreTo_kept α (lookup ([] : List (Edit α))) added p ys (by
      intro i h1 _
      refine ⟨?_, rfl⟩
      rw [Bool.eq_false_iff, ne_eq, marks i h1]
      simp)
    have happend := restore_append (lookup ([] : List (Edit α))) added p ys []
    rw [List.append_nil, hkept, restore] at happend
    rw [happend, show xs = ys from h]
    simp [lookup]
  | cons e es ih =>
    have ord := h.ordered.1
    obtain ⟨kept, new, xs', ys', rfl, rfl, hlo, hhi, hrest⟩ := h
    have hpos : p + (kept.length : Int) + new.length = e.hi := by omega
    have hkept : restoreTo (lookup (e :: es)) added p kept = kept := by
      refine restoreTo_kept kept ?_
      intro i h1 h2
      refine ⟨marks.gap ord h1 (by omega), ?_⟩
      rw [lookup_cons, if_neg (by omega), lookup_before ord.2.2 (by omega), List.nil_append]
    -- the removed elements stand in front of the added range
    have hnew : restoreTo (lookup (e :: es)) added (p + kept.length) new ++
        restore (lookup (e :: es)) added e.hi ys' =
        e.old ++ restore (lookup es) added e.hi ys' := by
      rw [restoreTo_added new (fun i h1 h2 => marks.inside (by omega) (by omega) (by omega)), hpos]
      by_cases hempty : e.hi ≤ e.lo
      · have heq : e.hi = e.lo := le_antisymm hempty ord.2.1
        rw [intRange_of_ge (by omega), List.flatMap_nil, List.nil_append]
        have hput : restore (lookup (e :: es)) added e.hi ys' =
            e.old ++ restore (lookup es) added e.hi ys' := by
          have htail : ∀ i, e.hi + 1 ≤ i → lookup (e :: es) i = lookup es i := by
            intro i hi
            rw [lookup_cons, if_neg (by omega), List.nil_append]
          cases ys' with
          | nil => rw [restore, restore, lookup_cons, if_pos heq.symm]
          | cons y ys' =>
            rw [restore, restore, restore_congr htail, lookup_cons, if_pos heq.symm,
              List.append_assoc]
        exact hput
      · have htail : ∀ i, e.lo + 1 ≤ i → lookup (e :: es) i = lookup es i := by
          intro i hi
          rw [lookup_cons, if_neg (by omega), List.nil_append]
        have hrange : (intRange (e.lo + 1) e.hi).flatMap (lookup (e :: es)) = [] := by
          rw [List.flatMap_eq_nil_iff]
          intro i hi
          obtain ⟨h1, h2⟩ := mem_intRange.mp hi
          rw [htail i h1, lookup_before ord.2.2 h2]
        rw [show p + (kept.length : Int) = e.lo by omega, intRange_cons (by omega), List.flatMap_cons,
          hrange, List.append_nil, lookup_cons, if_pos rfl, lookup_before ord.2.2 (by omega),
          List.append_nil, restore_congr (fun i hi => htail i (by omega))]
    rw [restore_append, restore_append, hkept, hpos, hnew, ← ih hrest (marks.tail (by omega))]

theorem restore_gather {p : Int} {es : List (Edit α)} {ys : List α} {added : Int → Bool}
    {r : Int → List α} (ord : Ordered Edit.lo Edit.hi p es)
    (hend : lastEnd Edit.hi p es ≤ p + ys.length) (marks : Marks added p es)
    (hold : ∀ e ∈ es, e.lo < e.hi ∧ e.old = (intRange e.lo e.hi).flatMap r) :
    restore (fun j => lookup es j ++ (if added j then [] else r j)) added p ys =
      restore r added p ys := by
  induction es generalizing p ys with
  | nil =>
    refine restore_congr ?_ ys
    intro i hi
    have hfalse : ¬ added i = true := by
      rw [marks i hi]
      simp
    simp [lookup, hfalse]
  | cons e es ih =>
    obtain ⟨xs, kept, new, xs', ys', -, rfl, hlo, hhi, -⟩ := exists_turns ord hend
    obtain ⟨hlt, hgroup⟩ := hold e (List.mem_cons_self ..)
    have hpos : p + (kept.length : Int) + new.length = e.hi := by omega
    have hbehind : ∀ i, e.lo + 1 ≤ i → lookup (e :: es) i = lookup es i := by
      intro i hi
      rw [lookup_cons, if_neg (by omega), List.nil_append]
    have hkept : restoreTo (fun j => lookup (e :: es) j ++ (if added j then [] else r j)) added p kept =
        restoreTo r added p kept := by
      refine restoreTo_congr kept ?_
      intro i h1 h2
      rw [lookup_cons, if_neg (by omega), lookup_before ord.2.2 (by omega),
        marks.gap ord h1 (by omega)]
      rfl
    have hin : ∀ i, p + kept.length ≤ i → i < p + kept.length + new.length → added i = true :=
      fun i h1 h2 => marks.inside (by omega) (by omega) (by omega)
    have hnew : restoreTo (fun j => lookup (e :: es) j ++ (if added j then [] else r j)) added
        (p + kept.length) new = restoreTo r added (p + kept.length) new := by
      rw [restoreTo_added new hin, restoreTo_added new hin, hpos,
        show p + (kept.length : Int) = e.lo by omega, ← hgroup, intRange_cons hlt, List.flatMap_cons]
      have hrest : (intRange (e.lo + 1) e.hi).flatMap
          (fun j => lookup (e :: es) j ++ (if added j then [] else r j)) = [] := by
        rw [List.flatMap_eq_nil_iff]
        intro i hi
        obtain ⟨h1, h2⟩ := mem_intRange.mp hi
        rw [hbehind i h1, lookup_before ord.2.2 h2, hin i (by omega) (by omega)]
        rfl
      rw [hrest, List.append_nil, lookup_cons, if_pos rfl, lookup_before ord.2.2 hlt,
        hin e.lo (by omega) (by omega), if_pos rfl, List.append_nil, List.append_nil]
    have hend' : lastEnd Edit.hi e.hi es ≤ e.hi + ys'.length := by
      rw [lastEnd] at hend
      simp only [List.length_append, Nat.cast_add] at hend
      omega
    rw [restore_append, restore_append, restore_append, restore_append, hkept, hnew, hpos,
      ← ih ord.2.2 hend' (marks.tail (by omega)) (fun f hf => hold f (List.mem_cons_of_mem _ hf))]
    refine congrArg (fun l => _ ++ (_ ++ l)) (restore_congr ?_ ys')
    intro i hi
    rw [hbehind i (by omega)]

/-! ## From edits to slots -/

theorem rank_gap {added : Int → Bool} {p q : Int} (hp : 0 ≤ p) (hpq : p ≤ q)
    (h : ∀ j, p ≤ j → j < q → added j = false) : rank added q = rank added p + (q - p).toNat := by
  have hkeep := rank_keep added hp (List.replicate (q - p).toNat ())
  rw [keep_all _ (fun i h1 h2 => h i h1 (by rw [List.length_replicate] at h2; omega)),
    List.length_replicate, show p + ((q - p).toNat : Int) = q by omega] at hkeep
  exact hkeep

theorem rank_filled {added : Int → Bool} {p q : Int} (hp : 0 ≤ p) (hpq : p ≤ q)
    (h : ∀ j, p ≤ j → j < q → added j = true) : rank added q = rank added p := by
  have hkeep := rank_keep added hp (List.replicate (q - p).toNat ())
  rw [keep_none _ (fun i h1 h2 => h i h1 (by rw [List.length_replicate] at h2; omega)),
    List.length_replicate, show p + ((q - p).toNat : Int) = q by omega] at hkeep
  exact hkeep

/-- What the edits with rank `t` removed. -/
def editSlot (added : Int → Bool) (es : List (Edit α)) (t : Nat) : List α :=
  (es.filter (fun e => rank added e.lo = t)).flatMap Edit.old

theorem regrow_eq_weave {added : Int → Bool} {p : Int} {es : List (Edit α)} {ks : List α}
    (hp : 0 ≤ p) (ord : Ordered Edit.lo Edit.hi p es) (marks : Marks added p es)
    (long : rank added (lastEnd Edit.hi p es) ≤ rank added p + ks.length) :
    regrow p es ks = weave (editSlot added es) (rank added p) ks := by
  induction es generalizing p ks with
  | nil =>
    have hskip := weave_skip (g := editSlot added ([] : List (Edit α))) (t := rank added p) ks []
      (fun _ _ _ => rfl)
    rw [List.append_nil] at hskip
    rw [regrow, hskip, weave]
    simp [editSlot]
  | cons e es ih =>
    have hlo : rank added e.lo = rank added p + (e.lo - p).toNat :=
      rank_gap hp ord.1 (fun j h1 h2 => marks.gap ord h1 h2)
    have hhi : rank added e.hi = rank added e.lo :=
      rank_filled (hp.trans ord.1) ord.2.1 (fun j h1 h2 => marks.inside (ord.1.trans h1) h1 h2)
    have hle : rank added e.hi ≤ rank added (lastEnd Edit.hi e.hi es) :=
      rank_mono added ord.2.2.le_lastEnd
    rw [lastEnd] at long
    have hlen : (e.lo - p).toNat ≤ ks.length := by omega
    have hlater : ∀ f ∈ es, rank added e.lo ≤ rank added f.lo := by
      intro f hf
      rw [← hhi]
      exact rank_mono added (ord.2.2.lo_ge f hf).1
    have hskip : weave (editSlot added (e :: es)) (rank added p) ks =
        ks.take (e.lo - p).toNat ++ weave (editSlot added (e :: es)) (rank added e.lo)
          (ks.drop (e.lo - p).toNat) := by
      have h := weave_skip (g := editSlot added (e :: es)) (t := rank added p)
        (ks.take (e.lo - p).toNat) (ks.drop (e.lo - p).toNat) (by
          intro u h1 h2
          rw [List.length_take, Nat.min_eq_left hlen] at h2
          rw [editSlot, List.filter_eq_nil_iff.mpr, List.flatMap_nil]
          intro f hf
          rw [decide_eq_true_eq]
          rcases List.mem_cons.mp hf with rfl | hf
          · omega
          · have := hlater f hf
            omega)
      rwa [List.take_append_drop, List.length_take, Nat.min_eq_left hlen, ← hlo] at h
    have hput : editSlot added (e :: es) = fun u =>
        (if u = rank added e.lo then e.old else []) ++ editSlot added es u := by
      funext u
      rw [editSlot, List.filter_cons]
      by_cases hu : rank added e.lo = u
      · rw [if_pos (by simpa using hu), if_pos hu.symm, List.flatMap_cons, editSlot]
      · rw [if_neg (by simpa using hu), if_neg (fun h => hu h.symm), List.nil_append, editSlot]
    have hhi0 : 0 ≤ e.hi := hp.trans (ord.1.trans ord.2.1)
    have hlong : rank added (lastEnd Edit.hi e.hi es) ≤
        rank added e.hi + (ks.drop (e.lo - p).toNat).length := by
      rw [List.length_drop]
      omega
    have hrest := ih hhi0 ord.2.2 (marks.tail (ord.1.trans ord.2.1)) hlong
    rw [regrow, hskip, hput, weave_put, hrest, hhi]

end Weave
end OpenJfx.Lib
