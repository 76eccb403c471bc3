import OpenJfx.Lib.RangeList

/-! # Edit scripts between two lists

An `Edit` says that the elements `old` of a list were replaced by the elements
which the new list holds at `[lo, hi)`.  A script is read from left to right:
`Turns p es xs ys` says that the edits `es` turn `xs` into `ys`, where `ys`
starts at position `p` of the new list.  `Covers p es xs ys q` is the same for a
script whose last edit ends `ys`, at position `q`; it is used to cut a script in
two.  `replay` executes a script against the new list.

The local lemmas say how a script is changed when one more element is removed
from the new list, or some elements are inserted into it. -/
set_option autoImplicit false
namespace OpenJfx.Lib

structure Edit (α : Type) where
  lo : Int
  hi : Int
  old : List α
deriving DecidableEq, Repr

namespace Edit
variable {α : Type}

def shift (d : Int) (e : Edit α) : Edit α := { e with lo := e.lo + d, hi := e.hi + d }

@[simp] theorem shift_lo (d : Int) (e : Edit α) : (e.shift d).lo = e.lo + d := rfl
@[simp] theorem shift_hi (d : Int) (e : Edit α) : (e.shift d).hi = e.hi + d := rfl
@[simp] theorem shift_old (d : Int) (e : Edit α) : (e.shift d).old = e.old := rfl

end Edit

section Script
variable {α : Type}

def Turns : Int → List (Edit α) → List α → List α → Prop
  | _, [], xs, ys => xs = ys
  | p, e :: es, xs, ys => ∃ kept added xs' ys',
      xs = kept ++ (e.old ++ xs') ∧ ys = kept ++ (added ++ ys') ∧
      e.lo = p + kept.length ∧ e.hi = e.lo + added.length ∧ Turns e.hi es xs' ys'

def Covers : Int → List (Edit α) → List α → List α → Int → Prop
  | p, [], xs, ys, q => xs = [] ∧ ys = [] ∧ q = p
  | p, e :: es, xs, ys, q => ∃ kept added xs' ys',
      xs = kept ++ (e.old ++ xs') ∧ ys = kept ++ (added ++ ys') ∧
      e.lo = p + kept.length ∧ e.hi = e.lo + added.length ∧ Covers e.hi es xs' ys' q

theorem Covers.end_eq {p q : Int} {es : List (Edit α)} {xs ys : List α}
    (h : Covers p es xs ys q) : q = p + ys.length ∧ q = lastEnd Edit.hi p es := by
  induction es generalizing p xs ys with
  | nil =>
    obtain ⟨-, rfl, rfl⟩ := h
    simp [lastEnd]
  | cons e es ih =>
    obtain ⟨kept, added, xs', ys', rfl, rfl, hlo, hhi, hrest⟩ := h
    obtain ⟨h1, h2⟩ := ih hrest
    refine ⟨?_, h2⟩
    simp only [List.length_append, Nat.cast_add]
    omega

theorem Turns.ordered {p : Int} {es : List (Edit α)} {xs ys : List α} (h : Turns p es xs ys) :
    Ordered Edit.lo Edit.hi p es ∧ lastEnd Edit.hi p es ≤ p + ys.length := by
  induction es generalizing p xs ys with
  | nil => exact ⟨trivial, by simp [lastEnd]⟩
  | cons e es ih =>
    obtain ⟨kept, added, xs', ys', rfl, rfl, hlo, hhi, hrest⟩ := h
    obtain ⟨h1, h2⟩ := ih hrest
    refine ⟨⟨by omega, by omega, h1⟩, ?_⟩
    simp only [lastEnd, List.length_append, Nat.cast_add]
    omega

theorem turns_append {p : Int} {es fs : List (Edit α)} {xs ys : List α} :
    Turns p (es ++ fs) xs ys ↔ ∃ xs₁ xs₂ ys₁ ys₂ q, xs = xs₁ ++ xs₂ ∧ ys = ys₁ ++ ys₂ ∧
      Covers p es xs₁ ys₁ q ∧ Turns q fs xs₂ ys₂ := by
  induction es generalizing p xs ys with
  | nil =>
    constructor
    · intro h
      exact ⟨[], xs, [], ys, p, rfl, rfl, ⟨rfl, rfl, rfl⟩, h⟩
    · rintro ⟨xs₁, xs₂, ys₁, ys₂, q, rfl, rfl, ⟨rfl, rfl, rfl⟩, h⟩
      exact h
  | cons e es ih =>
    constructor
    · rintro ⟨kept, added, xs', ys', rfl, rfl, hlo, hhi, hrest⟩
      obtain ⟨xs₁, xs₂, ys₁, ys₂, q, rfl, rfl, hcov, hturn⟩ := ih.mp hrest
      refine ⟨kept ++ (e.old ++ xs₁), xs₂, kept ++ (added ++ ys₁), ys₂, q, by simp, by simp,
        ⟨kept, added, xs₁, ys₁, rfl, rfl, hlo, hhi, hcov⟩, hturn⟩
    · rintro ⟨xs₁, xs₂, ys₁, ys₂, q, rfl, rfl, hcov, hturn⟩
      obtain ⟨kept, added, xs', ys', rfl, rfl, hlo, hhi, hrest⟩ := hcov
      refine ⟨kept, added, xs' ++ xs₂, ys' ++ ys₂, by simp, by simp, hlo, hhi, ?_⟩
      exact ih.mpr ⟨xs', xs₂, ys', ys₂, q, rfl, rfl, hrest, hturn⟩

theorem turns_shift {p : Int} {es : List (Edit α)} {xs ys : List α} (d : Int)
    (h : Turns p es xs ys) : Turns (p + d) (es.map (Edit.shift d)) xs ys := by
  induction es generalizing p xs ys with
  | nil => exact h
  | cons e es ih =>
    obtain ⟨kept, added, xs', ys', rfl, rfl, hlo, hhi, hrest⟩ := h
    refine ⟨kept, added, xs', ys', rfl, rfl, ?_, ?_, ih hrest⟩
    · simp only [Edit.shift_lo]
      omega
    · simp only [Edit.shift_lo, Edit.shift_hi]
      omega

theorem turns_keep {p : Int} {es : List (Edit α)} {xs ys : List α} (kept : List α)
    (h : Turns (p + kept.length) es xs ys) : Turns p es (kept ++ xs) (kept ++ ys) := by
  cases es with
  | nil =>
    cases h
    rfl
  | cons e es =>
    obtain ⟨kept', added, xs', ys', rfl, rfl, hlo, hhi, hrest⟩ := h
    refine ⟨kept ++ kept', added, xs', ys', by simp, by simp, ?_, hhi, hrest⟩
    rw [List.length_append]
    omega

theorem turns_unkeep {p : Int} {es : List (Edit α)} {xs kept ys : List α}
    (h : Turns p es xs (kept ++ ys)) (before : ∀ e ∈ es.head?, p + kept.length ≤ e.lo) :
    ∃ xs', xs = kept ++ xs' ∧ Turns (p + kept.length) es xs' ys := by
  cases es with
  | nil => exact ⟨ys, h, rfl⟩
  | cons e es =>
    obtain ⟨kept', added, xs', ys', rfl, hys, hlo, hhi, hrest⟩ := h
    have hle : p + kept.length ≤ e.lo := before e (by simp)
    obtain ⟨rest, rfl, rfl⟩ : ∃ rest, kept' = kept ++ rest ∧ ys = rest ++ (added ++ ys') := by
      rcases List.append_eq_append_iff.mp hys with ⟨m, h1, h2⟩ | ⟨m, h1, h2⟩
      · exact ⟨m, h1, h2⟩
      · have hm : m = [] := by
          have hlen : kept.length = kept'.length + m.length := by rw [h1, List.length_append]
          exact List.length_eq_zero_iff.mp (by omega)
        subst hm
        refine ⟨[], by simpa using h1.symm, by simpa using h2.symm⟩
    refine ⟨rest ++ (e.old ++ xs'), by simp, rest, added, xs', ys', rfl, rfl, ?_, hhi, hrest⟩
    rw [hlo, List.length_append]
    omega

/-- Cutting a script at a position of the new list: `pre` are edits that end
at or before it. -/
theorem turns_cut {p : Int} {pre post : List (Edit α)} {xs front back : List α}
    (h : Turns p (pre ++ post) xs (front ++ back))
    (ends : ∀ e ∈ pre, e.hi ≤ p + front.length) :
    ∃ xs₁ xs₂ ys₁ mid q, xs = xs₁ ++ xs₂ ∧ front = ys₁ ++ mid ∧ q = p + ys₁.length ∧
      Covers p pre xs₁ ys₁ q ∧ Turns q post xs₂ (mid ++ back) := by
  obtain ⟨xs₁, xs₂, ys₁, ys₂, q, rfl, hys, hcov, hturn⟩ := turns_append.mp h
  obtain ⟨hq, hlast⟩ := hcov.end_eq
  have hle : q ≤ p + front.length := by
    rcases @lastEnd_mem _ Edit.hi p pre with ⟨h1, -⟩ | ⟨e, he, h1⟩
    · omega
    · have := ends e he
      omega
  rcases List.append_eq_append_iff.mp hys with ⟨m, rfl, rfl⟩ | ⟨m, rfl, rfl⟩
  · have hm : m = [] := List.length_eq_zero_iff.mp (by rw [List.length_append] at hq; omega)
    subst hm
    exact ⟨xs₁, xs₂, front, [], q, rfl, by simp, by simpa using hq, by simpa using hcov,
      by simpa using hturn⟩
  · exact ⟨xs₁, xs₂, ys₁, m, q, rfl, rfl, hq, hcov, hturn⟩

theorem turns_glue {p q : Int} {pre post : List (Edit α)} {xs₁ xs₂ ys₁ ys₂ : List α}
    (hcov : Covers p pre xs₁ ys₁ q) (hturn : Turns q post xs₂ ys₂) :
    Turns p (pre ++ post) (xs₁ ++ xs₂) (ys₁ ++ ys₂) :=
  turns_append.mpr ⟨xs₁, xs₂, ys₁, ys₂, q, rfl, rfl, hcov, hturn⟩

/-! ## Local changes of a script -/

theorem turns_inside {p : Int} {e : Edit α} {es : List (Edit α)} {xs front back : List α}
    (h : Turns p (e :: es) xs (front ++ back)) (left : e.lo ≤ p + front.length)
    (right : p + front.length ≤ e.hi) :
    ∃ kept a b xs' ys', xs = kept ++ (e.old ++ xs') ∧ front = kept ++ a ∧ back = b ++ ys' ∧
      e.lo = p + kept.length ∧ e.hi = e.lo + a.length + b.length ∧ Turns e.hi es xs' ys' := by
  obtain ⟨kept, added, xs', ys', rfl, hys, hlo, hhi, hrest⟩ := h
  obtain ⟨a, rfl, hab⟩ : ∃ a, front = kept ++ a ∧ added ++ ys' = a ++ back := by
    rcases List.append_eq_append_iff.mp hys with ⟨m, h1, h2⟩ | ⟨m, h1, h2⟩
    · have hm : m = [] := by
        have hlen : kept.length = front.length + m.length := by rw [h1, List.length_append]
        exact List.length_eq_zero_iff.mp (by omega)
      subst hm
      exact ⟨[], by simpa using h1.symm, by simpa using h2.symm⟩
    · exact ⟨m, h1, h2⟩
  obtain ⟨b, rfl, rfl⟩ : ∃ b, added = a ++ b ∧ back = b ++ ys' := by
    rcases List.append_eq_append_iff.mp hab with ⟨m, h1, h2⟩ | ⟨m, h1, h2⟩
    · have hm : m = [] := by
        have hlen : a.length = added.length + m.length := by rw [h1, List.length_append]
        rw [List.length_append] at right
        exact List.length_eq_zero_iff.mp (by omega)
      subst hm
      exact ⟨[], by simpa using h1.symm, by simpa using h2.symm⟩
    · exact ⟨m, h1, h2⟩
  refine ⟨kept, a, b, xs', ys', rfl, rfl, rfl, hlo, ?_, hrest⟩
  rw [hhi, List.length_append]
  omega

theorem turns_remove_after {p : Int} {e : Edit α} {es : List (Edit α)} {xs front back : List α}
    {x : α} (h : Turns p (e :: es) xs (front ++ x :: back)) (at_end : p + front.length = e.hi)
    (low : e.lo ≤ e.hi) (next : ∀ f ∈ es.head?, e.hi < f.lo) :
    Turns p ({ e with old := e.old ++ [x] } :: es.map (Edit.shift (-1))) xs (front ++ back) := by
  obtain ⟨kept, a, b, xs', ys', rfl, rfl, hb, hlo, hhi, hrest⟩ :=
    turns_inside h (by omega) (by omega)
  have hbnil : b = [] := by
    rw [List.length_append] at at_end
    exact List.length_eq_zero_iff.mp (by omega)
  subst hbnil
  rw [List.nil_append] at hb
  subst hb
  have hrest' : Turns e.hi es xs' ([x] ++ back) := hrest
  obtain ⟨xs'', rfl, hturn⟩ := turns_unkeep hrest' (by simpa [Int.add_one_le_iff] using next)
  refine ⟨kept, a, xs'', back, by simp, by simp, hlo, by simpa using hhi, ?_⟩
  simpa using turns_shift (-1) hturn

theorem turns_remove_before {p : Int} {e : Edit α} {es : List (Edit α)} {xs front back : List α}
    {x : α} (h : Turns p (e :: es) xs (front ++ x :: back))
    (before : e.lo = p + front.length + 1) :
    Turns p ({ (e.shift (-1)) with old := x :: e.old } :: es.map (Edit.shift (-1))) xs
      (front ++ back) := by
  have h' : Turns p (e :: es) xs ((front ++ [x]) ++ back) := by simpa using h
  obtain ⟨xs', rfl, hturn⟩ := turns_unkeep h' (by simp [before]; omega)
  obtain ⟨kept, added, xs'', ys', rfl, rfl, hlo, hhi, hrest⟩ := hturn
  have hkept : kept = [] := by
    rw [List.length_append] at hlo
    simp only [List.length_cons, List.length_nil] at hlo
    exact List.length_eq_zero_iff.mp (by omega)
  subst hkept
  refine ⟨front, added, xs'', ys', by simp, by simp, ?_, ?_, turns_shift (-1) hrest⟩
  · simp only [Edit.shift_lo]
    omega
  · simp only [Edit.shift_lo, Edit.shift_hi]
    omega

theorem turns_remove_kept {p : Int} {es : List (Edit α)} {xs front back : List α}
    {x : α} (h : Turns p es xs (front ++ x :: back))
    (before : ∀ e ∈ es.head?, p + front.length < e.lo) :
    Turns p (⟨p + front.length, p + front.length, [x]⟩ :: es.map (Edit.shift (-1))) xs
      (front ++ back) := by
  have h' : Turns p es xs ((front ++ [x]) ++ back) := by simpa using h
  obtain ⟨xs', rfl, hturn⟩ := turns_unkeep h' (by
    intro e he
    have := before e he
    simp only [List.length_append, List.length_cons, List.length_nil]
    omega)
  refine ⟨front, [], xs', back, by simp, by simp, rfl, by simp, ?_⟩
  have := turns_shift (-1) hturn
  simpa [Int.add_assoc] using this

theorem turns_remove_added {p : Int} {e : Edit α} {es : List (Edit α)} {xs front back : List α}
    {x : α} (h : Turns p (e :: es) xs (front ++ x :: back)) (left : e.lo ≤ p + front.length)
    (right : p + front.length < e.hi) :
    Turns p ({ e with hi := e.hi - 1 } :: es.map (Edit.shift (-1))) xs (front ++ back) := by
  obtain ⟨kept, a, b, xs', ys', rfl, rfl, hb, hlo, hhi, hrest⟩ :=
    turns_inside h left (by omega)
  obtain ⟨b', rfl, rfl⟩ : ∃ b', b = x :: b' ∧ back = b' ++ ys' := by
    cases b with
    | nil =>
      rw [List.length_append] at right
      simp only [List.length_nil] at hhi
      omega
    | cons y b' =>
      obtain ⟨rfl, rfl⟩ := List.cons.inj hb
      exact ⟨b', rfl, rfl⟩
  refine ⟨kept, a ++ b', xs', ys', rfl, by simp, hlo, ?_, ?_⟩
  · simp only [List.length_append, List.length_cons] at hhi ⊢
    omega
  · simpa [Int.sub_eq_add_neg] using turns_shift (-1) hrest

theorem turns_drop_trivial {p : Int} {e : Edit α} {es : List (Edit α)} {xs ys : List α}
    (h : Turns p (e :: es) xs ys) (empty : e.lo = e.hi) (nothing : e.old = []) :
    Turns p es xs ys := by
  obtain ⟨kept, added, xs', ys', rfl, rfl, hlo, hhi, hrest⟩ := h
  have hadded : added = [] := List.length_eq_zero_iff.mp (by omega)
  subst hadded
  rw [nothing, List.nil_append, List.nil_append]
  apply turns_keep
  rwa [← hlo, empty]

theorem turns_add_inside {p : Int} {e : Edit α} {es : List (Edit α)} {xs front back : List α}
    (new : List α) (h : Turns p (e :: es) xs (front ++ back)) (left : e.lo ≤ p + front.length)
    (right : p + front.length ≤ e.hi) :
    Turns p ({ e with hi := e.hi + new.length } :: es.map (Edit.shift new.length)) xs
      (front ++ (new ++ back)) := by
  obtain ⟨kept, a, b, xs', ys', rfl, rfl, rfl, hlo, hhi, hrest⟩ := turns_inside h left right
  refine ⟨kept, a ++ (new ++ b), xs', ys', rfl, by simp, hlo, ?_, turns_shift new.length hrest⟩
  simp only [List.length_append, Nat.cast_add]
  omega

theorem turns_add_kept {p : Int} {es : List (Edit α)} {xs front back : List α}
    (new : List α) (h : Turns p es xs (front ++ back))
    (before : ∀ e ∈ es.head?, p + front.length ≤ e.lo) :
    Turns p (⟨p + front.length, p + front.length + new.length, []⟩ ::
      es.map (Edit.shift new.length)) xs (front ++ (new ++ back)) := by
  obtain ⟨xs', rfl, hturn⟩ := turns_unkeep h before
  exact ⟨front, new, xs', back, by simp, rfl, rfl, rfl, turns_shift new.length hturn⟩

theorem turns_join {p : Int} {e f : Edit α} {es : List (Edit α)} {xs ys : List α}
    (h : Turns p (e :: f :: es) xs ys) (touch : e.hi = f.lo) :
    Turns p (⟨e.lo, f.hi, e.old ++ f.old⟩ :: es) xs ys := by
  obtain ⟨kept, added, xs', ys', rfl, rfl, hlo, hhi, kept', added', xs'', ys'', rfl, rfl, hlo',
    hhi', hrest⟩ := h
  have hkept : kept' = [] := List.length_eq_zero_iff.mp (by omega)
  subst hkept
  refine ⟨kept, added ++ added', xs'', ys'', by simp, by simp, hlo, ?_, hrest⟩
  rw [List.length_append]
  dsimp only
  omega

/-! ## Executing a script -/

/-- One edit: delete `old`, which must be what stands at `lo`, and insert the
elements `[lo, hi)` of the new list. -/
def Edit.apply (final : List α) [DecidableEq α] (e : Edit α) (cur : List α) : Option (List α) :=
  if 0 ≤ e.lo ∧ e.lo ≤ e.hi ∧ e.hi ≤ final.length ∧ e.lo ≤ cur.length ∧
      (cur.drop e.lo.toNat).take e.old.length = e.old then
    some (cur.take e.lo.toNat ++ ((final.take e.hi.toNat).drop e.lo.toNat ++
      cur.drop (e.lo.toNat + e.old.length)))
  else none

def replay (final : List α) [DecidableEq α] : List (Edit α) → List α → Option (List α)
  | [], cur => some cur
  | e :: es, cur => (e.apply final cur).bind (replay final es)

variable [DecidableEq α]

theorem Edit.apply_eq_some {final cur next : List α} {e : Edit α}
    (h : e.apply final cur = some next) :
    ∃ l r : Nat, e.lo = l ∧ e.hi = r ∧ l ≤ r ∧ r ≤ final.length ∧
      ∃ rest, cur = cur.take l ++ (e.old ++ rest) ∧ l ≤ cur.length ∧
        next = cur.take l ++ ((final.take r).drop l ++ rest) := by
  rw [Edit.apply] at h
  split at h
  · rename_i hc
    obtain ⟨h0, hle, hfin, hcur, hold⟩ := hc
    refine ⟨e.lo.toNat, e.hi.toNat, by omega, by omega, by omega, by omega,
      cur.drop (e.lo.toNat + e.old.length), ?_, by omega, (Option.some.inj h).symm⟩
    conv_lhs => rw [← List.take_append_drop e.lo.toNat cur,
      ← List.take_append_drop e.old.length (cur.drop e.lo.toNat), hold, List.drop_drop]
  · cases h

theorem Edit.apply_parts (final front rest : List α) (old : List α) (r : Nat)
    (hle : front.length ≤ r) (hr : r ≤ final.length) :
    (Edit.mk front.length r old).apply final (front ++ (old ++ rest)) =
      some (front ++ ((final.take r).drop front.length ++ rest)) := by
  rw [Edit.apply, if_pos]
  · simp only [Int.toNat_natCast, List.take_left' rfl]
    rw [← List.append_assoc front old, ← List.length_append, List.drop_left' rfl]
  · refine ⟨by positivity, by simpa using hle, by simpa using hr, by simp; omega, ?_⟩
    simp only [Int.toNat_natCast, List.drop_left' rfl, List.take_left' rfl]

theorem replay_front {final : List α} {es : List (Edit α)} {p : Nat} {cur result : List α}
    (ordered : Ordered Edit.lo Edit.hi p es) (fits : p ≤ cur.length)
    (h : replay final es cur = some result) : result.take p = cur.take p := by
  induction es generalizing p cur with
  | nil =>
    cases h
    rfl
  | cons e es ih =>
    rw [replay] at h
    obtain ⟨next, happly, hreplay⟩ := Option.bind_eq_some_iff.mp h
    obtain ⟨l, r, hl, hr, hlr, hfin, rest, hcur, hlen, rfl⟩ := Edit.apply_eq_some happly
    obtain ⟨hp, -, hord⟩ := ordered
    rw [hr] at hord
    have htake : (cur.take l).length = l := by simp [hlen]
    have hadd : ((final.take r).drop l).length = r - l := by simp [hfin]
    have hnext := ih hord (by simp only [List.length_append, htake, hadd]; omega) hreplay
    have hpl : p ≤ l := by omega
    calc result.take p = (result.take r).take p := by rw [List.take_take, Nat.min_eq_left (by omega)]
      _ = cur.take p := by
        rw [hnext, List.take_take, Nat.min_eq_left (by omega), List.take_append_of_le_length
          (by omega), List.take_take, Nat.min_eq_left hpl]

theorem replay_iff_turns {final : List α} {es : List (Edit α)} {p : Nat} {cur : List α}
    (same : cur.take p = final.take p) (fits : p ≤ cur.length) (fits' : p ≤ final.length) :
    Ordered Edit.lo Edit.hi p es ∧ replay final es cur = some final ↔
      Turns p es (cur.drop p) (final.drop p) := by
  induction es generalizing p cur with
  | nil =>
    simp only [Ordered, true_and, replay, Option.some.injEq, Turns]
    constructor
    · rintro rfl
      rfl
    · intro h
      rw [← List.take_append_drop p cur, ← List.take_append_drop p final, same, h]
  | cons e es ih =>
    constructor
    · rintro ⟨⟨hp, -, hord⟩, h⟩
      rw [replay] at h
      obtain ⟨next, happly, hreplay⟩ := Option.bind_eq_some_iff.mp h
      obtain ⟨l, r, hl, hr, hlr, hfin, rest, hcur, hlen, rfl⟩ := Edit.apply_eq_some happly
      have htake : (cur.take l).length = l := by simp [hlen]
      have hadd : ((final.take r).drop l).length = r - l := by simp [hfin]
      rw [hr] at hord
      have hfront := replay_front hord (by simp only [List.length_append, htake, hadd]; omega)
        hreplay
      have hnext : (cur.take l ++ ((final.take r).drop l ++ rest)).take r =
          cur.take l ++ (final.take r).drop l := by
        rw [← List.append_assoc, List.take_left']
        simp only [List.length_append, htake, hadd]
        omega
      have hdrop : (cur.take l ++ ((final.take r).drop l ++ rest)).drop r = rest := by
        rw [← List.append_assoc, List.drop_left']
        simp only [List.length_append, htake, hadd]
        omega
      have hturn := (ih hfront.symm (by simp only [List.length_append, htake, hadd]; omega)
        hfin).mp ⟨hord, hreplay⟩
      rw [hdrop] at hturn
      have hlfin : final.take l = cur.take l := by
        have := congrArg (List.take l) (hfront.trans hnext)
        rwa [List.take_take, Nat.min_eq_left hlr, List.take_append_of_le_length (by omega),
          List.take_take, Nat.min_self] at this
      have hpl : p ≤ l := by omega
      refine ⟨(cur.take l).drop p, (final.take r).drop l, rest, final.drop r, ?_, ?_, ?_, ?_, ?_⟩
      · rw [← List.drop_append_of_le_length (by omega), ← hcur]
      · rw [← hlfin, ← List.drop_append_of_le_length (by simp; omega), ← List.append_assoc]
        conv_lhs => rw [← List.take_append_drop r final, ← List.take_append_drop l (final.take r),
          List.take_take, Nat.min_eq_left hlr]
      · simp only [List.length_drop, htake, hl]
        omega
      · rw [hadd, hl, hr]
        omega
      · rw [hr]
        exact hturn
    · rintro ⟨kept, added, xs', ys', hxs, hys, hlo, hhi, hrest⟩
      have hl : (cur.take p ++ kept).length = p + kept.length := by
        rw [List.length_append, List.length_take, Nat.min_eq_left fits]
      have hcur : cur = (cur.take p ++ kept) ++ (e.old ++ xs') := by
        conv_lhs => rw [← List.take_append_drop p cur, hxs]
        simp
      have hfinal : final = (cur.take p ++ kept) ++ added ++ ys' := by
        conv_lhs => rw [← List.take_append_drop p final, hys, ← same]
        simp
      have hr : p + kept.length + added.length ≤ final.length := by
        have := congrArg List.length hfinal
        rw [List.length_append, List.length_append, hl] at this
        omega
      have hadd : (final.take (p + kept.length + added.length)).drop (p + kept.length) = added := by
        rw [hfinal, List.take_left' (by rw [List.length_append, hl]), List.drop_left' hl]
      have he : e = ⟨(cur.take p ++ kept).length, (p + kept.length + added.length : Nat), e.old⟩ := by
        cases e
        simp only [Edit.mk.injEq, hl, and_true] at hlo hhi ⊢
        omega
      have happly : e.apply final cur = some ((cur.take p ++ kept) ++ (added ++ xs')) := by
        have := Edit.apply_parts final (cur.take p ++ kept) xs' e.old
          (p + kept.length + added.length) (by omega) hr
        rw [← he, ← hcur, hl, hadd] at this
        exact this
      have hdrop : ((cur.take p ++ kept) ++ (added ++ xs')).drop (p + kept.length + added.length) = xs' := by
        rw [← List.append_assoc, List.drop_left' (by rw [List.length_append, hl])]
      have hdropf : final.drop (p + kept.length + added.length) = ys' := by
        rw [hfinal, List.drop_left' (by rw [List.length_append, hl])]
      have hhi' : e.hi = ((p + kept.length + added.length : Nat) : Int) := by omega
      rw [hhi'] at hrest
      have hsame : ((cur.take p ++ kept) ++ (added ++ xs')).take (p + kept.length + added.length) =
          final.take (p + kept.length + added.length) := by
        rw [← List.append_assoc, List.take_left' (by rw [List.length_append, hl]), hfinal,
          List.take_left' (by rw [List.length_append, hl])]
      have hfits : p + kept.length + added.length ≤
          ((cur.take p ++ kept) ++ (added ++ xs')).length := by
        rw [List.length_append, hl, List.length_append]
        omega
      have := (ih hsame hfits hr).mpr (by rw [hdrop, hdropf]; exact hrest)
      refine ⟨⟨by omega, by omega, by rw [hhi']; exact this.1⟩, ?_⟩
      rw [replay, happly, Option.bind_some]
      exact this.2

theorem replay_turns_zero {final cur : List α} {es : List (Edit α)} :
    Ordered Edit.lo Edit.hi 0 es ∧ replay final es cur = some final ↔ Turns 0 es cur final := by
  have h : cur.take 0 = final.take 0 := rfl
  simpa using replay_iff_turns (p := 0) h (Nat.zero_le _) (Nat.zero_le _)

end Script

section Reading
variable {α β : Type}

theorem Turns.injective {p : Int} {es : List (Edit α)} {xs xs' ys : List α} (h : Turns p es xs ys)
    (h' : Turns p es xs' ys) : xs = xs' := by
  induction es generalizing p xs xs' ys with
  | nil =>
    have hxs : xs = ys := h
    have hxs' : xs' = ys := h'
    rw [hxs, hxs']
  | cons e es ih =>
    obtain ⟨kept, added, rest, ys₁, rfl, rfl, hlo, hhi, hrest⟩ := h
    obtain ⟨kept', added', rest', ys₁', rfl, hys, hlo', hhi', hrest'⟩ := h'
    obtain ⟨rfl, htail⟩ := List.append_inj hys (by omega)
    obtain ⟨rfl, rfl⟩ := List.append_inj htail (by omega)
    rw [ih hrest hrest']

/-- A script whose removed elements were read from somewhere else: it turns some
list into the new one, and that list is the old one exactly when every removal
was read right. -/
theorem Turns.reread {p : Int} {es : List (Edit α)} {xs ys : List α} (f : α → β)
    (read : Edit α → List β) (length_read : ∀ e, (read e).length = e.old.length) (h : Turns p es xs ys) :
    ∃ xs', Turns p (es.map fun e => ⟨e.lo, e.hi, read e⟩) xs' (ys.map f) ∧
      (xs' = xs.map f ↔ ∀ e ∈ es, read e = e.old.map f) := by
  induction es generalizing p xs ys with
  | nil =>
    have hxs : xs = ys := h
    exact ⟨xs.map f, by rw [hxs]; rfl, by simp⟩
  | cons e es ih =>
    obtain ⟨kept, added, rest, ys', rfl, rfl, hlo, hhi, hrest⟩ := h
    obtain ⟨rest', hturns, hiff⟩ := ih hrest
    refine ⟨kept.map f ++ (read e ++ rest'), ?_, ?_⟩
    · exact ⟨kept.map f, added.map f, rest', ys'.map f, rfl, by simp, by simpa using hlo,
        by simpa using hhi, hturns⟩
    · rw [List.map_append, List.append_cancel_left_eq, List.map_append, List.forall_mem_cons, ← hiff]
      constructor
      · intro heq
        exact List.append_inj heq (by rw [length_read, List.length_map])
      · rintro ⟨hread, hrest'⟩
        rw [hread, hrest']

theorem Turns.parts {es : List (Edit α)} {xs front back : List α} (h : Turns front.length es xs back) :
    ∃ kept, xs.Perm (kept ++ es.flatMap Edit.old) ∧
      back.Perm (kept ++ es.flatMap fun e => ((front ++ back).drop e.lo.toNat).take (e.hi - e.lo).toNat) := by
  induction es generalizing xs front back with
  | nil =>
    have hxs : xs = back := h
    exact ⟨back, by simp [hxs], by simp⟩
  | cons e es ih =>
    obtain ⟨kept, added, rest, ys, rfl, rfl, hlo, hhi, hrest⟩ := h
    have hstart : e.lo.toNat = (front ++ kept).length := by
      rw [List.length_append]
      omega
    have hlen : (e.hi - e.lo).toNat = added.length := by omega
    have hend : e.hi = (front ++ (kept ++ added)).length := by
      simp only [List.length_append, Nat.cast_add]
      omega
    have hread : ((front ++ (kept ++ (added ++ ys))).drop e.lo.toNat).take (e.hi - e.lo).toNat = added := by
      rw [hstart, hlen, ← List.append_assoc, List.drop_left' rfl, List.take_left' rfl]
    rw [hend] at hrest
    obtain ⟨kept', hold, hnew⟩ := ih hrest
    simp only [List.append_assoc] at hnew
    refine ⟨kept ++ kept', ?_, ?_⟩
    · rw [List.flatMap_cons, List.append_assoc]
      refine List.Perm.append_left kept ?_
      exact (List.Perm.append_left e.old hold).trans (List.perm_append_comm_assoc ..)
    · rw [List.flatMap_cons, hread, List.append_assoc]
      refine List.Perm.append_left kept ?_
      exact (List.Perm.append_left added hnew).trans (List.perm_append_comm_assoc ..)

end Reading
end OpenJfx.Lib
