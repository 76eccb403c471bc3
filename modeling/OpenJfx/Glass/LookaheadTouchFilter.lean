import OpenJfx.Glass.AssignPointIDTouchFilter
import OpenJfx.Lib.JavaSort
import Mathlib.Data.List.SplitBy

/-! # `LookaheadTouchFilter`

The state that is held changes places with the argument: what `filter` returns beside the
filter is the argument after the call.  Of a run of states with the same points only the first and
the last one get through. -/
set_option autoImplicit false
namespace OpenJfx.Glass
open OpenJfx.Lib

structure TouchState (W : Type) where
  points : List Point
  primaryID : Int
  window : Option W

section Touch
variable {W : Type}

def pointIdComparator (p1 p2 : Point) : Int := wrapInt (p1.id - p2.id)

/-- `sortPointsByID`, where `unspecified` is what the sort does with a comparator that is no order. -/
def TouchState.sortPointsByID (unspecified : List Point → Option (List Point)) (state : TouchState W) :
    Option (TouchState W) :=
  (JavaSort.sort pointIdComparator unspecified state.points).map fun points => { state with points := points }

def TouchState.canBeFoldedWith (state ts : TouchState W) (ignoreIDs : Bool) : Bool :=
  if ts.points.length ≠ state.points.length then false
  else if ignoreIDs then true
  else (ts.points.zip state.points).all fun pair => pair.1.id = pair.2.id

inductive FilterState where
  | clean
  | pendingUnmodifiable
  | pendingModifiable
deriving DecidableEq, Repr

structure LookaheadTouchFilter (W : Type) where
  previousState : TouchState W
  assignIDs : Bool
  filterState : FilterState

namespace LookaheadTouchFilter

/-- `filter` of a state whose points are sorted. -/
def filterSorted (state : TouchState W) (f : LookaheadTouchFilter W) : TouchState W × LookaheadTouchFilter W × Bool :=
  match f.filterState with
  | .clean => (state, ⟨state, f.assignIDs, .pendingUnmodifiable⟩, true)
  | .pendingUnmodifiable =>
      (f.previousState, ⟨state, f.assignIDs,
        if f.previousState.canBeFoldedWith state f.assignIDs then .pendingModifiable else .pendingUnmodifiable⟩, false)
  | .pendingModifiable =>
      if state.canBeFoldedWith f.previousState f.assignIDs then (state, ⟨state, f.assignIDs, .pendingModifiable⟩, true)
      else (f.previousState, ⟨state, f.assignIDs, .pendingUnmodifiable⟩, false)

def filter (unspecified : List Point → Option (List Point)) (state : TouchState W) (f : LookaheadTouchFilter W) :
    Option (TouchState W × LookaheadTouchFilter W × Bool) :=
  (state.sortPointsByID unspecified).map fun sorted => filterSorted sorted f

/-- The state that `flush` fills in, if any. -/
def flush (f : LookaheadTouchFilter W) : Option (TouchState W) × LookaheadTouchFilter W := match f.filterState with
  | .clean => (none, f)
  | _ => (some f.previousState, { f with filterState := .clean })

/-- The states that are not consumed, and the filter after the last one. -/
def filterAll (unspecified : List Point → Option (List Point)) : List (TouchState W) → LookaheadTouchFilter W →
    Option (List (TouchState W) × LookaheadTouchFilter W)
  | [], f => some ([], f)
  | state :: rest, f => (filter unspecified state f).bind fun result =>
      (filterAll unspecified rest result.2.1).map fun sent =>
        (if result.2.2 then sent.1 else result.1 :: sent.1, sent.2)

/-- A pulse: the states are filtered and the filter is flushed. -/
def pulse (unspecified : List Point → Option (List Point)) (states : List (TouchState W)) (f : LookaheadTouchFilter W) :
    Option (List (TouchState W) × LookaheadTouchFilter W) :=
  (filterAll unspecified states f).map fun sent => (sent.1 ++ (flush sent.2).1.toList, (flush sent.2).2)

/-! ## The runs -/

/-- What makes states the same: the number of their points, and their ids unless they are to
be assigned. -/
def signature (ignoreIDs : Bool) (state : TouchState W) : Nat × List Int :=
  (state.points.length, if ignoreIDs then [] else state.points.map Point.id)

theorem canBeFoldedWith_eq (state ts : TouchState W) (ignoreIDs : Bool) :
    state.canBeFoldedWith ts ignoreIDs = decide (signature ignoreIDs ts = signature ignoreIDs state) := by
  have hids : ∀ ps qs : List Point, ps.length = qs.length →
      (((ps.zip qs).all fun pair => pair.1.id = pair.2.id) = true ↔ ps.map Point.id = qs.map Point.id) := by
    intro ps
    induction ps with
    | nil =>
      intro qs hlength
      rw [List.length_eq_zero_iff.mp hlength.symm]
      simp
    | cons p ps ih =>
      intro qs hlength
      cases qs with
      | nil => cases hlength
      | cons q qs =>
        rw [List.zip_cons_cons, List.all_cons, Bool.and_eq_true, decide_eq_true_eq, ih qs (Nat.succ.inj hlength),
          List.map_cons, List.map_cons, List.cons.injEq]
  rw [TouchState.canBeFoldedWith, signature, signature, Bool.eq_iff_iff, decide_eq_true_eq, Prod.mk.injEq]
  by_cases hlength : ts.points.length = state.points.length
  · rw [if_neg (not_not_intro hlength)]
    cases ignoreIDs with
    | true => simp [hlength]
    | false => simp [hlength, hids _ _ hlength]
  · simp [hlength]

def ends {α : Type} : List α → List α
  | [] => []
  | [x] => [x]
  | x :: y :: run => [x, (y :: run).getLast (List.cons_ne_nil _ _)]

/-- The sequence without the states that are strictly between the first and the last one of a
run. -/
def thinned (ignoreIDs : Bool) (states : List (TouchState W)) : List (TouchState W) :=
  (states.splitBy fun s t => signature ignoreIDs s = signature ignoreIDs t).flatMap ends

/-! ## The automaton -/

section Automaton
variable {α κ : Type} [DecidableEq κ] (key : α → κ)

mutual
/-- What is sent when `held` must be sent as it is. -/
def sendHeld (held : α) : List α → List α
  | [] => [held]
  | x :: xs => held :: if key held = key x then replaceHeld x xs else sendHeld x xs

/-- What is sent when `held` may be replaced. -/
def replaceHeld (held : α) : List α → List α
  | [] => [held]
  | x :: xs => if key held = key x then replaceHeld x xs else held :: sendHeld x xs
end

def send : List α → List α
  | [] => []
  | x :: xs => sendHeld key x xs

variable {key}

attribute [local simp] sendHeld replaceHeld

theorem replaceHeld_run {held : α} {run rest : List α} (hrun : (held :: run).IsChain fun x y => key x = key y)
    (hrest : ∀ x ∈ rest.head?, key ((held :: run).getLast (List.cons_ne_nil _ _)) ≠ key x) :
    replaceHeld key held (run ++ rest) = (held :: run).getLast (List.cons_ne_nil _ _) :: send key rest := by
  induction run generalizing held with
  | nil =>
    cases rest with
    | nil => rfl
    | cons x rest =>
      have hne : key held ≠ key x := hrest x rfl
      rw [List.nil_append, replaceHeld, if_neg hne]
      rfl
  | cons x run ih =>
    obtain ⟨hsame, hchain⟩ := List.isChain_cons_cons.mp hrun
    rw [List.cons_append, replaceHeld, if_pos hsame, List.getLast_cons_cons]
    exact ih hchain hrest

theorem send_flatten {runs : List (List α)} (hnil : [] ∉ runs)
    (hchain : ∀ run ∈ runs, run.IsChain fun x y => key x = key y)
    (hnext : runs.IsChain fun run next => ∃ hrun hnext', key (run.getLast hrun) ≠ key (next.head hnext')) :
    send key runs.flatten = runs.flatMap ends := by
  induction runs with
  | nil => rfl
  | cons run runs ih =>
    have hrest := ih (fun h => hnil (List.mem_cons_of_mem _ h)) (fun r hr => hchain r (List.mem_cons_of_mem _ hr)) hnext.tail
    have hhead : ∀ hrun : run ≠ [], ∀ x ∈ runs.flatten.head?, key (run.getLast hrun) ≠ key x := by
      intro hrun x hx
      cases runs with
      | nil => cases hx
      | cons next runs =>
        obtain ⟨⟨_, hnext', hne⟩, -⟩ := List.isChain_cons_cons.mp hnext
        rw [List.flatten_cons, List.head?_append_of_ne_nil _ hnext', List.head?_eq_some_head hnext'] at hx
        cases hx
        exact hne
    rw [List.flatten_cons, List.flatMap_cons, ← hrest]
    cases run with
    | nil => exact absurd (List.mem_cons_self ..) hnil
    | cons p run =>
      cases run with
      | nil =>
        rw [List.cons_append, List.nil_append, send, ends]
        cases hflat : runs.flatten with
        | nil => rfl
        | cons x xs =>
          have hne := hhead (List.cons_ne_nil _ _) x (by rw [hflat]; rfl)
          rw [List.getLast_singleton] at hne
          rw [sendHeld, if_neg hne]
          rfl
      | cons x run =>
        obtain ⟨hsame, hrun⟩ := List.isChain_cons_cons.mp (hchain _ (List.mem_cons_self ..))
        rw [List.cons_append, List.cons_append, send, sendHeld, if_pos hsame, ends,
          replaceHeld_run hrun (hhead (List.cons_ne_nil _ _))]
        rfl

theorem mem_held {x held : α} (xs : List α) :
    (x ∈ sendHeld key held xs → x ∈ held :: xs) ∧ (x ∈ replaceHeld key held xs → x ∈ held :: xs) := by
  induction xs generalizing held with
  | nil => exact ⟨id, id⟩
  | cons y xs ih =>
    obtain ⟨hsend, hreplace⟩ := @ih y
    rw [sendHeld, replaceHeld]
    constructor
    · intro h
      rcases List.mem_cons.mp h with rfl | h
      · exact List.mem_cons_self ..
      · refine List.mem_cons_of_mem _ ?_
        split at h
        · exact hreplace h
        · exact hsend h
    · intro h
      split at h
      · exact List.mem_cons_of_mem _ (hreplace h)
      · rcases List.mem_cons.mp h with rfl | h
        · exact List.mem_cons_self ..
        · exact List.mem_cons_of_mem _ (hsend h)

theorem key_held {x held : α} {xs : List α} (h : x ∈ held :: xs) :
    (∃ y ∈ sendHeld key held xs, key y = key x) ∧ ∃ y ∈ replaceHeld key held xs, key y = key x := by
  induction xs generalizing held x with
  | nil => exact ⟨⟨x, h, rfl⟩, x, h, rfl⟩
  | cons z xs ih =>
    rw [sendHeld, replaceHeld]
    rcases List.mem_cons.mp h with rfl | hlater
    · refine ⟨⟨x, List.mem_cons_self .., rfl⟩, ?_⟩
      split
      · rename_i hsame
        rw [hsame]
        exact (ih (List.mem_cons_self ..)).2
      · exact ⟨x, List.mem_cons_self .., rfl⟩
    · obtain ⟨⟨y, hy, hkey⟩, y', hy', hkey'⟩ := ih hlater
      constructor
      · refine ⟨if key held = key z then y' else y, List.mem_cons_of_mem _ ?_, ?_⟩
        · split
          · exact hy'
          · exact hy
        · split
          · exact hkey'
          · exact hkey
      · split
        · exact ⟨y', hy', hkey'⟩
        · exact ⟨y, List.mem_cons_of_mem _ hy, hkey⟩

theorem map_held {β : Type} {f : α → β} {key' : β → κ} (held : α) (xs : List α)
    (h : ∀ x ∈ held :: xs, key' (f x) = key x) :
    sendHeld key' (f held) (xs.map f) = (sendHeld key held xs).map f ∧
      replaceHeld key' (f held) (xs.map f) = (replaceHeld key held xs).map f := by
  induction xs generalizing held with
  | nil => exact ⟨rfl, rfl⟩
  | cons x xs ih =>
    obtain ⟨hsend, hreplace⟩ := ih x fun y hy => h y (List.mem_cons_of_mem _ hy)
    have hheld := h held (List.mem_cons_self ..)
    have hx := h x (List.mem_cons_of_mem _ (List.mem_cons_self ..))
    rw [List.map_cons, sendHeld, sendHeld, replaceHeld, replaceHeld, hheld, hx, hsend, hreplace]
    split
    · exact ⟨rfl, rfl⟩
    · exact ⟨rfl, rfl⟩

theorem mem_send {x : α} {xs : List α} (h : x ∈ send key xs) : x ∈ xs := by
  cases xs with
  | nil => exact h
  | cons y xs => exact (mem_held xs).1 h

theorem key_send {x : α} {xs : List α} (h : x ∈ xs) : ∃ y ∈ send key xs, key y = key x := by
  cases xs with
  | nil => cases h
  | cons y xs => exact (key_held h).1

theorem map_send {β : Type} {f : α → β} {key' : β → κ} {xs : List α} (h : ∀ x ∈ xs, key' (f x) = key x) :
    send key' (xs.map f) = (send key xs).map f := by
  cases xs with
  | nil => rfl
  | cons y xs => exact (map_held y xs h).1

end Automaton

theorem thinned_eq (ignoreIDs : Bool) (states : List (TouchState W)) :
    thinned ignoreIDs states = send (signature ignoreIDs) states := by
  have hflatten := @send_flatten _ _ _ (signature ignoreIDs) _ (List.nil_notMem_splitBy _ states)
    (fun run hrun => (List.isChain_of_mem_splitBy hrun).imp fun _ _ h => of_decide_eq_true h)
    ((List.isChain_getLast_head_splitBy _ states).imp fun _ _ h => by
      obtain ⟨hrun, hnext, hne⟩ := h
      exact ⟨hrun, hnext, of_decide_eq_false hne⟩)
  rw [List.flatten_splitBy] at hflatten
  exact hflatten.symm

theorem filterSorted_unmodifiable (held state : TouchState W) (assignIDs : Bool) :
    filterSorted state ⟨held, assignIDs, .pendingUnmodifiable⟩ = (held, ⟨state, assignIDs,
      if signature assignIDs held = signature assignIDs state then .pendingModifiable else .pendingUnmodifiable⟩, false) := by
  simp [filterSorted, canBeFoldedWith_eq, eq_comm]

theorem filterSorted_modifiable (held state : TouchState W) (assignIDs : Bool) :
    filterSorted state ⟨held, assignIDs, .pendingModifiable⟩ =
      if signature assignIDs held = signature assignIDs state then (state, ⟨state, assignIDs, .pendingModifiable⟩, true)
      else (held, ⟨state, assignIDs, .pendingUnmodifiable⟩, false) := by
  simp [filterSorted, canBeFoldedWith_eq]

theorem pulse_sorted {unspecified : List Point → Option (List Point)} {sorted : TouchState W → TouchState W}
    {states : List (TouchState W)} (h : ∀ s ∈ states, s.sortPointsByID unspecified = some (sorted s)) (assignIDs : Bool) :
    (∀ held, ∃ g, g.filterState = .clean ∧ pulse unspecified states ⟨held, assignIDs, .pendingUnmodifiable⟩ =
      some (sendHeld (signature assignIDs) held (states.map sorted), g)) ∧
    (∀ held, ∃ g, g.filterState = .clean ∧ pulse unspecified states ⟨held, assignIDs, .pendingModifiable⟩ =
      some (replaceHeld (signature assignIDs) held (states.map sorted), g)) ∧
    ∀ held, ∃ g, g.filterState = .clean ∧ pulse unspecified states ⟨held, assignIDs, .clean⟩ =
      some (send (signature assignIDs) (states.map sorted), g) := by
  induction states with
  | nil => exact ⟨fun held => ⟨_, rfl, rfl⟩, fun held => ⟨_, rfl, rfl⟩, fun held => ⟨_, rfl, rfl⟩⟩
  | cons s states ih =>
    obtain ⟨hsend, hreplace, hclean⟩ := ih fun t ht => h t (List.mem_cons_of_mem _ ht)
    have hs := h s (List.mem_cons_self ..)
    have hstep : ∀ f : LookaheadTouchFilter W, pulse unspecified (s :: states) f =
        (pulse unspecified states (filterSorted (sorted s) f).2.1).map fun sent =>
          (if (filterSorted (sorted s) f).2.2 then sent.1 else (filterSorted (sorted s) f).1 :: sent.1, sent.2) := by
      intro f
      rw [pulse, filterAll, filter, hs, Option.map_some, Option.bind_some, pulse]
      cases filterAll unspecified states (filterSorted (sorted s) f).2.1 with
      | none => rfl
      | some sent =>
        simp only [Option.map_some]
        split
        · rfl
        · rfl
    refine ⟨fun held => ?_, fun held => ?_, fun held => ?_⟩
    · rw [hstep, filterSorted_unmodifiable, List.map_cons, sendHeld]
      by_cases hsame : signature assignIDs held = signature assignIDs (sorted s)
      · obtain ⟨g, hg, hpulse⟩ := hreplace (sorted s)
        rw [if_pos hsame, if_pos hsame, hpulse]
        exact ⟨g, hg, rfl⟩
      · obtain ⟨g, hg, hpulse⟩ := hsend (sorted s)
        rw [if_neg hsame, if_neg hsame, hpulse]
        exact ⟨g, hg, rfl⟩
    · rw [hstep, filterSorted_modifiable, List.map_cons, replaceHeld]
      by_cases hsame : signature assignIDs held = signature assignIDs (sorted s)
      · obtain ⟨g, hg, hpulse⟩ := hreplace (sorted s)
        rw [if_pos hsame, if_pos hsame, hpulse]
        exact ⟨g, hg, rfl⟩
      · obtain ⟨g, hg, hpulse⟩ := hsend (sorted s)
        rw [if_neg hsame, if_neg hsame, hpulse]
        exact ⟨g, hg, rfl⟩
    · obtain ⟨g, hg, hpulse⟩ := hsend (sorted s)
      rw [hstep, filterSorted, hpulse]
      exact ⟨g, hg, rfl⟩

/-! ## The order of the ids -/

def sortedByID (state : TouchState W) : TouchState W :=
  { state with points := state.points.mergeSort fun p1 p2 => p1.id ≤ p2.id }

def sortedByComparator (state : TouchState W) : TouchState W :=
  { state with points := state.points.mergeSort fun p1 p2 => pointIdComparator p1 p2 ≤ 0 }

/-- The ids are less than `2^31` apart. -/
def Near (points : List Point) : Prop := ∀ p ∈ points, ∀ q ∈ points, p.id - q.id < 2 ^ 31

def IntIDs (points : List Point) : Prop := ∀ p ∈ points, -2 ^ 31 ≤ p.id ∧ p.id < 2 ^ 31

theorem Near.perm {ps qs : List Point} (h : Near ps) (hperm : ps.Perm qs) : Near qs :=
  fun p hp q hq => h p (hperm.symm.subset hp) q (hperm.symm.subset hq)

theorem sort_of_isOrder {state : TouchState W} (h : JavaSort.IsOrder pointIdComparator state.points)
    (unspecified : List Point → Option (List Point)) :
    state.sortPointsByID unspecified = some (sortedByComparator state) := by
  rw [TouchState.sortPointsByID, JavaSort.sort, if_pos h]
  rfl

theorem isOrder_of_sort {state sorted : TouchState W} (h : state.sortPointsByID (fun _ => none) = some sorted) :
    JavaSort.IsOrder pointIdComparator state.points := by
  by_contra hno
  rw [TouchState.sortPointsByID, JavaSort.sort, if_neg hno] at h
  cases h

theorem pointIdComparator_le_iff {p q : Point} (hpq : p.id - q.id < 2 ^ 31) (hqp : q.id - p.id < 2 ^ 31) :
    pointIdComparator p q ≤ 0 ↔ p.id ≤ q.id := by
  rw [pointIdComparator, wrapInt, Int.bmod_eq_of_le (by omega) (by omega)]
  omega

theorem sortedByComparator_eq {state : TouchState W} (h : Near state.points) : sortedByComparator state = sortedByID state := by
  rw [sortedByComparator, sortedByID, JavaSort.mergeSort_congr fun p hp q hq =>
    decide_eq_decide.mpr (pointIdComparator_le_iff (h p hp q hq) (h q hq p hp))]

theorem near_of_sorted {points sorted : List Point} (horder : JavaSort.IsOrder pointIdComparator points) (hints : IntIDs points)
    (hperm : sorted.Perm points) (hcomparator : sorted.Pairwise fun p q => pointIdComparator p q ≤ 0)
    (hids : sorted.Pairwise fun p q => p.id ≤ q.id) : Near points := by
  intro p hp q hq
  by_contra hfar
  obtain ⟨i, hi, hgeti⟩ := List.getElem_of_mem (hperm.symm.subset hp)
  obtain ⟨j, hj, hgetj⟩ := List.getElem_of_mem (hperm.symm.subset hq)
  have hbefore : j < i := by
    by_contra hle
    by_cases heq : i = j
    · subst heq
      rw [hgeti] at hgetj
      rw [hgetj] at hfar
      omega
    · have := List.pairwise_iff_getElem.mp hids i j hi hj (by omega)
      rw [hgeti, hgetj] at this
      omega
  have hle := List.pairwise_iff_getElem.mp hcomparator j i hj hi hbefore
  rw [hgeti, hgetj] at hle
  have hsign := horder.1 q hq p hp
  obtain ⟨hp0, hp1⟩ := hints p hp
  obtain ⟨hq0, hq1⟩ := hints q hq
  have hqp : pointIdComparator q p = if p.id - q.id = 2 ^ 31 then -2 ^ 31 else q.id - p.id + 2 ^ 32 := by
    rw [pointIdComparator, wrapInt, Int.bmod_def]
    split <;> split <;> omega
  split at hqp
  · rename_i heq
    have hpq : pointIdComparator p q = -2 ^ 31 := by
      rw [pointIdComparator, heq]
      rfl
    rw [hqp, hpq] at hsign
    exact absurd hsign (by decide)
  · omega

theorem signature_perm {s t : TouchState W} (h : s.points.Perm t.points) : signature true s = signature true t := by
  rw [signature, signature, h.length_eq]
  rfl

theorem sorts_of_pulse {unspecified : List Point → Option (List Point)} {states : List (TouchState W)}
    {f : LookaheadTouchFilter W} {result : List (TouchState W) × LookaheadTouchFilter W}
    (h : pulse unspecified states f = some result) : ∀ s ∈ states, ∃ sorted, s.sortPointsByID unspecified = some sorted := by
  induction states generalizing f result with
  | nil => exact fun s hs => absurd hs List.not_mem_nil
  | cons state states ih =>
    rw [pulse, Option.map_eq_some_iff] at h
    obtain ⟨sent, hsent, -⟩ := h
    rw [filterAll, Option.bind_eq_some_iff] at hsent
    obtain ⟨step, hstep, hrest⟩ := hsent
    rw [filter, Option.map_eq_some_iff] at hstep
    obtain ⟨sorted, hsorted, -⟩ := hstep
    obtain ⟨rest, hrest, -⟩ := Option.map_eq_some_iff.mp hrest
    intro s hs
    rcases List.mem_cons.mp hs with rfl | hlater
    · exact ⟨sorted, hsorted⟩
    · exact @ih step.2.1 _ (by rw [pulse, hrest]; rfl) s hlater

/-- A pulse removes exactly the inner states of the runs, whatever the sort does where it is not
specified, if and only if the comparator is an order on the ids of every state, and the ids of
the states that get through are less than `2^31` apart. -/
theorem runs_folded_iff {states : List (TouchState W)} (hints : ∀ s ∈ states, IntIDs s.points) (held : TouchState W)
    (assignIDs : Bool) :
    (∀ unspecified, ∃ g, g.filterState = .clean ∧ pulse unspecified states ⟨held, assignIDs, .clean⟩ =
      some (thinned assignIDs (states.map sortedByID), g)) ↔
    (∀ s ∈ states, JavaSort.IsOrder pointIdComparator s.points) ∧
      ∀ s ∈ thinned assignIDs (states.map sortedByID), Near s.points := by
  have hpulse : (∀ s ∈ states, JavaSort.IsOrder pointIdComparator s.points) → ∀ unspecified, ∃ g, g.filterState = .clean ∧
      pulse unspecified states ⟨held, assignIDs, .clean⟩ =
        some (send (signature assignIDs) (states.map sortedByComparator), g) :=
    fun h unspecified => (pulse_sorted (fun s hs => sort_of_isOrder (h s hs) unspecified) assignIDs).2.2 held
  rw [thinned_eq]
  constructor
  · intro h
    have horder : ∀ s ∈ states, JavaSort.IsOrder pointIdComparator s.points := by
      intro s hs
      obtain ⟨g, -, hg⟩ := h fun _ => none
      obtain ⟨sorted, hsorted⟩ := sorts_of_pulse hg s hs
      exact isOrder_of_sort hsorted
    refine ⟨horder, fun s hs => ?_⟩
    obtain ⟨g, -, hg⟩ := h fun _ => none
    obtain ⟨g', -, hg'⟩ := hpulse horder fun _ => none
    rw [hg', Option.some.injEq, Prod.mk.injEq] at hg
    have hids : s.points.Pairwise fun p q => p.id ≤ q.id := by
      obtain ⟨t, -, rfl⟩ := List.mem_map.mp (mem_send hs)
      have hsorted := @List.pairwise_mergeSort _ (fun p1 p2 : Point => decide (p1.id ≤ p2.id))
        (fun a b c hab hbc => decide_eq_true (Int.le_trans (of_decide_eq_true hab) (of_decide_eq_true hbc)))
        (fun a b => by
          rw [Bool.or_eq_true, decide_eq_true_eq, decide_eq_true_eq]
          exact Int.le_total a.id b.id) t.points
      exact hsorted.imp of_decide_eq_true
    rw [← hg.1] at hs
    obtain ⟨u, hu, rfl⟩ := List.mem_map.mp (mem_send hs)
    have hperm : (sortedByComparator u).points.Perm u.points := List.mergeSort_perm _ _
    exact (near_of_sorted (horder u hu) (hints u hu) hperm (horder u hu).pairwise hids).perm hperm.symm
  · intro h unspecified
    obtain ⟨horder, hnear⟩ := h
    obtain ⟨g, hg, hsent⟩ := hpulse horder unspecified
    refine ⟨g, hg, hsent.trans ?_⟩
    have hperm : ∀ s : TouchState W, (sortedByID s).points.Perm s.points := fun s => List.mergeSort_perm _ _
    have hperm' : ∀ s : TouchState W, (sortedByComparator s).points.Perm s.points := fun s => List.mergeSort_perm _ _
    congr 2
    cases assignIDs with
    | true =>
        -- the sorts do not change which states are the same
        rw [map_send fun s _ => signature_perm (hperm s)] at hnear ⊢
        rw [map_send fun s _ => signature_perm (hperm' s)]
        refine List.map_congr_left fun s hs => ?_
        exact sortedByComparator_eq ((hnear _ (List.mem_map.mpr ⟨s, hs, rfl⟩)).perm (hperm s))
    | false =>
        -- every state has the ids of one that gets through
        congr 1
        refine List.map_congr_left fun s hs => ?_
        obtain ⟨t, ht, hkey⟩ := @key_send _ _ _ (signature false) _ _ (List.mem_map.mpr ⟨s, hs, rfl⟩ : sortedByID s ∈ states.map sortedByID)
        have hids : t.points.map Point.id = (sortedByID s).points.map Point.id := congrArg Prod.snd hkey
        have hmem : ∀ p ∈ s.points, ∃ p' ∈ t.points, p'.id = p.id := by
          intro p hp
          have : p.id ∈ t.points.map Point.id := by
            rw [hids]
            exact List.mem_map.mpr ⟨p, (hperm s).symm.subset hp, rfl⟩
          exact List.mem_map.mp this
        refine sortedByComparator_eq fun p hp q hq => ?_
        obtain ⟨p', hp', heqp⟩ := hmem p hp
        obtain ⟨q', hq', heqq⟩ := hmem q hq
        rw [← heqp, ← heqq]
        exact hnear t ht p' hp' q' hq'

end LookaheadTouchFilter
end Touch

namespace LookaheadTouchFilter

/-- Two fingers with ids; `x` is where the first one is. -/
def fingers (id1 id2 x : Int) : TouchState Unit := ⟨[⟨id1, x, 0⟩, ⟨id2, 0, 0⟩], -1, none⟩

theorem runs_folded_iff_fingers :
    (∀ s ∈ [fingers 2 1 3, fingers 2 1 4, fingers 1 2 5], IntIDs s.points) ∧
    ∀ unspecified, ∃ g, g.filterState = .clean ∧
      pulse unspecified [fingers 2 1 3, fingers 2 1 4, fingers 1 2 5] ⟨fingers 0 0 0, false, .clean⟩ =
        some (thinned false ([fingers 2 1 3, fingers 2 1 4, fingers 1 2 5].map sortedByID), g) := by
  have hids : ∀ s ∈ [fingers 2 1 3, fingers 2 1 4, fingers 1 2 5], ∀ p ∈ s.points, 1 ≤ p.id ∧ p.id ≤ 2 := by
    simp [fingers]
  have hints : ∀ s ∈ [fingers 2 1 3, fingers 2 1 4, fingers 1 2 5], IntIDs s.points := by
    intro s hs p hp
    have := hids s hs p hp
    omega
  refine ⟨hints, (runs_folded_iff hints (fingers 0 0 0) false).mpr ⟨?_, fun s hs p hp q hq => ?_⟩⟩
  · simp only [List.forall_mem_cons]
    exact ⟨by decide, by decide, by decide, fun _ h => absurd h List.not_mem_nil⟩
  · rw [thinned_eq] at hs
    obtain ⟨t, ht, rfl⟩ := List.mem_map.mp (mem_send hs)
    have h1 := hids t ht p ((List.mergeSort_perm _ _).subset hp)
    have h2 := hids t ht q ((List.mergeSort_perm _ _).subset hq)
    omega

/-- The larger id comes first when the difference of the ids is no `int`. -/
theorem far_ids_reversed :
    thinned false ([fingers 2000000000 (-2000000000) 3].map sortedByID) ≠ [fingers 2000000000 (-2000000000) 3] ∧
    ∀ unspecified, ∃ g, pulse unspecified [fingers 2000000000 (-2000000000) 3] ⟨fingers 0 0 0, false, .clean⟩ =
      some ([fingers 2000000000 (-2000000000) 3], g) := by
  have hid : sortedByID (fingers 2000000000 (-2000000000) 3) = ⟨[⟨-2000000000, 0, 0⟩, ⟨2000000000, 3, 0⟩], -1, none⟩ := by
    simp [sortedByID, fingers, List.mergeSort]
  constructor
  · rw [List.map_singleton, hid]
    intro h
    have hpoints := congrArg (fun states => states.map fun s => s.points.map Point.id) h
    exact absurd hpoints (by decide)
  · intro unspecified
    have horder : JavaSort.IsOrder pointIdComparator (fingers 2000000000 (-2000000000) 3).points := by decide
    obtain ⟨g, -, hpulse⟩ := (@pulse_sorted Unit unspecified sortedByComparator [fingers 2000000000 (-2000000000) 3] (by
      intro s hs
      rw [List.mem_singleton.mp hs]
      exact sort_of_isOrder horder unspecified) false).2.2 (fingers 0 0 0)
    have hcomparator : sortedByComparator (fingers 2000000000 (-2000000000) 3) = fingers 2000000000 (-2000000000) 3 := by
      simp [sortedByComparator, fingers, List.mergeSort, pointIdComparator, wrapInt]
    refine ⟨g, ?_⟩
    rw [hpulse, List.map_singleton, hcomparator]
    rfl

end LookaheadTouchFilter
end OpenJfx.Glass
