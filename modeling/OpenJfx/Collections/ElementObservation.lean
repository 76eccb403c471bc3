import Mathlib
import OpenJfx.Collections.ElementObserver

/-! # Observation follows membership

As long as no call takes an element out at one position and leaves it at another,
and no element is added outside the list, every element of the list is observed at
all its observables, no other element is, and `elementsMap` counts the occurrences. -/
set_option autoImplicit false
namespace OpenJfx.Collections
open OpenJfx.Lib

namespace ObservableListWrapper
variable {E O : Type} [DecidableEq E] [DecidableEq O]

def occurrences (list : List (Option E)) (e : E) : Nat := list.count (some e)

def counter (w : ObservableListWrapper E O) (e : E) : Nat :=
  ((w.elementsMap e).map ElementsMapElement.counter).getD 0

/-- The entries count `n`; there is none for zero. -/
def Counts (n : E → Nat) (w : ObservableListWrapper E O) : Prop :=
  ∀ e, w.counter e = n e ∧ ∀ el, w.elementsMap e = some el → 0 < el.counter

section Registered
variable (extractor : E → List O)

/-- The listener of `e` is registered as the extractor says, none else is. -/
def Carried (w : ObservableListWrapper E O) (e : E) : Prop :=
  ∀ o k, (w.listeners o).count ⟨e, k⟩ = match w.elementsMap e with
    | some el => if k = el.listener then (extractor e).count o else 0
    | none => 0

def Absent (w : ObservableListWrapper E O) (e : E) : Prop := ∀ o k, (w.listeners o).count ⟨e, k⟩ = 0

/-- The entries count `n`, the listener of an element is registered everywhere or
nowhere, and everywhere for the elements that are not lost. -/
structure Tracked (n : E → Nat) (lost : E → Prop) (w : ObservableListWrapper E O) : Prop where
  counts : Counts n w
  either : ∀ e, Carried extractor w e ∨ Absent w e
  kept : ∀ e, ¬ lost e → Carried extractor w e

/-- What the wrapper keeps from call to call. -/
def Good (w : ObservableListWrapper E O) : Prop :=
  Tracked extractor (occurrences w.backingList) (fun _ => False) w

end Registered

variable {extractor : E → List O} {w w' : ObservableListWrapper E O} {n : E → Nat} {lost : E → Prop}

/-! ## One entry -/

omit [DecidableEq E] [DecidableEq O] in
theorem Counts.absent {e : E} (h : Counts n w) (hn : n e = 0) : w.elementsMap e = none := by
  obtain ⟨hcount, hpos⟩ := h e
  cases hel : w.elementsMap e with
  | none => rfl
  | some el =>
    have hzero : el.counter = 0 := by
      rw [counter, hel] at hcount
      exact hcount.trans hn
    have := hpos el hel
    omega

omit [DecidableEq E] [DecidableEq O] in
theorem Counts.present {e : E} (h : Counts n w) (hn : 0 < n e) :
    ∃ el, w.elementsMap e = some el ∧ el.counter = n e := by
  obtain ⟨hcount, -⟩ := h e
  cases hel : w.elementsMap e with
  | none =>
    rw [counter, hel] at hcount
    exact absurd hcount (Nat.ne_of_lt hn)
  | some el =>
    rw [counter, hel] at hcount
    exact ⟨el, rfl, hcount⟩

omit [DecidableEq O] in
theorem Counts.entry (h : Counts n w) {e : E} {entry : Option ElementsMapElement} {m : Nat}
    (hmap : w'.elementsMap = Function.update w.elementsMap e entry)
    (hentry : (entry.map ElementsMapElement.counter).getD 0 = m)
    (hpos : ∀ el, entry = some el → 0 < el.counter) :
    Counts (Function.update n e m) w' := by
  intro x
  rw [counter, hmap]
  by_cases hx : x = e
  · subst hx
    rw [Function.update_self, Function.update_self]
    exact ⟨hentry, hpos⟩
  · rw [Function.update_of_ne hx, Function.update_of_ne hx]
    exact h x

theorem carried_iff_absent {e : E} (h : w.elementsMap e = none) : Carried extractor w e ↔ Absent w e := by
  simp [Carried, Absent, h]

theorem carried_congr {x : E} (hmap : w'.elementsMap x = w.elementsMap x)
    (hlisteners : ∀ o k, (w'.listeners o).count ⟨x, k⟩ = (w.listeners o).count ⟨x, k⟩) :
    Carried extractor w' x ↔ Carried extractor w x := by
  simp only [Carried, hmap, hlisteners]

/-! ## Attaching and detaching -/

theorem attachListener_backingList (element : Option E) :
    (attachListener extractor element w).backingList = w.backingList := by
  cases element with
  | none => rfl
  | some e =>
    simp only [attachListener]
    split
    · rfl
    · rfl

def more (n : E → Nat) : Option E → E → Nat
  | none => n
  | some e => Function.update n e (n e + 1)

def less (n : E → Nat) : Option E → E → Nat
  | none => n
  | some e => Function.update n e (n e - 1)

theorem Tracked.attach (h : Tracked extractor n lost w) (element : Option E) :
    Tracked extractor (more n element) lost (attachListener extractor element w) := by
  cases element with
  | none => exact h
  | some e =>
    cases hel : w.elementsMap e with
    | some el =>
      have hcount : el.counter = n e := by
        have := (h.counts e).1
        rwa [counter, hel] at this
      have same : ∀ x, Carried extractor w x → Carried extractor (attachListener extractor (some e) w) x := by
        intro x hx o k
        simp only [attachListener, hel]
        rw [hx o k]
        by_cases hxe : x = e
        · subst hxe
          simp [hel]
        · simp [hxe]
      have absent : ∀ x, Absent w x → Absent (attachListener extractor (some e) w) x := by
        intro x hx o k
        simp only [attachListener, hel]
        exact hx o k
      refine ⟨?_, fun x => (h.either x).imp (same x) (absent x), fun x hx => same x (h.kept x hx)⟩
      have hmap : (attachListener extractor (some e) w).elementsMap =
          Function.update w.elementsMap e (some { el with counter := el.counter + 1 }) := by
        simp only [attachListener, hel]
      exact h.counts.entry hmap (by simp [hcount]) (by simp)
    | none =>
      have absent : Absent w e := (h.either e).elim (carried_iff_absent hel).mp id
      have hcount : n e = 0 := by
        have := (h.counts e).1
        rw [counter, hel] at this
        exact this.symm
      have fresh : Carried extractor (attachListener extractor (some e) w) e := by
        intro o k
        simp only [attachListener, hel]
        rw [count_addToAll, absent o k, Nat.zero_add, Function.update_self]
        simp
      have other : ∀ x, x ≠ e → ∀ o k,
          ((attachListener extractor (some e) w).listeners o).count ⟨x, k⟩ = (w.listeners o).count ⟨x, k⟩ := by
        intro x hx o k
        simp only [attachListener, hel]
        rw [count_addToAll]
        simp [hx]
      have otherMap : ∀ x, x ≠ e → (attachListener extractor (some e) w).elementsMap x = w.elementsMap x := by
        intro x hx
        simp only [attachListener, hel, Function.update_of_ne hx]
      refine ⟨?_, ?_, ?_⟩
      · have hmap : (attachListener extractor (some e) w).elementsMap =
            Function.update w.elementsMap e (some ⟨w.generated, 1⟩) := by
          simp only [attachListener, hel]
        exact h.counts.entry hmap (by simp [hcount]) (by simp)
      · intro x
        by_cases hxe : x = e
        · exact Or.inl (hxe ▸ fresh)
        · apply (h.either x).imp
          · exact (carried_congr (otherMap x hxe) (other x hxe)).mpr
          · intro hx o k
            rw [other x hxe, hx o k]
      · intro x hlost
        by_cases hxe : x = e
        · exact hxe ▸ fresh
        · exact (carried_congr (otherMap x hxe) (other x hxe)).mpr (h.kept x hlost)

theorem detachListener_done (extractor : E → List O) {e : E} {el : ElementsMapElement} (hel : w.elementsMap e = some el) :
    ∃ w', detachListener extractor (some e) w = .done w' ∧ w'.backingList = w.backingList ∧
      w'.listeners = removeFromAll (extractor e) ⟨e, el.listener⟩ w.listeners ∧
      w'.elementsMap = Function.update w.elementsMap e
        (if el.counter - 1 = 0 then none else some { el with counter := el.counter - 1 }) := by
  simp only [detachListener, hel]
  exact ⟨_, rfl, rfl, rfl, rfl⟩

theorem Tracked.detach (h : Tracked extractor n lost w) {element : Option E} (hn : ∀ e, element = some e → 0 < n e) :
    ∃ w', detachListener extractor element w = .done w' ∧ w'.backingList = w.backingList ∧
      Tracked extractor (less n element) (fun x => lost x ∨ element = some x) w' := by
  cases element with
  | none => exact ⟨w, rfl, rfl, h.counts, h.either, fun x hx => h.kept x (fun hl => hx (Or.inl hl))⟩
  | some e =>
    obtain ⟨el, hel, hcount⟩ := h.counts.present (hn e rfl)
    obtain ⟨w', hdone, hlist, hlisteners, hmap⟩ := detachListener_done extractor hel
    have counts : Counts (less n (some e)) w' := by
      apply h.counts.entry hmap
      · by_cases hzero : el.counter - 1 = 0
        · simp [hzero, ← hcount]
        · simp [hzero, ← hcount]
      · intro el' hel'
        by_cases hzero : el.counter - 1 = 0
        · simp [hzero] at hel'
        · rw [if_neg hzero, Option.some.injEq] at hel'
          rw [← hel']
          exact Nat.pos_of_ne_zero hzero
    have gone : Absent w' e := by
      intro o k
      rw [hlisteners, count_removeFromAll]
      rcases h.either e with hcarried | habsent
      · rw [hcarried o k, hel]
        by_cases hk : k = el.listener
        · simp [hk]
        · simp [hk]
      · rw [habsent o k, Nat.zero_sub]
    have other : ∀ x, x ≠ e → ∀ o k, (w'.listeners o).count ⟨x, k⟩ = (w.listeners o).count ⟨x, k⟩ := by
      intro x hx o k
      rw [hlisteners, count_removeFromAll]
      simp [hx]
    have otherMap : ∀ x, x ≠ e → w'.elementsMap x = w.elementsMap x := by
      intro x hx
      rw [hmap, Function.update_of_ne hx]
    refine ⟨w', hdone, hlist, counts, ?_, ?_⟩
    · intro x
      by_cases hxe : x = e
      · exact Or.inr (hxe ▸ gone)
      · apply (h.either x).imp
        · exact (carried_congr (otherMap x hxe) (other x hxe)).mpr
        · intro hx o k
          rw [other x hxe, hx o k]
    · intro x hx
      have hxe : x ≠ e := fun heq => hx (Or.inr (congrArg some heq.symm))
      exact (carried_congr (otherMap x hxe) (other x hxe)).mpr (h.kept x (fun hl => hx (Or.inl hl)))

theorem Tracked.settle (h : Tracked extractor n lost w) (hlost : ∀ e, lost e → n e = 0) :
    Tracked extractor n (fun _ => False) w := by
  refine ⟨h.counts, h.either, ?_⟩
  intro e _
  by_cases hl : lost e
  · have hnone := h.counts.absent (hlost e hl)
    exact (h.either e).elim id (carried_iff_absent hnone).mpr
  · exact h.kept e hl

theorem Tracked.imp (h : Tracked extractor n lost w) {n' : E → Nat} {lost' : E → Prop} (hn : n = n')
    (hlost : ∀ e, lost e → lost' e) (hmap : w'.elementsMap = w.elementsMap) (hlisteners : w'.listeners = w.listeners) :
    Tracked extractor n' lost' w' := by
  subst hn
  have same : ∀ e, Carried extractor w' e ↔ Carried extractor w e := by
    intro e
    simp only [Carried, hmap, hlisteners]
  refine ⟨?_, ?_, ?_⟩
  · intro e
    rw [counter, hmap]
    exact h.counts e
  · intro e
    apply (h.either e).imp (same e).mpr
    intro he o k
    rw [hlisteners, he o k]
  · exact fun e he => (same e).mpr (h.kept e (fun hl => he (hlost e hl)))

/-! ## Occurrences -/

theorem occurrences_perm {l l' : List (Option E)} (h : l.Perm l') : occurrences l = occurrences l' := by
  funext e
  exact h.count_eq (some e)

theorem occurrences_cons (element : Option E) (l : List (Option E)) :
    occurrences (element :: l) = more (occurrences l) element := by
  funext e
  cases element with
  | none => simp [occurrences, more]
  | some x =>
    by_cases hx : e = x
    · subst hx
      simp [occurrences, more]
    · simp [occurrences, more, hx, Ne.symm hx]

theorem less_more (m : E → Nat) (element : Option E) : less (more m element) element = m := by
  cases element with
  | none => rfl
  | some e => simp [less, more]

theorem occurrences_insertIdx {l : List (Option E)} {i : Nat} (hi : i ≤ l.length) (element : Option E) :
    occurrences (l.insertIdx i element) = more (occurrences l) element := by
  rw [← occurrences_cons]
  exact occurrences_perm (List.perm_insertIdx element l hi)

theorem occurrences_eraseIdx {l : List (Option E)} {i : Nat} (hi : i < l.length) :
    occurrences (l.eraseIdx i) = less (occurrences l) l[i] := by
  have hperm := occurrences_perm (List.getElem_cons_eraseIdx_perm hi)
  rw [← hperm, occurrences_cons, less_more]

theorem occurrences_pos {l : List (Option E)} {e : E} : 0 < occurrences l e ↔ some e ∈ l := List.count_pos_iff

/-! ## The operations -/

theorem create_good (list : List (Option E)) : Good extractor (create extractor list) := by
  have attached : ∀ (elements front : List (Option E)) (w : ObservableListWrapper E O), w.backingList = list →
      Tracked extractor (occurrences front) (fun _ => False) w →
      (elements.foldl (fun w element => attachListener extractor element w) w).backingList = list ∧
        Tracked extractor (occurrences (elements.reverse ++ front)) (fun _ => False)
          (elements.foldl (fun w element => attachListener extractor element w) w) := by
    intro elements
    induction elements with
    | nil => exact fun front w hlist h => ⟨hlist, h⟩
    | cons element rest ih =>
      intro front w hlist h
      have hnext := ih (element :: front) (attachListener extractor element w)
        ((attachListener_backingList element).trans hlist)
        ((h.attach element).imp (occurrences_cons element front).symm (fun _ hl => hl) rfl rfl)
      rw [List.foldl_cons, List.reverse_cons, List.append_assoc]
      exact hnext
  have start : Tracked extractor (occurrences ([] : List (Option E))) (fun _ => False)
      (⟨list, fun _ => none, fun _ => [], 0⟩ : ObservableListWrapper E O) :=
    ⟨fun e => ⟨rfl, fun el hel => nomatch hel⟩, fun e => Or.inl (fun o k => rfl), fun e _ o k => rfl⟩
  obtain ⟨hlist, h⟩ := attached list [] _ rfl start
  rw [Good, create, hlist]
  rw [List.append_nil] at h
  exact h.imp (occurrences_perm (List.reverse_perm list)) (fun _ hl => hl) rfl rfl

/-- The wrapper after a call that leaves `list` and may have lost some elements. -/
def After (extractor : E → List O) (list : List (Option E)) (lost : E → Prop) (w : ObservableListWrapper E O) : Prop :=
  w.backingList = list ∧ Tracked extractor (occurrences list) lost w

theorem Good.after (h : Good extractor w) : After extractor w.backingList (fun _ => False) w := ⟨rfl, h⟩

theorem After.good {list : List (Option E)} (h : After extractor list lost w)
    (hlost : ∀ e, lost e → some e ∉ list) : Good extractor w := by
  obtain ⟨hlist, htracked⟩ := h
  rw [Good, hlist]
  apply htracked.settle
  intro e hl
  exact List.count_eq_zero.mpr (hlost e hl)

theorem After.imp {list : List (Option E)} (h : After extractor list lost w) {lost' : E → Prop}
    (hlost : ∀ e, lost e → lost' e) : After extractor list lost' w :=
  ⟨h.1, h.2.imp rfl hlost rfl rfl⟩

section Calls
variable {list : List (Option E)}

theorem After.doAdd (h : After extractor list lost w) {index : Int} (hindex : 0 ≤ index ∧ index ≤ list.length)
    (element : Option E) : ∃ w', doAdd extractor index element w = .done w' ∧
      After extractor (list.insertIdx index.toNat element) lost w' := by
  obtain ⟨hlist, htracked⟩ := h
  have hback : (attachListener extractor element w).backingList = list :=
    (attachListener_backingList element).trans hlist
  have hi : index.toNat ≤ list.length := by omega
  refine ⟨{ attachListener extractor element w with backingList := list.insertIdx index.toNat element }, ?_, rfl, ?_⟩
  · simp only [ObservableListWrapper.doAdd, hback, if_pos hindex]
  · exact (htracked.attach element).imp (occurrences_insertIdx hi element).symm (fun _ hl => hl) rfl rfl

theorem After.doRemove (h : After extractor list lost w) {i : Nat} (hi : i < list.length) :
    ∃ w', doRemove extractor i w = .done w' ∧
      After extractor (list.eraseIdx i) (fun x => lost x ∨ list[i] = some x) w' := by
  obtain ⟨hlist, htracked⟩ := h
  have hread : readAt w.backingList i = .ok list[i] := by
    rw [hlist]
    exact readAt_natCast list i hi
  have hpos : ∀ e, list[i] = some e → 0 < occurrences list e :=
    fun e he => occurrences_pos.mpr (he ▸ List.getElem_mem hi)
  have herased : Tracked extractor (occurrences list) lost { w with backingList := list.eraseIdx i } :=
    htracked.imp rfl (fun _ hl => hl) rfl rfl
  obtain ⟨w', hdone, hback, hafter⟩ := herased.detach hpos
  refine ⟨w', ?_, hback, ?_⟩
  · rw [ObservableListWrapper.doRemove, hread, hlist]
    exact hdone
  · rw [occurrences_eraseIdx hi]
    exact hafter

omit [DecidableEq E] in
theorem readAt_outside {index : Int} (hindex : ¬ (0 ≤ index ∧ index < list.length)) :
    ∃ x, readAt list index = .error x := by
  cases hr : readAt list index with
  | error x => exact ⟨x, rfl⟩
  | ok v =>
    obtain ⟨k, rfl, hk⟩ := readAt_eq_ok hr
    have := (List.getElem?_eq_some_iff.mp hk).1
    omega

theorem doRemove_thrown {index : Int} (hindex : ¬ (0 ≤ index ∧ index < w.backingList.length)) :
    doRemove extractor index w = .thrown .indexOutOfBounds w := by
  obtain ⟨x, hx⟩ := readAt_outside hindex
  rw [ObservableListWrapper.doRemove, hx]

theorem clear_good (h : Good extractor w) :
    ∃ w', clear extractor w = .done w' ∧ After extractor [] (fun _ => False) w' := by
  have detached : ∀ (elements : List (Option E)) (w : ObservableListWrapper E O),
      Tracked extractor (occurrences elements) (fun _ => True) w →
      ∃ w', Outcome.run (detachListener extractor) elements w = .done w' ∧
        Tracked extractor (occurrences []) (fun _ => True) w' := by
    intro elements
    induction elements with
    | nil => exact fun w h => ⟨w, rfl, h⟩
    | cons element rest ih =>
      intro w h
      have hpos : ∀ e, element = some e → 0 < occurrences (element :: rest) e :=
        fun e he => occurrences_pos.mpr (he ▸ List.mem_cons_self)
      obtain ⟨w1, hdone, -, hafter⟩ := h.detach hpos
      have hcounts : less (occurrences (element :: rest)) element = occurrences rest := by
        rw [occurrences_cons, less_more]
      obtain ⟨w', hrun, hfinal⟩ := ih w1 (hafter.imp hcounts (fun _ _ => trivial) rfl rfl)
      exact ⟨w', by rw [Outcome.run_cons, hdone, Outcome.bind_done, hrun], hfinal⟩
  obtain ⟨w', hrun, hfinal⟩ := detached w.backingList w (h.imp rfl (fun _ _ => trivial) rfl rfl)
  refine ⟨{ w' with backingList := [] }, ?_, rfl, ?_⟩
  · rw [clear, hrun, Outcome.map_done]
  · exact (hfinal.settle (fun _ _ => rfl)).imp rfl (fun _ hl => hl) rfl rfl

theorem addAll_good (elements : List (Option E)) (h : Good extractor w) :
    ∃ w', addAll extractor elements w = .done w' ∧ Good extractor w' := by
  apply Outcome.ends_false.mp
  apply Outcome.Ends.run _ h
  intro element _ w hw
  obtain ⟨w', hdone, hafter⟩ := hw.after.doAdd ⟨Int.natCast_nonneg _, le_rfl⟩ element
  rw [hdone]
  exact hafter.good (fun _ hl => hl.elim)

theorem addAllAt_good (elements : List (Option E)) {index : Int}
    (hindex : 0 ≤ index ∧ index ≤ w.backingList.length) (h : Good extractor w) :
    ∃ w', Outcome.run (fun (p : Option E × Int) w => doAdd extractor p.2 p.1 w)
        (elements.zip (intRange index (index + elements.length))) w = .done w' ∧ Good extractor w' := by
  induction elements generalizing index w with
  | nil => exact ⟨w, rfl, h⟩
  | cons element rest ih =>
    obtain ⟨w1, hdone, hafter⟩ := h.after.doAdd hindex element
    have hgood : Good extractor w1 := hafter.good (fun _ hl => hl.elim)
    have hlen : w1.backingList.length = w.backingList.length + 1 := by
      rw [hafter.1, List.length_insertIdx_of_le_length (by omega)]
    have hnext : 0 ≤ index + 1 ∧ index + 1 ≤ w1.backingList.length := by omega
    obtain ⟨w', hrun, hfinal⟩ := ih hnext hgood
    refine ⟨w', ?_, hfinal⟩
    have hrange : intRange index (index + (element :: rest).length) =
        index :: intRange (index + 1) (index + 1 + rest.length) := by
      rw [intRange_cons (by rw [List.length_cons]; omega)]
      congr 2
      rw [List.length_cons]
      omega
    rw [hrange, List.zip_cons_cons, Outcome.run_cons, hdone, Outcome.bind_done, hrun]

theorem removeLoop_after {i : Nat} (indices : List Int) (h : After extractor list lost w) :
    After extractor (list.take i ++ list.drop (i + indices.length))
      (fun x => lost x ∨ some x ∈ (list.drop i).take indices.length)
      (Outcome.run (fun _ w => doRemove extractor i w) indices w).state := by
  induction indices generalizing list lost w with
  | nil =>
    rw [List.length_nil, Nat.add_zero, List.take_append_drop]
    exact h.imp (fun _ hl => Or.inl hl)
  | cons index rest ih =>
    by_cases hi : i < list.length
    · obtain ⟨w1, hdone, hafter⟩ := h.doRemove hi
      have hrest := ih hafter
      have htake : (list.eraseIdx i).take i = list.take i := List.take_eraseIdx_eq_take_of_le list i i le_rfl
      have hdrop : ∀ k, (list.eraseIdx i).drop (i + k) = list.drop (i + (k + 1)) := by
        intro k
        rw [List.eraseIdx_eq_take_drop_succ, List.drop_append, List.drop_eq_nil_of_le (by simp),
          List.nil_append, List.length_take, Nat.min_eq_left (by omega), List.drop_drop]
        congr 1
        omega
      have hfirst : list.drop i = list[i] :: list.drop (i + 1) := List.drop_eq_getElem_cons hi
      rw [Outcome.run_cons, hdone, Outcome.bind_done, List.length_cons]
      rw [htake, hdrop rest.length] at hrest
      refine hrest.imp ?_
      rintro x ((hl | hx) | hx)
      · exact Or.inl hl
      · right
        rw [hfirst, List.take_succ_cons, hx]
        exact List.mem_cons_self
      · right
        have hshift := hdrop 0
        rw [Nat.add_zero] at hshift
        rw [hshift] at hx
        rw [hfirst, List.take_succ_cons]
        exact List.mem_cons_of_mem _ hx
    · have hthrown : doRemove extractor i w = .thrown .indexOutOfBounds w :=
        doRemove_thrown (by rw [h.1]; omega)
      rw [Outcome.run_cons, hthrown, Outcome.bind_thrown, List.take_of_length_le (by omega),
        List.drop_eq_nil_of_le (by omega), List.append_nil]
      exact h.imp (fun _ hl => Or.inl hl)

theorem removeMarked_after {marked : Option E → Bool} (front back : List (Option E))
    (h : After extractor (front ++ back) (fun e => marked (some e) = true) w) :
    ∃ w', Outcome.run (doRemove extractor) (positions 0 (front.map marked)).reverse w = .done w' ∧
      After extractor (front.filter (fun x => !marked x) ++ back) (fun e => marked (some e) = true) w' := by
  induction front using List.reverseRecOn generalizing back w with
  | nil => exact ⟨w, rfl, h⟩
  | append_singleton front x ih =>
    rw [List.append_assoc, List.singleton_append] at h
    rw [List.map_append, positions_append, List.length_map, Int.zero_add, List.filter_append]
    cases hx : marked x with
    | false =>
      obtain ⟨w', hrun, hafter⟩ := ih (x :: back) h
      refine ⟨w', ?_, ?_⟩
      · simp only [List.map_cons, List.map_nil, hx, positions, Bool.false_eq_true, if_false, List.append_nil]
        exact hrun
      · simpa [hx] using hafter
    | true =>
      have hlt : front.length < (front ++ x :: back).length := by simp
      obtain ⟨w1, hdone, hafter⟩ := h.doRemove hlt
      have hlist : (front ++ x :: back).eraseIdx front.length = front ++ back := by
        rw [List.eraseIdx_append_of_length_le le_rfl]
        simp
      rw [hlist] at hafter
      have hlost : After extractor (front ++ back) (fun e => marked (some e) = true) w1 := by
        apply hafter.imp
        intro e he
        rcases he with hl | he
        · exact hl
        · rw [List.getElem_append_right le_rfl] at he
          simp only [Nat.sub_self, List.getElem_cons_zero] at he
          rwa [he] at hx
      obtain ⟨w', hrun, hfinal⟩ := ih back hlost
      refine ⟨w', ?_, ?_⟩
      · simp only [List.map_cons, List.map_nil, hx, positions, if_true, List.reverse_append,
          List.reverse_cons, List.reverse_nil, List.nil_append, List.singleton_append, Outcome.run_cons]
        rw [hdone, Outcome.bind_done]
        exact hrun
      · simpa [hx] using hfinal

theorem removeMarked_good (marked : Option E → Bool) (h : Good extractor w) :
    ∃ w', removeMarked extractor marked w = .done w' ∧ Good extractor w' := by
  have hstart : After extractor (w.backingList ++ []) (fun e => marked (some e) = true) w := by
    rw [List.append_nil]
    exact h.after.imp (fun _ hl => hl.elim)
  obtain ⟨w', hrun, hafter⟩ := removeMarked_after w.backingList [] hstart
  refine ⟨w', hrun, hafter.good ?_⟩
  intro e he hmem
  rw [List.append_nil, List.mem_filter, he] at hmem
  exact absurd hmem.2 Bool.false_ne_true

end Calls

/-! ## Runs -/

/-- No element is taken out at one position and left at another. -/
def TakenWhole (taken left : List (Option E)) : Prop := ∀ e, some e ∈ taken → some e ∉ left

instance (taken left : List (Option E)) : Decidable (TakenWhole taken left) :=
  decidable_of_iff (∀ x ∈ taken, x ≠ none → x ∉ left) (by
    constructor
    · intro h e he
      exact h (some e) he (Option.some_ne_none e)
    · intro h x hx hne
      obtain ⟨e, rfl⟩ := Option.ne_none_iff_exists'.mp hne
      exact h e hx)

/-- What a mutator has to respect: an index to add at lies in the list, and an element
that is taken out occurs nowhere else. -/
def Careful (m : Mutator E) (w : ObservableListWrapper E O) : Prop :=
  match m with
  | .add index _ => 0 ≤ index ∧ index ≤ w.backingList.length
  | .set index _ => 0 ≤ index →
      TakenWhole (w.backingList[index.toNat]?).toList (w.backingList.eraseIdx index.toNat)
  | .remove index => 0 ≤ index →
      TakenWhole (w.backingList[index.toNat]?).toList (w.backingList.eraseIdx index.toNat)
  | .removeObject isEqual =>
      match w.backingList.findIdx? isEqual with
      | some i => TakenWhole (w.backingList[i]?).toList (w.backingList.eraseIdx i)
      | none => True
  | .removeRange fromIndex toIndex => 0 ≤ fromIndex →
      TakenWhole ((w.backingList.drop fromIndex.toNat).take (toIndex - fromIndex).toNat)
        (w.backingList.take fromIndex.toNat ++ w.backingList.drop (fromIndex.toNat + (toIndex - fromIndex).toNat))
  | _ => True

omit [DecidableEq E] [DecidableEq O] in
theorem careful_removeObject {isEqual : Option E → Bool} {w : ObservableListWrapper E O} :
    Careful (.removeObject isEqual) w ↔ ∀ i ∈ w.backingList.findIdx? isEqual,
      TakenWhole (w.backingList[i]?).toList (w.backingList.eraseIdx i) := by
  rw [Careful]
  cases w.backingList.findIdx? isEqual with
  | none => simp
  | some i => simp

instance decidableCareful (m : Mutator E) (w : ObservableListWrapper E O) : Decidable (Careful m w) :=
  match m with
  | .add index _ => inferInstanceAs (Decidable (0 ≤ index ∧ index ≤ w.backingList.length))
  | .set index _ => inferInstanceAs (Decidable (0 ≤ index →
      TakenWhole (w.backingList[index.toNat]?).toList (w.backingList.eraseIdx index.toNat)))
  | .remove index => inferInstanceAs (Decidable (0 ≤ index →
      TakenWhole (w.backingList[index.toNat]?).toList (w.backingList.eraseIdx index.toNat)))
  | .removeObject isEqual =>
      decidable_of_iff (∀ i ∈ w.backingList.findIdx? isEqual,
        TakenWhole (w.backingList[i]?).toList (w.backingList.eraseIdx i)) careful_removeObject.symm
  | .removeRange fromIndex toIndex => inferInstanceAs (Decidable (0 ≤ fromIndex →
      TakenWhole ((w.backingList.drop fromIndex.toNat).take (toIndex - fromIndex).toNat)
        (w.backingList.take fromIndex.toNat ++ w.backingList.drop (fromIndex.toNat + (toIndex - fromIndex).toNat))))
  | .addAll _ => isTrue trivial
  | .addAllAt _ _ => isTrue trivial
  | .removeAll _ => isTrue trivial
  | .retainAll _ => isTrue trivial
  | .setAll _ => isTrue trivial
  | .clear => isTrue trivial

theorem doRemove_good {index : Int} (h : Good extractor w) (careful : 0 ≤ index →
      TakenWhole (w.backingList[index.toNat]?).toList (w.backingList.eraseIdx index.toNat)) :
    Good extractor (doRemove extractor index w).state := by
  by_cases hindex : 0 ≤ index ∧ index < w.backingList.length
  · obtain ⟨i, rfl⟩ := Int.eq_ofNat_of_zero_le hindex.1
    have hi : i < w.backingList.length := by omega
    obtain ⟨w', hdone, hafter⟩ := h.after.doRemove hi
    rw [hdone]
    apply hafter.good
    intro e hl
    have hget : w.backingList[i] = some e := hl.resolve_left id
    apply careful hindex.1 e
    rw [Int.toNat_natCast, List.getElem?_eq_getElem hi, hget]
    exact List.mem_singleton.mpr rfl
  · rw [doRemove_thrown hindex]
    exact h

theorem doSet_good {index : Int} (element : Option E) (h : Good extractor w) (careful : 0 ≤ index →
      TakenWhole (w.backingList[index.toNat]?).toList (w.backingList.eraseIdx index.toNat)) :
    Good extractor (doSet extractor index element w).state := by
  by_cases hindex : 0 ≤ index ∧ index < w.backingList.length
  · obtain ⟨i, rfl⟩ := Int.eq_ofNat_of_zero_le hindex.1
    have hi : i < w.backingList.length := by omega
    have hlen : i ≤ (w.backingList.eraseIdx i).length := by
      rw [List.length_eraseIdx_of_lt hi]
      omega
    have hread : readAt w.backingList i = .ok w.backingList[i] := readAt_natCast w.backingList i hi
    have hpos : ∀ e, w.backingList[i] = some e → 0 < occurrences w.backingList e :=
      fun e he => occurrences_pos.mpr (he ▸ List.getElem_mem hi)
    have hset : Tracked extractor (occurrences w.backingList) (fun _ => False)
        { w with backingList := w.backingList.set i element } := h.imp rfl (fun _ hl => hl) rfl rfl
    obtain ⟨w', hdone, hback, hafter⟩ := hset.detach hpos
    rw [← occurrences_eraseIdx hi] at hafter
    -- the old element occurs nowhere else, so its entry is gone before the new one is attached
    have hgone : ∀ e, False ∨ w.backingList[i] = some e → occurrences (w.backingList.eraseIdx i) e = 0 := by
      intro e he
      apply List.count_eq_zero.mpr
      apply careful hindex.1 e
      rw [Int.toNat_natCast, List.getElem?_eq_getElem hi, he.resolve_left id]
      exact List.mem_singleton.mpr rfl
    have hcounts : more (occurrences (w.backingList.eraseIdx i)) element =
        occurrences (w.backingList.set i element) := by
      rw [← occurrences_insertIdx hlen, List.insertIdx_eraseIdx_self (Nat.ne_of_lt hi)]
    have hfinal := ((hafter.settle hgone).attach element).imp hcounts (fun _ hl => hl) rfl rfl
    have hcall : doSet extractor i element w = .done (attachListener extractor element w') := by
      rw [doSet, hread]
      dsimp only [Int.toNat_natCast]
      rw [hdone, Outcome.map_done]
    rw [hcall, Outcome.state_done, Good, attachListener_backingList, hback]
    exact hfinal
  · obtain ⟨x, hx⟩ := readAt_outside hindex
    rw [doSet, hx]
    exact h

theorem removeRange_good {fromIndex toIndex : Int} (h : Good extractor w) (careful : 0 ≤ fromIndex →
      TakenWhole ((w.backingList.drop fromIndex.toNat).take (toIndex - fromIndex).toNat)
        (w.backingList.take fromIndex.toNat ++ w.backingList.drop (fromIndex.toNat + (toIndex - fromIndex).toNat))) :
    Good extractor (removeRange extractor fromIndex toIndex w).state := by
  rw [removeRange]
  by_cases hneg : 0 ≤ fromIndex
  · obtain ⟨i, rfl⟩ := Int.eq_ofNat_of_zero_le hneg
    have hafter := removeLoop_after (i := i) (intRange i toIndex) h.after
    rw [intRange_length] at hafter
    apply hafter.good
    intro e hl
    exact careful hneg e (hl.resolve_left id)
  · cases hindices : intRange fromIndex toIndex with
    | nil => exact h
    | cons index rest =>
      rw [Outcome.run_cons, doRemove_thrown (fun hin => hneg hin.1)]
      exact h

theorem step_good {m : Mutator E} (h : Good extractor w) (careful : Careful m w) :
    Good extractor (step extractor m w) := by
  rw [step]
  cases m with
  | add index element =>
    obtain ⟨w', hdone, hafter⟩ := h.after.doAdd careful element
    rw [call, hdone]
    exact hafter.good (fun _ hl => hl.elim)
  | addAll elements =>
    obtain ⟨w', hdone, hgood⟩ := addAll_good elements h
    rw [call, hdone]
    exact hgood
  | addAllAt index elements =>
    rw [call, addAllAt]
    by_cases hindex : 0 ≤ index ∧ index ≤ w.backingList.length
    · obtain ⟨w', hdone, hgood⟩ := addAllAt_good elements hindex h
      rw [if_pos hindex, hdone]
      exact hgood
    · rw [if_neg hindex]
      exact h
  | set index element => exact doSet_good element h careful
  | remove index => exact doRemove_good h careful
  | removeObject isEqual =>
    rw [Careful] at careful
    rw [call]
    cases hfind : w.backingList.findIdx? isEqual with
    | none => exact h
    | some i =>
      rw [hfind] at careful
      exact doRemove_good h (fun _ => careful)
  | removeRange fromIndex toIndex => exact removeRange_good h careful
  | removeAll contains =>
    obtain ⟨w', hdone, hgood⟩ := removeMarked_good contains h
    rw [call, hdone]
    exact hgood
  | retainAll contains =>
    obtain ⟨w', hdone, hgood⟩ := removeMarked_good (fun element => !contains element) h
    rw [call, hdone]
    exact hgood
  | setAll elements =>
    obtain ⟨w1, hclear, hafter⟩ := clear_good h
    obtain ⟨w', hdone, hgood⟩ := addAll_good elements (hafter.good (fun _ hl => hl.elim))
    rw [call, setAll, hclear, Outcome.bind_done, hdone]
    exact hgood
  | clear =>
    obtain ⟨w', hdone, hafter⟩ := clear_good h
    rw [call, hdone]
    exact hafter.good (fun _ hl => hl.elim)

/-- Observation follows membership: an element is counted as often as it occurs, its
observables carry a listener of the wrapper for it exactly when it occurs, and then an
invalidation is reported as an update of all its positions. -/
structure Follows (extractor : E → List O) (w : ObservableListWrapper E O) : Prop where
  counted : ∀ e, w.counter e = w.backingList.count (some e)
  carried : ∀ e, ∀ o ∈ extractor e, (∃ k, ⟨e, k⟩ ∈ w.listeners o) ↔ some e ∈ w.backingList
  strays : ∀ e o k, ⟨e, k⟩ ∈ w.listeners o → some e ∈ w.backingList ∧ o ∈ extractor e
  updated : ∀ e, ∀ o ∈ extractor e, some e ∈ w.backingList →
    positions 0 (w.backingList.map (fun element => decide (element = some e))) ∈ w.updates o

theorem Good.registered (h : Good extractor w) {e : E} {o : O} (ho : o ∈ extractor e)
    (hmem : some e ∈ w.backingList) : ∃ k, ⟨e, k⟩ ∈ w.listeners o := by
  obtain ⟨el, hel, -⟩ := h.counts.present (occurrences_pos.mpr hmem)
  refine ⟨el.listener, List.count_pos_iff.mp ?_⟩
  rw [h.kept e id o el.listener, hel]
  dsimp only
  rw [if_pos rfl]
  exact List.count_pos_iff.mpr ho

theorem Good.stray (h : Good extractor w) {e : E} {o : O} {k : Nat} (hl : ⟨e, k⟩ ∈ w.listeners o) :
    some e ∈ w.backingList ∧ o ∈ extractor e := by
  have hpos : 0 < (w.listeners o).count ⟨e, k⟩ := List.count_pos_iff.mpr hl
  rw [h.kept e id o k] at hpos
  cases hel : w.elementsMap e with
  | none =>
    rw [hel] at hpos
    exact absurd hpos (Nat.lt_irrefl 0)
  | some el =>
    rw [hel] at hpos
    dsimp only at hpos
    split at hpos
    · have hcount := (h.counts e).1
      rw [counter, hel, Option.map_some, Option.getD_some] at hcount
      have := (h.counts e).2 el hel
      exact ⟨occurrences_pos.mp (by omega), List.count_pos_iff.mp hpos⟩
    · exact absurd hpos (Nat.lt_irrefl 0)

theorem Good.follows (h : Good extractor w) : Follows extractor w where
  counted e := (h.counts e).1
  carried e o ho := ⟨fun ⟨_, hl⟩ => (h.stray hl).1, h.registered ho⟩
  strays _ _ _ hl := h.stray hl
  updated e o ho hmem := by
    obtain ⟨k, hk⟩ := h.registered ho hmem
    exact List.mem_map.mpr ⟨⟨e, k⟩, hk, rfl⟩

/-- Observation follows membership in every run of mutators that take elements out
whole and add within the list. -/
theorem observation_follows_membership (extractor : E → List O) (list : List (Option E)) (ms : List (Mutator E))
    (careful : Guarded Careful (step extractor) ms (create extractor list)) :
    Follows extractor (exec (step extractor) ms (create extractor list)) := by
  have preserved : ∀ m w, Good extractor w → Careful m w → Good extractor (step extractor m w) :=
    fun m w h hm => step_good h hm
  exact (exec_invariant preserved (create_good list) careful).follows

/-- A list with one element twice: both occurrences go together. -/
theorem observation_follows_membership_twice :
    Follows (fun e : Nat => [e]) (exec (step (fun e : Nat => [e]))
      [.add 1 (some 5), .set 1 (some 6), .remove 1, .removeRange 0 2, .add 0 (some 7), .clear]
      (create (fun e : Nat => [e]) [some 7, some 7])) :=
  observation_follows_membership _ _ _ (by decide)

/-- Of two occurrences of an element one is removed: the other is no longer observed. -/
theorem remaining_occurrence_unobserved :
    let w := step (fun e : Nat => [e]) (.remove 0) (create (fun e : Nat => [e]) [some 7, some 7])
    w.backingList = [some 7] ∧ w.counter 7 = 1 ∧ w.listeners 7 = [] ∧ ¬ Follows (fun e : Nat => [e]) w := by
  refine ⟨by decide, by decide, by decide, ?_⟩
  intro follows
  obtain ⟨k, hk⟩ := (follows.carried 7 7 (by decide)).mpr (by decide)
  have hnone : (step (fun e : Nat => [e]) (.remove 0) (create (fun e : Nat => [e]) [some 7, some 7])).listeners 7 = [] := by
    decide
  rw [hnone] at hk
  exact absurd hk List.not_mem_nil

end ObservableListWrapper

end OpenJfx.Collections
