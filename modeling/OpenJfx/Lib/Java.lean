import OpenJfx.Lib.Outcome
import Mathlib.Data.List.Basic
import Mathlib.Tactic.Linarith

/-! # Java arrays, sets and maps as lists

An `int[]` is a list of integers with checked access; a `TreeSet<Integer>` is a
strictly increasing list; a `HashMap` is the list of its entries in insertion
order (no result below depends on the iteration order). -/
set_option autoImplicit false
namespace OpenJfx.Lib

inductive Exn where
  | illegalState
  | illegalArgument
  | nullPointer
  | indexOutOfBounds
  | arrayIndexOutOfBounds
  | negativeArraySize
  | noSuchElement
deriving DecidableEq, Repr

abbrev Byte := BitVec 8

/-- An `int` after its arithmetic. -/
def wrapInt (x : Int) : Int := x.bmod (2 ^ 32)

theorem wrapInt_of_lt {x : Int} (h0 : 0 ≤ x) (h : x < 2 ^ 31) : wrapInt x = x :=
  Int.bmod_eq_of_le (by omega) (by omega)

section Access
variable {α : Type}

def readAt (a : List α) : Int → Except Exn α
  | .ofNat i => match a[i]? with
      | some v => .ok v
      | none => .error .arrayIndexOutOfBounds
  | .negSucc _ => .error .arrayIndexOutOfBounds

def writeAt (a : List α) (i : Int) (v : α) : Except Exn (List α) :=
  match i with
  | .ofNat i => if i < a.length then .ok (a.set i v) else .error .arrayIndexOutOfBounds
  | .negSucc _ => .error .arrayIndexOutOfBounds

theorem readAt_natCast (a : List α) (i : Nat) (h : i < a.length) :
    readAt a i = .ok a[i] := by
  change readAt a (.ofNat i) = _
  simp [readAt, List.getElem?_eq_getElem h]

theorem readAt_eq_ok {a : List α} {i : Int} {v : α} (h : readAt a i = .ok v) :
    ∃ k : Nat, i = k ∧ a[k]? = some v := by
  cases i with
  | ofNat k =>
    rw [readAt] at h
    split at h
    · rename_i w hw
      exact ⟨k, rfl, by rw [hw, Except.ok.inj h]⟩
    · cases h
  | negSucc k => cases h

theorem writeAt_natCast (a : List α) (i : Nat) (v : α) (h : i < a.length) :
    writeAt a i v = .ok (a.set i v) := by
  change writeAt a (.ofNat i) v = _
  simp [writeAt, h]

end Access

/-- The loop range `for (j = lo; j < hi; ++j)`. -/
def intRange (lo hi : Int) : List Int := (List.range (hi - lo).toNat).map (fun (k : Nat) => lo + (k : Int))

@[simp] theorem mem_intRange {lo hi j : Int} : j ∈ intRange lo hi ↔ lo ≤ j ∧ j < hi := by
  simp only [intRange, List.mem_map, List.mem_range]
  constructor
  · rintro ⟨k, hk, rfl⟩
    omega
  · rintro ⟨h1, h2⟩
    exact ⟨(j - lo).toNat, by omega, by omega⟩

theorem intRange_length (lo hi : Int) : (intRange lo hi).length = (hi - lo).toNat := by
  simp [intRange]

theorem getElem?_intRange {lo hi : Int} {k : Nat} (h : lo + k < hi) :
    (intRange lo hi)[k]? = some (lo + k) := by
  rw [intRange, List.getElem?_map, List.getElem?_range (by omega), Option.map_some]

theorem intRange_of_ge {lo hi : Int} (h : hi ≤ lo) : intRange lo hi = [] := by
  rw [intRange, show (hi - lo).toNat = 0 by omega]
  rfl

theorem intRange_cons {lo hi : Int} (h : lo < hi) : intRange lo hi = lo :: intRange (lo + 1) hi := by
  have hlen : (hi - lo).toNat = (hi - (lo + 1)).toNat + 1 := by omega
  rw [intRange, hlen, List.range_succ_eq_map, List.map_cons, List.map_map, intRange]
  refine congrArg₂ List.cons (by simp) (List.map_congr_left ?_)
  intro k _
  simp only [Function.comp_apply, Nat.cast_succ]
  omega

theorem intRange_append {lo mid hi : Int} (h1 : lo ≤ mid) (h2 : mid ≤ hi) :
    intRange lo hi = intRange lo mid ++ intRange mid hi := by
  obtain ⟨n, hn⟩ : ∃ n : Nat, mid = lo + n := ⟨(mid - lo).toNat, by omega⟩
  induction n generalizing lo with
  | zero => rw [show lo = mid by omega, intRange_of_ge (le_refl mid), List.nil_append]
  | succ n ih =>
    rw [intRange_cons (by omega : lo < hi), intRange_cons (by omega : lo < mid),
      ih (by omega) (by omega), List.cons_append]

/-- `TreeSet.add`. -/
def treeAdd (x : Int) : List Int → List Int
  | [] => [x]
  | y :: ys => if x < y then x :: y :: ys else if x = y then y :: ys else y :: treeAdd x ys

def treeSet (xs : List Int) : List Int := xs.foldl (fun s x => treeAdd x s) []

theorem mem_treeAdd {x z : Int} {s : List Int} : z ∈ treeAdd x s ↔ z = x ∨ z ∈ s := by
  induction s with
  | nil => simp [treeAdd]
  | cons y ys ih =>
    rw [treeAdd]
    split
    · simp
    · split
      · rename_i h
        subst h
        simp
      · simp only [List.mem_cons, ih]
        tauto

theorem treeAdd_sorted {x : Int} {s : List Int} (h : s.Pairwise (· < ·)) :
    (treeAdd x s).Pairwise (· < ·) := by
  induction s with
  | nil => simp [treeAdd]
  | cons y ys ih =>
    obtain ⟨hy, hys⟩ := List.pairwise_cons.mp h
    rw [treeAdd]
    split
    · rename_i hlt
      refine List.pairwise_cons.mpr ⟨?_, h⟩
      intro z hz
      rcases List.mem_cons.mp hz with rfl | hz
      · exact hlt
      · exact hlt.trans (hy z hz)
    · split
      · exact h
      · refine List.pairwise_cons.mpr ⟨?_, ih hys⟩
        intro z hz
        rcases mem_treeAdd.mp hz with rfl | hz
        · omega
        · exact hy z hz

theorem treeSet_spec (xs : List Int) :
    (treeSet xs).Pairwise (· < ·) ∧ ∀ z, z ∈ treeSet xs ↔ z ∈ xs := by
  have general : ∀ (xs s : List Int), s.Pairwise (· < ·) →
      (xs.foldl (fun s x => treeAdd x s) s).Pairwise (· < ·) ∧
        ∀ z, z ∈ xs.foldl (fun s x => treeAdd x s) s ↔ z ∈ s ∨ z ∈ xs := by
    intro xs
    induction xs with
    | nil => intro s hs; exact ⟨hs, by simp⟩
    | cons x xs ih =>
      intro s hs
      obtain ⟨h1, h2⟩ := ih (treeAdd x s) (treeAdd_sorted hs)
      refine ⟨h1, ?_⟩
      intro z
      rw [List.foldl_cons, h2, mem_treeAdd, List.mem_cons]
      tauto
  obtain ⟨h1, h2⟩ := general xs [] List.Pairwise.nil
  exact ⟨h1, fun z => by rw [treeSet, h2]; simp⟩

section Map
variable {β : Type}

/-- `HashMap.put`: an existing entry for the key is overwritten. -/
def mapPut (key : Int) (value : β) : List (Int × β) → List (Int × β)
  | [] => [(key, value)]
  | (k, v) :: rest => if k = key then (key, value) :: rest else (k, v) :: mapPut key value rest

def mapGet (key : Int) : List (Int × β) → Option β
  | [] => none
  | (k, v) :: rest => if k = key then some v else mapGet key rest

theorem mapGet_mapPut (j key : Int) (value : β) (m : List (Int × β)) :
    mapGet j (mapPut key value m) = if key = j then some value else mapGet j m := by
  induction m with
  | nil => rfl
  | cons e m ih =>
    obtain ⟨k, v⟩ := e
    rw [mapPut]
    by_cases hk : k = key
    · subst hk
      rw [if_pos rfl, mapGet, mapGet]
      split
      · rfl
      · rfl
    · rw [if_neg hk, mapGet, mapGet, ih]
      by_cases hj : k = j
      · subst hj
        rw [if_pos rfl, if_neg (fun h => hk h.symm), if_pos rfl]
      · rw [if_neg hj, if_neg hj]

theorem mapGet_filter (j : Int) (q : Int → Bool) (m : List (Int × β)) :
    mapGet j (m.filter (fun e => q e.1)) = if q j then mapGet j m else none := by
  induction m with
  | nil => simp [mapGet]
  | cons e m ih =>
    obtain ⟨k, v⟩ := e
    by_cases hq : q k = true
    · rw [List.filter_cons, if_pos hq, mapGet, mapGet, ih]
      by_cases hj : k = j
      · subst hj
        rw [if_pos rfl, if_pos rfl, if_pos hq]
      · rw [if_neg hj, if_neg hj]
    · rw [List.filter_cons, if_neg hq, ih, mapGet]
      by_cases hj : k = j
      · subst hj
        rw [if_neg hq, if_neg hq]
      · rw [if_neg hj]

theorem mapGet_isSome_iff {j : Int} {m : List (Int × β)} : (mapGet j m).isSome ↔ j ∈ m.map Prod.fst := by
  induction m with
  | nil => simp [mapGet]
  | cons e m ih =>
    obtain ⟨k, v⟩ := e
    rw [mapGet, List.map_cons, List.mem_cons, ← ih]
    by_cases hj : k = j
    · subst hj
      simp
    · rw [if_neg hj]
      constructor
      · intro h
        exact Or.inr h
      · rintro (h | h)
        · exact absurd h.symm hj
        · exact h

theorem mapPut_keys_nodup {key : Int} {value : β} {m : List (Int × β)} (h : (m.map Prod.fst).Nodup) :
    ((mapPut key value m).map Prod.fst).Nodup := by
  have hkeys : (mapPut key value m).map Prod.fst = m.map Prod.fst ∨
      key ∉ m.map Prod.fst ∧ (mapPut key value m).map Prod.fst = m.map Prod.fst ++ [key] := by
    clear h
    induction m with
    | nil => exact Or.inr ⟨by simp, rfl⟩
    | cons e m ih =>
      obtain ⟨k, v⟩ := e
      rw [mapPut]
      by_cases hk : k = key
      · rw [if_pos hk, hk]
        exact Or.inl rfl
      · rw [if_neg hk]
        rcases ih with hsame | ⟨hnew, happend⟩
        · exact Or.inl (by rw [List.map_cons, hsame, List.map_cons])
        · refine Or.inr ⟨?_, by rw [List.map_cons, happend, List.map_cons, List.cons_append]⟩
          rw [List.map_cons, List.mem_cons, not_or]
          exact ⟨fun heq => hk heq.symm, hnew⟩
  rcases hkeys with hsame | ⟨hnew, happend⟩
  · rwa [hsame]
  · rw [happend]
    refine List.nodup_append.mpr ⟨h, List.pairwise_singleton _ _, ?_⟩
    intro x hx y hy heq
    rw [List.mem_singleton] at hy
    exact hnew (hy ▸ heq ▸ hx)

end Map

theorem foldlM_ok {α β : Type} {step : β → α → Except Exn β} {f : β → α → β}
    (h : ∀ b a, step b a = .ok (f b a)) (xs : List α) (b : β) :
    xs.foldlM step b = .ok (xs.foldl f b) := by
  induction xs generalizing b with
  | nil => rfl
  | cons x xs ih =>
    rw [List.foldlM_cons, h]
    exact ih _

theorem mapM_ok {α β : Type} {g : α → Except Exn β} {f : α → β} {xs : List α}
    (h : ∀ x ∈ xs, g x = .ok (f x)) : xs.mapM g = .ok (xs.map f) := by
  induction xs with
  | nil => rfl
  | cons x xs ih =>
    rw [List.mapM_cons, h x (List.mem_cons_self ..), ih (fun y hy => h y (List.mem_cons_of_mem _ hy))]
    rfl

theorem mapM_error {α β : Type} {g : α → Except Exn β} {e : Exn} {xs : List α} (fails : ∃ x ∈ xs, g x = .error e)
    (only : ∀ x ∈ xs, ∀ e', g x = .error e' → e' = e) : xs.mapM g = .error e := by
  induction xs with
  | nil =>
    obtain ⟨x, hmem, -⟩ := fails
    cases hmem
  | cons x xs ih =>
    rw [List.mapM_cons]
    cases hx : g x with
    | error e' =>
      have he : e' = e := only x (List.mem_cons_self ..) e' hx
      rw [he]
      rfl
    | ok y =>
      obtain ⟨z, hmem, hz⟩ := fails
      have hin : z ∈ xs := by
        rcases List.mem_cons.mp hmem with h | h
        · rw [h, hx] at hz
          cases hz
        · exact h
      have hrest := ih ⟨z, hin, hz⟩ (fun w hw => only w (List.mem_cons_of_mem _ hw))
      change (xs.mapM g >>= fun ys => pure (y :: ys)) = _
      rw [hrest]
      rfl

theorem readAt_outside {α : Type} {a : List α} {i : Int} (h : i < 0 ∨ i ≥ a.length) :
    readAt a i = .error .arrayIndexOutOfBounds := by
  cases i with
  | negSucc k => rfl
  | ofNat k =>
    have hlen : a.length ≤ k := by
      rcases h with h | h
      · exact absurd h (by simp)
      · exact Int.ofNat_le.mp h
    rw [readAt, List.getElem?_eq_none hlen]

theorem readAt_error {α : Type} {a : List α} {i : Int} {e : Exn} (h : readAt a i = .error e) :
    e = .arrayIndexOutOfBounds := by
  unfold readAt at h
  split at h
  · split at h
    · cases h
    · exact (Except.error.inj h).symm
  · exact (Except.error.inj h).symm

end OpenJfx.Lib
