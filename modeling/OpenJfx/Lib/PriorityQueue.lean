import Mathlib.Data.List.Perm.Basic

/-! # The binary heap of `java.util.PriorityQueue`

The heap is a list in the order of its array.  The comparator is an arbitrary function:
whatever it answers, the queue gives back the elements that were added, each once. -/
set_option autoImplicit false
namespace OpenJfx.Lib.PriorityQueue
variable {α : Type}

/-- `x` goes up from the free place `k`. -/
def siftUp (compare : α → α → Int) (x : α) (k : Nat) (queue : List α) : List α :=
  if _hk : 0 < k then
    match queue[(k - 1) / 2]? with
    | none => queue.set k x
    | some e =>
        if compare x e ≥ 0 then queue.set k x
        else siftUp compare x ((k - 1) / 2) (queue.set k e)
  else queue.set k x
termination_by k
decreasing_by omega

def smallerChild (compare : α → α → Int) (k : Nat) (queue : List α) : Option (Nat × α) :=
  match queue[2 * k + 1]? with
  | none => none
  | some c => match queue[2 * k + 2]? with
      | none => some (2 * k + 1, c)
      | some right => if compare c right > 0 then some (2 * k + 2, right) else some (2 * k + 1, c)

theorem smallerChild_spec {compare : α → α → Int} {k child : Nat} {queue : List α} {c : α}
    (h : smallerChild compare k queue = some (child, c)) : k < child ∧ queue[child]? = some c := by
  rw [smallerChild] at h
  split at h
  · cases h
  · rename_i c' hc
    split at h
    · cases h
      exact ⟨by omega, hc⟩
    · rename_i right hright
      split at h
      · cases h
        exact ⟨by omega, hright⟩
      · cases h
        exact ⟨by omega, hc⟩

/-- `x` goes down from the free place `k`. -/
def siftDown (compare : α → α → Int) (x : α) (k : Nat) (queue : List α) : List α :=
  match _hchild : smallerChild compare k queue with
  | none => queue.set k x
  | some (child, c) =>
      if compare x c ≤ 0 then queue.set k x
      else siftDown compare x child (queue.set k c)
termination_by queue.length - k
decreasing_by
  have hspec := smallerChild_spec _hchild
  have hlt := (List.getElem?_eq_some_iff.mp hspec.2).1
  rw [List.length_set]
  omega

def offer (compare : α → α → Int) (x : α) (queue : List α) : List α :=
  siftUp compare x queue.length (queue ++ [x])

def poll (compare : α → α → Int) (first : α) (rest : List α) : α × List α :=
  (first, match rest.getLast? with
    | none => []
    | some x => siftDown compare x 0 (first :: rest).dropLast)

/-! ## Nothing is lost -/

theorem set_move_perm {queue : List α} {k j : Nat} {e : α} (x : α) (hk : k < queue.length) (hj : queue[j]? = some e)
    (hne : j ≠ k) : ((queue.set k e).set j x).Perm (queue.set k x) := by
  obtain ⟨hlt, hget⟩ := List.getElem?_eq_some_iff.mp hj
  have hswap := @List.set_set_perm _ (queue.set k x) k j (by rw [List.length_set]; exact hk) (by rw [List.length_set]; exact hlt)
  rw [List.getElem_set_self, List.getElem_set_ne (Ne.symm hne), hget, List.set_set] at hswap
  exact hswap

theorem siftUp_perm (compare : α → α → Int) (x : α) (k : Nat) (queue : List α) (h : k < queue.length) :
    (siftUp compare x k queue).Perm (queue.set k x) := by
  fun_induction siftUp compare x k queue with
  | case1 k queue hpos hnone => exact List.Perm.refl _
  | case2 k queue hpos e hget hge => exact List.Perm.refl _
  | case3 k queue hpos e hget hge ih =>
    refine (ih (by rw [List.length_set]; omega)).trans ?_
    exact set_move_perm x h hget (by omega)
  | case4 k queue hpos => exact List.Perm.refl _

theorem siftDown_perm (compare : α → α → Int) (x : α) (k : Nat) (queue : List α) (h : k < queue.length) :
    (siftDown compare x k queue).Perm (queue.set k x) := by
  fun_induction siftDown compare x k queue with
  | case1 k queue hnone => exact List.Perm.refl _
  | case2 k queue child c hchild hle => exact List.Perm.refl _
  | case3 k queue child c hchild hle ih =>
    obtain ⟨hlt, hget⟩ := smallerChild_spec hchild
    have hbound := (List.getElem?_eq_some_iff.mp hget).1
    refine (ih (by rw [List.length_set]; exact hbound)).trans ?_
    exact set_move_perm x h hget (by omega)

theorem offer_perm (compare : α → α → Int) (x : α) (queue : List α) : (offer compare x queue).Perm (x :: queue) := by
  have hset : (queue ++ [x]).set queue.length x = queue ++ [x] := by
    rw [List.set_append_right _ _ (Nat.le_refl _), Nat.sub_self]
    rfl
  have hsift := siftUp_perm compare x queue.length (queue ++ [x]) (by rw [List.length_append]; exact Nat.lt_succ_self _)
  rw [hset] at hsift
  exact hsift.trans (List.perm_append_singleton x queue)

theorem foldl_offer_perm (compare : α → α → Int) (xs queue : List α) :
    (xs.foldl (fun q x => offer compare x q) queue).Perm (queue ++ xs) := by
  induction xs generalizing queue with
  | nil => rw [List.foldl_nil, List.append_nil]
  | cons x xs ih =>
    rw [List.foldl_cons]
    refine (ih _).trans (((offer_perm compare x queue).append_right xs).trans ?_)
    exact List.perm_middle.symm

theorem poll_perm (compare : α → α → Int) (first : α) (rest : List α) :
    (poll compare first rest).2.Perm rest := by
  rw [poll]
  cases hlast : rest.getLast? with
  | none => rw [List.getLast?_eq_none_iff.mp hlast]
  | some x =>
    obtain ⟨front, hfront⟩ := List.getLast?_eq_some_iff.mp hlast
    subst hfront
    dsimp only
    rw [← List.cons_append, List.dropLast_concat]
    refine (siftDown_perm compare x 0 (first :: front) (Nat.succ_pos _)).trans ?_
    exact (List.perm_append_singleton x front).symm

/-! ## The smallest element comes first

`key` says what the comparator compares; the comparator is right about the
elements of which `U` holds. -/

/-- The key of the element at `i`. -/
def rank (key : α → Int) (queue : List α) (i : Nat) : Int := (queue[i]?.map key).getD 0

def IsHeap (key : α → Int) (queue : List α) : Prop :=
  ∀ i, 0 < i → i < queue.length → rank key queue ((i - 1) / 2) ≤ rank key queue i

/-- The comparator is right about some elements. -/
def Compares (compare : α → α → Int) (key : α → Int) (U : α → Prop) : Prop :=
  ∀ x y, U x → U y → (compare x y).sign = (key x - key y).sign

section Heap
variable {compare : α → α → Int} {key : α → Int} {U : α → Prop}

theorem rank_of_get {queue : List α} {i : Nat} {x : α} (h : queue[i]? = some x) : rank key queue i = key x := by
  rw [rank, h]
  rfl

theorem rank_set_self {queue : List α} {k : Nat} (x : α) (h : k < queue.length) : rank key (queue.set k x) k = key x :=
  rank_of_get (List.getElem?_set_self h)

theorem rank_set_ne {queue : List α} {k i : Nat} (x : α) (h : i ≠ k) : rank key (queue.set k x) i = rank key queue i := by
  rw [rank, rank, List.getElem?_set_ne (Ne.symm h)]

theorem Compares.le_iff (h : Compares compare key U) {x y : α} (hx : U x) (hy : U y) : compare x y ≤ 0 ↔ key x ≤ key y := by
  have hsign := h x y hx hy
  rw [← Int.sign_nonpos_iff, hsign, Int.sign_nonpos_iff]
  omega

theorem Compares.ge_iff (h : Compares compare key U) {x y : α} (hx : U x) (hy : U y) : compare x y ≥ 0 ↔ key y ≤ key x := by
  have hsign := h x y hx hy
  rw [ge_iff_le, ← Int.sign_nonneg_iff, hsign, Int.sign_nonneg_iff]
  omega

theorem forall_mem_set {queue : List α} (hU : ∀ y ∈ queue, U y) {x : α} (hx : U x) (k : Nat) : ∀ y ∈ queue.set k x, U y := by
  intro y hy
  rcases List.mem_or_eq_of_mem_set hy with hmem | rfl
  · exact hU y hmem
  · exact hx

/-- What `siftUp` starts from: `x` fits in front of what is below the free place, and only
what is above it may be larger. -/
structure Rises (key : α → Int) (x : α) (k : Nat) (queue : List α) : Prop where
  other : ∀ i, 0 < i → i < queue.length → i ≠ k → (i - 1) / 2 ≠ k → rank key queue ((i - 1) / 2) ≤ rank key queue i
  grand : 0 < k → ∀ i, 0 < i → i < queue.length → (i - 1) / 2 = k → rank key queue ((k - 1) / 2) ≤ rank key queue i
  below : ∀ i, 0 < i → i < queue.length → (i - 1) / 2 = k → key x ≤ rank key queue i

theorem Rises.settle {x : α} {k : Nat} {queue : List α} (h : Rises key x k queue) (hk : k < queue.length)
    (habove : 0 < k → rank key queue ((k - 1) / 2) ≤ key x) : IsHeap key (queue.set k x) := by
  intro i hi hlt
  rw [List.length_set] at hlt
  by_cases hik : i = k
  · subst hik
    rw [rank_set_self x hk, rank_set_ne x (by omega)]
    exact habove hi
  · rw [rank_set_ne x hik]
    by_cases hparent : (i - 1) / 2 = k
    · rw [hparent, rank_set_self x hk]
      exact h.below i hi hlt hparent
    · rw [rank_set_ne x hparent]
      exact h.other i hi hlt hik hparent

theorem Rises.move {x e : α} {k : Nat} {queue : List α} (h : Rises key x k queue) (hpos : 0 < k) (hk : k < queue.length)
    (he : queue[(k - 1) / 2]? = some e) (hlt : key x < key e) : Rises key x ((k - 1) / 2) (queue.set k e) := by
  have hrank : rank key queue ((k - 1) / 2) = key e := rank_of_get he
  refine ⟨fun i hi hi' hne hparent => ?_, fun hpos' i hi hi' hparent => ?_, fun i hi hi' hparent => ?_⟩
  · rw [List.length_set] at hi'
    have hik : i ≠ k := fun heq => hparent (by rw [heq])
    rw [rank_set_ne e hik]
    by_cases hbelow : (i - 1) / 2 = k
    · rw [hbelow, rank_set_self e hk, ← hrank]
      exact h.grand hpos i hi hi' hbelow
    · rw [rank_set_ne e hbelow]
      exact h.other i hi hi' hik hbelow
  · rw [List.length_set] at hi'
    rw [rank_set_ne e (by omega)]
    have hup : rank key queue (((k - 1) / 2 - 1) / 2) ≤ rank key queue ((k - 1) / 2) :=
      h.other _ hpos' (by omega) (by omega) (by omega)
    by_cases hik : i = k
    · rw [hik, rank_set_self e hk, ← hrank]
      exact hup
    · rw [rank_set_ne e hik]
      have hsibling := h.other i hi hi' hik (by omega)
      rw [hparent] at hsibling
      omega
  · rw [List.length_set] at hi'
    by_cases hik : i = k
    · rw [hik, rank_set_self e hk]
      omega
    · rw [rank_set_ne e hik]
      have hsibling := h.other i hi hi' hik (by omega)
      rw [hparent, hrank] at hsibling
      omega

theorem siftUp_heap (hcmp : Compares compare key U) {x : α} {k : Nat} {queue : List α} (hx : U x)
    (hU : ∀ y ∈ queue, U y) (hk : k < queue.length) (h : Rises key x k queue) : IsHeap key (siftUp compare x k queue) := by
  fun_induction siftUp compare x k queue with
  | case1 k queue hpos hnone =>
    rw [List.getElem?_eq_none_iff] at hnone
    omega
  | case2 k queue hpos e hget hge =>
    have he := (hcmp.ge_iff hx (hU e (List.mem_of_getElem? hget))).mp hge
    exact h.settle hk fun _ => by rw [rank_of_get hget]; exact he
  | case3 k queue hpos e hget hge ih =>
    have hmem := hU e (List.mem_of_getElem? hget)
    have hlt : key x < key e := by
      by_contra hle
      exact hge ((hcmp.ge_iff hx hmem).mpr (by omega))
    exact ih (forall_mem_set hU hmem k) (by rw [List.length_set]; omega) (h.move hpos hk hget hlt)
  | case4 k queue hpos => exact h.settle hk fun hpos' => absurd hpos' hpos

theorem offer_heap (hcmp : Compares compare key U) {x : α} {queue : List α} (hx : U x) (hU : ∀ y ∈ queue, U y)
    (h : IsHeap key queue) : IsHeap key (offer compare x queue) := by
  have hlength : (queue ++ [x]).length = queue.length + 1 := by simp
  have hfront : ∀ i, i < queue.length → rank key (queue ++ [x]) i = rank key queue i := by
    intro i hi
    rw [rank, rank, List.getElem?_append_left hi]
  refine siftUp_heap hcmp hx ?_ (by omega) ⟨fun i hi hlt hne _ => ?_, fun _ i hi hlt hparent => ?_, fun i hi hlt hparent => ?_⟩
  · intro y hy
    rcases List.mem_append.mp hy with hmem | hmem
    · exact hU y hmem
    · rw [List.mem_singleton.mp hmem]
      exact hx
  · rw [hfront i (by omega), hfront _ (by omega)]
    exact h i hi (by omega)
  · omega
  · omega

/-- What `siftDown` starts from. -/
structure Sinks (key : α → Int) (x : α) (k : Nat) (queue : List α) : Prop where
  other : ∀ i, 0 < i → i < queue.length → i ≠ k → (i - 1) / 2 ≠ k → rank key queue ((i - 1) / 2) ≤ rank key queue i
  grand : 0 < k → ∀ i, 0 < i → i < queue.length → (i - 1) / 2 = k → rank key queue ((k - 1) / 2) ≤ rank key queue i
  above : 0 < k → rank key queue ((k - 1) / 2) ≤ key x

theorem Sinks.settle {x : α} {k : Nat} {queue : List α} (h : Sinks key x k queue) (hk : k < queue.length)
    (hbelow : ∀ i, 0 < i → i < queue.length → (i - 1) / 2 = k → key x ≤ rank key queue i) : IsHeap key (queue.set k x) :=
  Rises.settle ⟨h.other, h.grand, hbelow⟩ hk h.above

theorem Sinks.move {x c : α} {k child : Nat} {queue : List α} (h : Sinks key x k queue) (hk : k < queue.length)
    (hchild : (child - 1) / 2 = k) (hpos : 0 < child) (hc : queue[child]? = some c) (hlt : key c < key x)
    (hmin : ∀ i, 0 < i → i < queue.length → (i - 1) / 2 = k → key c ≤ rank key queue i) :
    Sinks key x child (queue.set k c) := by
  have hrank : rank key queue child = key c := rank_of_get hc
  have hbound : child < queue.length := (List.getElem?_eq_some_iff.mp hc).1
  refine ⟨fun i hi hi' hne hparent => ?_, fun _ i hi hi' hparent => ?_, fun _ => ?_⟩
  · rw [List.length_set] at hi'
    by_cases hik : i = k
    · subst hik
      rw [rank_set_self c hk, rank_set_ne c (by omega), ← hrank]
      exact h.grand hi child hpos hbound hchild
    · rw [rank_set_ne c hik]
      by_cases hbelow : (i - 1) / 2 = k
      · rw [hbelow, rank_set_self c hk]
        exact hmin i hi hi' hbelow
      · rw [rank_set_ne c hbelow]
        exact h.other i hi hi' hik hbelow
  · rw [List.length_set] at hi'
    rw [hchild, rank_set_self c hk, rank_set_ne c (by omega), ← hrank, ← hparent]
    exact h.other i hi hi' (by omega) (by omega)
  · rw [hchild, rank_set_self c hk]
    omega

theorem smallerChild_min (hcmp : Compares compare key U) {k : Nat} {queue : List α} (hU : ∀ y ∈ queue, U y) :
    (smallerChild compare k queue = none → queue.length ≤ 2 * k + 1) ∧
    ∀ child c, smallerChild compare k queue = some (child, c) → (child - 1) / 2 = k ∧ 0 < child ∧
      ∀ i, 0 < i → i < queue.length → (i - 1) / 2 = k → key c ≤ rank key queue i := by
  rw [smallerChild]
  cases hleft : queue[2 * k + 1]? with
  | none => exact ⟨fun _ => List.getElem?_eq_none_iff.mp hleft, fun _ _ h => by cases h⟩
  | some l =>
    refine ⟨fun h => ?_, fun child c h => ?_⟩
    · simp only at h
      split at h
      · cases h
      · split at h
        · cases h
        · cases h
    · cases hright : queue[2 * k + 2]? with
      | none =>
        simp only [hright] at h
        cases h
        have hlen := List.getElem?_eq_none_iff.mp hright
        refine ⟨by omega, by omega, fun i hi hlt hparent => ?_⟩
        obtain rfl : i = 2 * k + 1 := by omega
        exact Int.le_of_eq (rank_of_get hleft).symm
      | some r =>
        simp only [hright] at h
        have hle := hcmp.le_iff (hU l (List.mem_of_getElem? hleft)) (hU r (List.mem_of_getElem? hright))
        have hmin : ∀ c, key c ≤ key l → key c ≤ key r → ∀ i, 0 < i → i < queue.length → (i - 1) / 2 = k →
            key c ≤ rank key queue i := by
          intro c hl hr i hi hlt hparent
          rcases (by omega : i = 2 * k + 1 ∨ i = 2 * k + 2) with rfl | rfl
          · rw [rank_of_get hleft]
            exact hl
          · rw [rank_of_get hright]
            exact hr
        split at h
        case isTrue hgt =>
          cases h
          exact ⟨by omega, by omega, hmin _ (by have := mt hle.mpr (by omega); omega) (Int.le_refl _)⟩
        case isFalse hgt =>
          cases h
          exact ⟨by omega, by omega, hmin _ (Int.le_refl _) (hle.mp (by omega))⟩

theorem siftDown_heap (hcmp : Compares compare key U) {x : α} {k : Nat} {queue : List α} (hx : U x)
    (hU : ∀ y ∈ queue, U y) (hk : k < queue.length) (h : Sinks key x k queue) : IsHeap key (siftDown compare x k queue) := by
  fun_induction siftDown compare x k queue with
  | case1 k queue hnone =>
    have hlen := (smallerChild_min hcmp hU).1 hnone
    exact h.settle hk fun i hi hlt hparent => by omega
  | case2 k queue child c hchild hle =>
    obtain ⟨-, -, hmin⟩ := (smallerChild_min hcmp hU).2 child c hchild
    have hc := hU c (List.mem_of_getElem? (smallerChild_spec hchild).2)
    have hkey := (hcmp.le_iff hx hc).mp hle
    exact h.settle hk fun i hi hlt hparent => Int.le_trans hkey (hmin i hi hlt hparent)
  | case3 k queue child c hchild hle ih =>
    obtain ⟨hparent, hpos, hmin⟩ := (smallerChild_min hcmp hU).2 child c hchild
    have hget := (smallerChild_spec hchild).2
    have hmem := hU c (List.mem_of_getElem? hget)
    have hlt : key c < key x := by
      by_contra hge
      exact hle ((hcmp.le_iff hx hmem).mpr (by omega))
    have hbound := (List.getElem?_eq_some_iff.mp hget).1
    exact ih (forall_mem_set hU hmem k) (by rw [List.length_set]; exact hbound)
      (h.move hk hparent hpos hget hlt hmin)

theorem poll_heap (hcmp : Compares compare key U) {first : α} {rest : List α} (hU : ∀ y ∈ first :: rest, U y)
    (h : IsHeap key (first :: rest)) : IsHeap key (poll compare first rest).2 := by
  rw [poll]
  cases hlast : rest.getLast? with
  | none => exact fun i hi hlt => absurd hlt (by simp)
  | some x =>
    obtain ⟨front, hfront⟩ := List.getLast?_eq_some_iff.mp hlast
    subst hfront
    dsimp only
    rw [← List.cons_append, List.dropLast_concat]
    have hrank : ∀ i, i < (first :: front).length → rank key (first :: (front ++ [x])) i = rank key (first :: front) i := by
      intro i hi
      rw [← List.cons_append, rank, rank, List.getElem?_append_left hi]
    refine siftDown_heap hcmp (hU x (by simp)) (fun y hy => hU y ?_) (Nat.succ_pos _)
      ⟨fun i hi hlt _ _ => ?_, fun hpos => absurd hpos (by omega), fun hpos => absurd hpos (by omega)⟩
    · rw [← List.cons_append]
      exact List.mem_append_left _ hy
    · rw [← hrank i hlt, ← hrank _ (by omega)]
      exact h i hi (by rw [← List.cons_append, List.length_append]; omega)

theorem IsHeap.first_le {first : α} {rest : List α} (h : IsHeap key (first :: rest)) : ∀ y ∈ rest, key first ≤ key y := by
  have hroot : ∀ i, i < (first :: rest).length → key first ≤ rank key (first :: rest) i := by
    intro i
    induction i using Nat.strongRecOn with
    | ind i ih =>
      intro hi
      by_cases hzero : i = 0
      · subst hzero
        exact Int.le_refl _
      · exact Int.le_trans (ih ((i - 1) / 2) (by omega) (by omega)) (h i (by omega) hi)
  intro y hy
  obtain ⟨i, hi, hget⟩ := List.mem_iff_getElem.mp hy
  have hlt : i + 1 < (first :: rest).length := by
    rw [List.length_cons]
    omega
  have hrank : rank key (first :: rest) (i + 1) = key y := by
    refine rank_of_get ?_
    rw [List.getElem?_cons_succ, List.getElem?_eq_getElem hi, hget]
  rw [← hrank]
  exact hroot (i + 1) hlt

end Heap

end OpenJfx.Lib.PriorityQueue
