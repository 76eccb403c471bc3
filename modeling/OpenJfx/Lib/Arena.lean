import OpenJfx.Lib.Java

/-! # Arrays filled from the front

Nodes live in parallel arrays; the next free position is a counter, and full
arrays are replaced by longer ones.  A list threaded through an array of links
is the list of positions it visits. -/
set_option autoImplicit false
namespace OpenJfx.Lib

section Grow
variable {α : Type}

/-- A longer array with the first `kept` entries of the old one, unless the old
one is long enough. -/
def grow (fill : α) (capacity kept : Nat) (a : List α) : List α :=
  if a.length < capacity then a.take kept ++ List.replicate (capacity - kept) fill else a

theorem grow_length {fill : α} {capacity kept : Nat} {a : List α} (hkept : kept ≤ a.length)
    (hcapacity : kept ≤ capacity) :
    (grow fill capacity kept a).length = max a.length capacity := by
  rw [grow]
  split
  · rw [List.length_append, List.length_take, List.length_replicate]
    omega
  · omega

theorem getElem?_grow {fill : α} {capacity kept i : Nat} {a : List α} (hkept : kept ≤ a.length)
    (hi : i < kept) : (grow fill capacity kept a)[i]? = a[i]? := by
  rw [grow]
  split
  · rw [List.getElem?_append_left (by rw [List.length_take]; omega), List.getElem?_take_of_lt hi]
  · rfl

end Grow

/-! ## Threaded lists -/

/-- The positions of a list whose links are followed up to `tail`; the link of
`tail` itself is not read. -/
def Threaded (links : List Nat) (tail : Nat) : List Nat → Prop
  | [] => True
  | [p] => p = tail
  | p :: q :: rest => links[p]? = some q ∧ p ≠ tail ∧ Threaded links tail (q :: rest)

section Threaded
variable {links links' : List Nat} {tail : Nat}

theorem Threaded.congr {path : List Nat} (h : Threaded links tail path)
    (same : ∀ p ∈ path, p ≠ tail → links'[p]? = links[p]?) : Threaded links' tail path := by
  induction path with
  | nil => trivial
  | cons p rest ih =>
    cases rest with
    | nil => exact h
    | cons q rest =>
      obtain ⟨hlink, hne, hrest⟩ := h
      refine ⟨?_, hne, ih hrest (fun r hr => same r (List.mem_cons_of_mem _ hr))⟩
      rw [same p (List.mem_cons_self ..) hne, hlink]

theorem Threaded.rest {p : Nat} {path : List Nat} (h : Threaded links tail (p :: path)) :
    Threaded links tail path := by
  cases path with
  | nil => trivial
  | cons q path => exact h.2.2

theorem Threaded.tail_mem {path : List Nat} (h : Threaded links tail path) (hne : path ≠ []) :
    tail ∈ path := by
  induction path with
  | nil => exact absurd rfl hne
  | cons p rest ih =>
    cases rest with
    | nil =>
      have htail : p = tail := h
      rw [htail]
      exact List.mem_cons_self ..
    | cons q rest => exact List.mem_cons_of_mem _ (ih h.2.2 (by simp))

theorem Threaded.append {path : List Nat} {fresh : Nat} (h : Threaded links tail path)
    (hne : path ≠ []) (hfresh : fresh ∉ path)
    (same : ∀ p ∈ path, p ≠ tail → links'[p]? = links[p]?) (hlink : links'[tail]? = some fresh) :
    Threaded links' fresh (path ++ [fresh]) := by
  induction path with
  | nil => exact absurd rfl hne
  | cons p rest ih =>
    have hp : p ≠ fresh := fun heq => hfresh (heq ▸ List.mem_cons_self ..)
    cases rest with
    | nil =>
      have htail : p = tail := h
      subst htail
      exact ⟨hlink, hp, rfl⟩
    | cons q rest =>
      obtain ⟨hq, hnt, hrest⟩ := h
      refine ⟨?_, hp, ih hrest (by simp) (fun hmem => hfresh (List.mem_cons_of_mem _ hmem))
        (fun r hr => same r (List.mem_cons_of_mem _ hr))⟩
      rw [same p (List.mem_cons_self ..) hnt, hq]

end Threaded

end OpenJfx.Lib
