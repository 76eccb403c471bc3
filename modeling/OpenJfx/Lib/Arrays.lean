import OpenJfx.Lib.Bisect
import OpenJfx.Lib.Java

/-! # `java.util.Arrays`, `System.arraycopy` and comparators

Arrays are lists with checked access.  The lemmas speak of an array that is cut
at the position in question, `front ++ x :: back` with the position equal to the
length of the front. -/
set_option autoImplicit false
namespace OpenJfx.Lib

section Access
variable {α : Type}

theorem readAt_split {front back : List α} {x : α} {i : Int} (h : i = front.length) :
    readAt (front ++ x :: back) i = .ok x := by
  subst h
  rw [readAt_natCast _ _ (by simp)]
  simp

theorem writeAt_split {front back : List α} {x v : α} {i : Int} (h : i = front.length) :
    writeAt (front ++ x :: back) i v = .ok (front ++ v :: back) := by
  subst h
  rw [writeAt_natCast _ _ _ (by simp), List.set_append_right _ _ le_rfl, Nat.sub_self,
    List.set_cons_zero]

theorem insertIdx_split {front back : List α} {x : α} {i : Nat} (h : i = front.length) :
    (front ++ back).insertIdx i x = front ++ x :: back := by
  subst h
  induction front with
  | nil => rfl
  | cons y front ih => rw [List.cons_append, List.length_cons, List.insertIdx_succ_cons, ih, List.cons_append]

theorem readAt_writeAt_self {a b : List α} {i : Int} {v : α} (h : writeAt a i v = .ok b) :
    readAt b i = .ok v := by
  cases i with
  | ofNat k =>
    rw [writeAt] at h
    split at h
    · rename_i hk
      cases h
      simp [readAt, hk]
    · cases h
  | negSucc k => cases h

theorem readAt_writeAt_ne {a b : List α} {i j : Int} {v : α} (h : writeAt a i v = .ok b) (hne : j ≠ i) :
    readAt b j = readAt a j := by
  cases i with
  | ofNat k =>
    rw [writeAt] at h
    split at h
    · cases h
      cases j with
      | ofNat l =>
        have hkl : k ≠ l := fun heq => hne (by rw [heq])
        simp [readAt, List.getElem?_set_ne hkl]
      | negSucc l => rfl
    · cases h
  | negSucc k => cases h

theorem writeAt_length {a b : List α} {i : Int} {v : α} (h : writeAt a i v = .ok b) :
    b.length = a.length := by
  cases i with
  | ofNat k =>
    rw [writeAt] at h
    split at h
    · cases h
      exact List.length_set
    · cases h
  | negSucc k => cases h

theorem writeAt_inside {a : List α} {i : Int} (v : α) (h0 : 0 ≤ i) (hi : i < a.length) :
    ∃ b, writeAt a i v = .ok b := by
  obtain ⟨k, rfl⟩ : ∃ k : Nat, i = k := ⟨i.toNat, by omega⟩
  exact ⟨_, writeAt_natCast a k v (by omega)⟩

theorem readAt_inside {a : List α} {i : Int} (h0 : 0 ≤ i) (hi : i < a.length) :
    ∃ v ∈ a, readAt a i = .ok v := by
  obtain ⟨k, rfl⟩ : ∃ k : Nat, i = k := ⟨i.toNat, by omega⟩
  have hk : k < a.length := by omega
  exact ⟨a[k], List.getElem_mem hk, readAt_natCast a k hk⟩

theorem mem_of_writeAt {a b : List α} {i : Int} {v w : α} (h : writeAt a i v = .ok b) (hw : w ∈ b) :
    w = v ∨ w ∈ a := by
  cases i with
  | ofNat k =>
    rw [writeAt] at h
    split at h
    · cases h
      exact (List.mem_or_eq_of_mem_set hw).symm
    · cases h
  | negSucc k => cases h

theorem eq_of_readAt {a b : List α} (hlen : a.length = b.length)
    (h : ∀ k : Nat, k < a.length → readAt a k = readAt b k) : a = b := by
  apply List.ext_getElem hlen
  intro k hk hk'
  have := h k hk
  rw [readAt_natCast _ _ hk, readAt_natCast _ _ hk'] at this
  exact Except.ok.inj this

theorem readAt_append_left {a b : List α} {i : Int} (hi : i < a.length) :
    readAt (a ++ b) i = readAt a i := by
  cases i with
  | ofNat k =>
    have hk : k < a.length := Int.ofNat_lt.mp hi
    simp only [readAt, List.getElem?_append_left hk]
  | negSucc k => rfl

theorem readAt_append_right {a b : List α} {i : Int} (hi : a.length ≤ i) :
    readAt (a ++ b) i = readAt b (i - a.length) := by
  obtain ⟨k, rfl⟩ : ∃ k : Nat, i = (a.length : Int) + k := ⟨(i - a.length).toNat, by omega⟩
  have h1 : (a.length : Int) + k = Int.ofNat (a.length + k) := rfl
  have h2 : (a.length : Int) + k - a.length = Int.ofNat k := by
    change _ = (k : Int)
    omega
  rw [h2, h1]
  simp only [readAt, List.getElem?_append_right (Nat.le_add_right _ _), Nat.add_sub_cancel_left]

/-- `System.arraycopy`; when the two arrays are one, the part to be copied is
read first. -/
def arraycopy (src : List α) (srcPos : Int) (dest : List α) (destPos length : Int) :
    Except Exn (List α) :=
  if srcPos < 0 ∨ destPos < 0 ∨ length < 0 ∨ srcPos + length > src.length ∨
      destPos + length > dest.length then .error .arrayIndexOutOfBounds
  else .ok (dest.take destPos.toNat ++ ((src.drop srcPos.toNat).take length.toNat ++
    dest.drop (destPos.toNat + length.toNat)))

theorem arraycopy_split {a b c d e f : List α} {srcPos destPos length : Int}
    (hsrc : srcPos = a.length) (hdest : destPos = d.length) (hb : length = b.length)
    (he : length = e.length) :
    arraycopy (a ++ (b ++ c)) srcPos (d ++ (e ++ f)) destPos length = .ok (d ++ (b ++ f)) := by
  subst hsrc hdest
  have hbe : b.length = e.length := by omega
  subst hb
  have hdrop : (d ++ (e ++ f)).drop (d.length + b.length) = f := by
    rw [hbe, ← List.drop_drop, List.drop_left' rfl, List.drop_left' rfl]
  rw [arraycopy, if_neg (by simp only [List.length_append]; omega)]
  simp only [Int.toNat_natCast, List.drop_left', List.take_left', hdrop]

/-- `Arrays.copyOfRange`; the positions behind the end are filled. -/
def copyOfRange (fill : α) (original : List α) (lo hi : Int) : Except Exn (List α) :=
  if lo > hi then .error .illegalArgument
  else if lo < 0 ∨ lo > original.length then .error .arrayIndexOutOfBounds
  else .ok (((original.drop lo.toNat).take (hi - lo).toNat) ++
    List.replicate ((hi - lo).toNat - (original.length - lo.toNat)) fill)

theorem copyOfRange_split {fill : α} {a b c : List α} {lo hi : Int} (hlo : lo = a.length)
    (hhi : hi = a.length + b.length) : copyOfRange fill (a ++ (b ++ c)) lo hi = .ok b := by
  subst hlo hhi
  have hlen : ((a.length : Int) + b.length - a.length).toNat = b.length := by omega
  have hrest : b.length - ((a ++ (b ++ c)).length - a.length) = 0 := by
    simp only [List.length_append]
    omega
  rw [copyOfRange, if_neg (by omega), if_neg (by simp only [List.length_append]; omega), hlen,
    Int.toNat_natCast, hrest, List.drop_left' rfl, List.take_left' rfl, List.replicate_zero,
    List.append_nil]

end Access

/-! ## Comparators -/

/-- A comparator that meets its contract: a total preorder. -/
structure Comparator (α : Type) where
  compare : α → α → Int
  swap : ∀ x y, 0 < compare x y ↔ compare y x < 0
  trans : ∀ x y z, compare x y ≤ 0 → compare y z ≤ 0 → compare x z ≤ 0

namespace Comparator
variable {α β : Type} (c : Comparator α)

/-- `compare(x, y) <= 0`. -/
def le (x y : α) : Bool := c.compare x y ≤ 0

theorem le_iff {x y : α} : c.le x y = true ↔ c.compare x y ≤ 0 := decide_eq_true_iff

theorem le_trans {x y z : α} (h1 : c.le x y = true) (h2 : c.le y z = true) : c.le x z = true :=
  c.le_iff.mpr (c.trans x y z (c.le_iff.mp h1) (c.le_iff.mp h2))

theorem le_of_gt {x y : α} (h : ¬ c.le x y = true) : c.le y x = true := by
  rw [le_iff] at h ⊢
  have := (c.swap x y).mp (by omega)
  omega

theorem le_total (x y : α) : (c.le x y || c.le y x) = true := by
  rw [Bool.or_eq_true]
  by_cases h : c.le x y = true
  · exact Or.inl h
  · exact Or.inr (c.le_of_gt h)

theorem le_refl (x : α) : c.le x x = true := by
  have := c.le_total x x
  simpa using this

/-- Comparing by a key. -/
def comap (f : β → α) : Comparator β where
  compare x y := c.compare (f x) (f y)
  swap x y := c.swap (f x) (f y)
  trans x y z := c.trans (f x) (f y) (f z)

def Sorted (xs : List α) : Prop := xs.Pairwise fun x y => c.le x y = true

instance (xs : List α) : Decidable (c.Sorted xs) :=
  inferInstanceAs (Decidable (List.Pairwise _ _))

theorem sorted_map {f : β → α} {xs : List β} : c.Sorted (xs.map f) ↔ (c.comap f).Sorted xs :=
  List.pairwise_map

theorem sorted_merge {xs ys : List α} (hx : c.Sorted xs) (hy : c.Sorted ys) :
    c.Sorted (List.merge xs ys c.le) :=
  @List.pairwise_merge α c.le (fun _ _ _ h1 h2 => c.le_trans h1 h2) (fun x y => c.le_total x y) _ _ hx hy

end Comparator

def compareInts : Comparator Int where
  compare x y := if x < y then -1 else if x = y then 0 else 1
  swap x y := by split <;> split <;> omega
  trans x y z := by split <;> split <;> split <;> omega

theorem compareInts_le {x y : Int} : compareInts.le x y = true ↔ x ≤ y := by
  rw [Comparator.le_iff]
  change (if x < y then (-1 : Int) else if x = y then 0 else 1) ≤ 0 ↔ _
  split
  · omega
  · split <;> omega

theorem compareInts_lt {x y : Int} : compareInts.compare x y < 0 ↔ x < y := by
  change (if x < y then (-1 : Int) else if x = y then 0 else 1) < 0 ↔ _
  split
  · omega
  · split <;> omega

theorem compareInts_gt {x y : Int} : compareInts.compare x y > 0 ↔ y < x := by
  rw [gt_iff_lt, compareInts.swap, compareInts_lt]

/-! ## `Arrays.binarySearch` -/

section Search
variable {α : Type} (c : Comparator α)

def searchProbe (a : List α) (key : α) (i : Nat) : Ordering :=
  match a[i]? with
  | some x => if c.compare x key < 0 then .lt else if c.compare x key > 0 then .gt else .eq
  | none => .gt

def binarySearch (a : List α) (key : α) : Int := bisect (searchProbe c a key) a.length

/-- `pos < 0 ? ~pos : pos`. -/
def insertionPoint : Int → Nat
  | .ofNat k => k
  | .negSucc k => k

theorem searchProbe_getElem {a : List α} {key : α} {i : Nat} (h : i < a.length) :
    searchProbe c a key i =
      if c.compare a[i] key < 0 then .lt else if c.compare a[i] key > 0 then .gt else .eq := by
  rw [searchProbe, List.getElem?_eq_getElem h]

theorem binarySearch_hit {a : List α} {key : α} {m : Nat} (h : binarySearch c a key = .ofNat m) :
    ∃ hm : m < a.length, c.compare a[m] key = 0 := by
  obtain ⟨hm, hprobe⟩ := bisect_hit _ _ _ h
  refine ⟨hm, ?_⟩
  rw [searchProbe_getElem c hm] at hprobe
  split at hprobe
  · cases hprobe
  · split at hprobe
    · cases hprobe
    · omega

theorem Comparator.Sorted.getElem_le {a : List α} (sorted : c.Sorted a) {i j : Nat} (hi : i < a.length)
    (hj : j < a.length) (hij : i ≤ j) : c.le a[i] a[j] = true := by
  rcases Nat.lt_or_eq_of_le hij with hlt | rfl
  · exact List.pairwise_iff_getElem.mp sorted i j hi hj hlt
  · exact c.le_refl _

theorem binarySearch_miss {a : List α} (sorted : c.Sorted a) {key : α} {k : Nat}
    (h : binarySearch c a key = .negSucc k) :
    k ≤ a.length ∧ (∀ i, (hi : i < a.length) → i < k → c.compare a[i] key < 0) ∧
      ∀ i, (hi : i < a.length) → k ≤ i → c.compare a[i] key > 0 := by
  have hlt : ∀ i, (hi : i < a.length) → searchProbe c a key i = .lt → c.compare a[i] key < 0 := by
    intro i hi hprobe
    rw [searchProbe_getElem c hi] at hprobe
    by_contra hno
    rw [if_neg hno] at hprobe
    split at hprobe
    · cases hprobe
    · cases hprobe
  have hgt : ∀ i, (hi : i < a.length) → searchProbe c a key i = .gt → c.compare a[i] key > 0 := by
    intro i hi hprobe
    rw [searchProbe_getElem c hi] at hprobe
    by_contra hno
    rw [if_neg hno] at hprobe
    split at hprobe
    · cases hprobe
    · cases hprobe
  -- the probe answers `.lt` first and `.gt` last
  have hlow : ∀ i j, i < j → j < a.length → searchProbe c a key j = .lt →
      searchProbe c a key i = .lt := by
    intro i j hij hj hprobe
    have hi : i < a.length := by omega
    have hkey : ¬ c.le key a[j] = true := by
      rw [Comparator.le_iff]
      have := (c.swap key a[j]).mpr (hlt j hj hprobe)
      omega
    have hno : ¬ c.le key a[i] = true := fun h => hkey (c.le_trans h (sorted.getElem_le c hi hj hij.le))
    rw [Comparator.le_iff] at hno
    rw [searchProbe_getElem c hi, if_pos ((c.swap key a[i]).mp (by omega))]
  have hhigh : ∀ i j, i < j → j < a.length → searchProbe c a key i = .gt →
      searchProbe c a key j = .gt := by
    intro i j hij hj hprobe
    have hi : i < a.length := by omega
    have higt : ¬ c.le a[i] key = true := by
      rw [Comparator.le_iff]
      have := hgt i hi hprobe
      omega
    have hno : ¬ c.le a[j] key = true := fun h => higt (c.le_trans (sorted.getElem_le c hi hj hij.le) h)
    rw [Comparator.le_iff] at hno
    rw [searchProbe_getElem c hj, if_neg (by omega), if_pos (by omega)]
  obtain ⟨hk, hbefore, hbehind⟩ := bisect_miss _ _ k hlow hhigh h
  exact ⟨hk, fun i hi hik => hlt i hi (hbefore i hik), fun i hi hki => hgt i hi (hbehind i hki hi)⟩

end Search

end OpenJfx.Lib
