import Mathlib
import OpenJfx.Collections.ObservableIntegerArrayImpl
import OpenJfx.Lib.Slices

/-! # An observable integer array is a sequence

`Call.effect` says what a call is for: it is an operation on a sequence of numbers, which knows
no capacity, no stale places and no overflow, and has no result when its arguments are bad.
`setAll` with an index and a length is the one call that does not abide by it. -/
set_option autoImplicit false
namespace OpenJfx.Collections.ObservableIntegerArrayImpl
open OpenJfx.Lib

def State.content (s : State) : List Int := s.array.take s.size.toNat

structure State.Valid (s : State) : Prop where
  size_nonneg : 0 ≤ s.size
  size_le : s.size ≤ s.array.length
  capacity : (s.array.length : Int) < 2 ^ 31

def IsInt (x : Int) : Prop := -2 ^ 31 ≤ x ∧ x < 2 ^ 31

namespace Source

/-- The elements of an argument; `xs` are those of the array itself. -/
def content (xs : List Int) : Source → Option (List Int)
  | .null => none
  | .ints src => some src
  | .self => some xs
  | .other src => some src.content

/-- Arrays have an `int` as their length. -/
def Given : Source → Prop
  | .null => True
  | .ints src => (src.length : Int) < 2 ^ 31
  | .self => True
  | .other src => src.Valid

end Source

namespace Call

def Given : Call → Prop
  | .addAll src => src.Given
  | .addAllRange src srcIndex length => src.Given ∧ IsInt srcIndex ∧ IsInt length
  | .setAll src => src.Given
  | .setAllRange src srcIndex length => src.Given ∧ IsInt srcIndex ∧ IsInt length
  | .set destIndex src srcIndex length => src.Given ∧ IsInt destIndex ∧ IsInt srcIndex ∧ IsInt length
  | .setAt index value => IsInt index ∧ IsInt value
  | .resize newSize => IsInt newSize
  | .clear => True
  | .ensureCapacity capacity => IsInt capacity
  | .trimToSize => True
  | .copyTo srcIndex dest destIndex length => dest.Given ∧ IsInt srcIndex ∧ IsInt destIndex ∧ IsInt length
  | .toArray _ => True
  | .toArrayRange index _ length => IsInt index ∧ IsInt length

end Call

/-! ## Operations on sequences -/

/-- A sequence cannot be longer than an array. -/
def append (xs zs : List Int) : Option (List Int) :=
  if (xs.length : Int) + zs.length < 2 ^ 31 then some (xs ++ zs) else none

def resized (newSize : Int) (xs : List Int) : Option (List Int) :=
  if newSize < 0 then none else some (xs.take newSize.toNat ++ List.replicate (newSize.toNat - xs.length) 0)

/-- `zs` in `dest` when they fit, else in a new array. -/
def fitted (dest : Option (List Int)) (zs : List Int) : List Int :=
  match dest with
  | none => zs
  | some dest => if zs.length ≤ dest.length then zs ++ dest.drop zs.length else zs

def Source.slice (xs : List Int) (srcIndex length : Int) (src : Source) : Option (List Int) :=
  (src.content xs).bind fun a => Lib.slice a srcIndex length

/-- The sequence after a call, with the elements of a destination other than the array itself. -/
def Call.effect (xs : List Int) : Call → Option (List Int × Option (List Int))
  | .addAll src => ((src.content xs).bind (append xs)).map (·, none)
  | .addAllRange src srcIndex length => ((src.slice xs srcIndex length).bind (append xs)).map (·, none)
  | .setAll src => (src.content xs).map (·, none)
  | .setAllRange src srcIndex length => (src.slice xs srcIndex length).map (·, none)
  | .set destIndex src srcIndex length => ((src.slice xs srcIndex length).bind (overwrite xs destIndex)).map (·, none)
  | .setAt index value => (overwrite xs index [value]).map (·, none)
  | .resize newSize => (resized newSize xs).map (·, none)
  | .clear => some ([], none)
  | .ensureCapacity _ => some (xs, none)
  | .trimToSize => some (xs, none)
  | .copyTo _ .null _ _ => none
  | .copyTo srcIndex (.ints dest) destIndex length =>
      ((slice xs srcIndex length).bind (overwrite dest destIndex)).map (xs, some ·)
  | .copyTo srcIndex .self destIndex length =>
      ((slice xs srcIndex length).bind (overwrite xs destIndex)).map (·, none)
  | .copyTo srcIndex (.other dest) destIndex length =>
      ((slice xs srcIndex length).bind (overwrite dest.content destIndex)).map (xs, some ·)
  | .toArray dest => some (xs, some (fitted dest xs))
  | .toArrayRange index dest length => (slice xs index length).map fun zs => (xs, some (fitted dest zs))

/-- The reported range has every position at which the two sequences differ, as far as it is a
position of the new one. -/
def ArrayChange.Covers (e : ArrayChange) (xs ys : List Int) : Prop :=
  (e.sizeChanged = true ↔ xs.length ≠ ys.length) ∧
    ∀ k : Nat, k < ys.length → xs[k]? ≠ ys[k]? → e.fromIdx ≤ k ∧ k < e.toIdx

/-- A call that reports nothing has changed nothing. -/
def Reports (s t : State) : Prop :=
  t.fired = s.fired ∧ t.content = s.content ∨ ∃ e, t.fired = s.fired ++ [e] ∧ e.Covers s.content t.content

/-- The call has exactly the effect of the operation on the sequence, and reports it. -/
def Performs (c : Call) (s : State) : Prop :=
  ∃ xs dest t, c.effect s.content = some (xs, dest) ∧ c.make s = .done (t, dest) ∧ t.size = xs.length ∧
    t.content = xs ∧ Reports s t

/-- The call throws and leaves the sequence as it was. -/
def Refuses (c : Call) (s : State) : Prop :=
  ∃ x t dest, c.make s = .thrown x (t, dest) ∧ t.size = s.size ∧ t.content = s.content ∧ t.fired = s.fired

def Conforms (c : Call) (s : State) : Prop := Performs c s ∨ Refuses c s

/-- `setAll` from somewhere else, with an index and a length whose sum wraps. -/
def Overruns (c : Call) (s : State) : Prop :=
  match c with
  | .setAllRange src srcIndex length =>
      (src ≠ .null ∧ src ≠ .self) ∧ 0 ≤ srcIndex ∧ 0 ≤ length ∧ 2 ^ 31 ≤ srcIndex + length ∧ s.size ≠ 0
  | _ => False

/-- What is proved of a call: only calls that are no operation are refused. -/
def Settles (c : Call) (s : State) : Prop :=
  (Performs c s ∨ c.effect s.content = none ∧ Refuses c s) ∧ (c.step s).Valid

/-! ## The invariant -/

structure Unchanged (s t : State) : Prop where
  size : t.size = s.size
  content : t.content = s.content
  fired : t.fired = s.fired
  valid : t.Valid

/-- The sequence is `xs` now, and the change from `s` was reported. -/
structure Changed (s : State) (xs : List Int) (t : State) : Prop where
  size : t.size = xs.length
  content : t.content = xs
  reports : Reports s t
  valid : t.Valid

def Meets (s : State) (spec : Option (List Int)) (o : Outcome Thrown State) : Prop :=
  match spec with
  | some xs => ∃ t, o = .done t ∧ Changed s xs t
  | none => ∃ x t, o = .thrown x t ∧ Unchanged s t

namespace State

theorem Valid.content_length {s : State} (hs : s.Valid) : (s.content.length : Int) = s.size := by
  have := hs.size_nonneg
  have := hs.size_le
  rw [content, List.length_take]
  omega

def stale (s : State) : List Int := s.array.drop s.size.toNat

theorem array_eq (s : State) : s.array = s.content ++ s.stale := (List.take_append_drop _ _).symm

theorem content_of_array {xs stale : List Int} {t : State} (harray : t.array = xs ++ stale)
    (hsize : t.size = xs.length) : t.content = xs := by
  rw [content, harray, hsize, Int.toNat_natCast, List.take_left]

theorem valid_of_array {xs stale : List Int} {t : State} (harray : t.array = xs ++ stale) (hsize : t.size = xs.length)
    (hlen : (t.array.length : Int) < 2 ^ 31) : t.Valid := by
  refine ⟨by omega, ?_, hlen⟩
  rw [harray, hsize, List.length_append]
  omega

end State

theorem Unchanged.refl {s : State} (hs : s.Valid) : Unchanged s s := ⟨rfl, rfl, rfl, hs⟩

theorem Unchanged.of_array {s t : State} (hs : s.Valid) {stale : List Int} (harray : t.array = s.content ++ stale)
    (hsize : t.size = s.size) (hfired : t.fired = s.fired) (hlen : (t.array.length : Int) < 2 ^ 31) : Unchanged s t := by
  have hcontent : t.size = s.content.length := by rw [hsize, hs.content_length]
  exact ⟨hsize, State.content_of_array harray hcontent, hfired, State.valid_of_array harray hcontent hlen⟩

theorem Changed.of_array {s t : State} {xs stale : List Int} {e : ArrayChange} (harray : t.array = xs ++ stale)
    (hsize : t.size = xs.length) (hlen : (t.array.length : Int) < 2 ^ 31) (hfired : t.fired = s.fired ++ [e])
    (hcovers : e.Covers s.content xs) : Changed s xs t := by
  have hcontent : t.content = xs := State.content_of_array harray hsize
  refine ⟨hsize, hcontent, Or.inr ⟨e, hfired, ?_⟩, State.valid_of_array harray hsize hlen⟩
  rwa [hcontent]

theorem Unchanged.changed {s t : State} (hs : s.Valid) (h : Unchanged s t) : Changed s s.content t :=
  ⟨by rw [h.size, hs.content_length], h.content, Or.inl ⟨h.fired, h.content⟩, h.valid⟩

theorem Meets.thrown {s t : State} {x : Thrown} (h : Unchanged s t) : Meets s none (.thrown x t) := ⟨x, t, rfl, h⟩

theorem Meets.done {s t : State} {xs : List Int} (h : Changed s xs t) : Meets s (some xs) (.done t) := ⟨t, rfl, h⟩

theorem meets_attempt {s s' : State} {stored : List Int → State} {result : Except Exn (List Int)}
    {spec : Option (List Int)} {array : List Int → List Int} (hresult : result.toOption = spec.map array)
    (hkept : Unchanged s s') (hstored : ∀ xs, spec = some xs → Changed s xs (stored (array xs))) :
    Meets s spec (attempt s' stored result) := by
  cases spec with
  | none =>
    obtain ⟨x, hx⟩ := toOption_eq_none hresult
    rw [hx]
    exact Meets.thrown hkept
  | some xs =>
    rw [toOption_eq_some hresult]
    exact Meets.done (hstored xs rfl)

/-! ## Range checks -/

theorem wrapInt_add {a b : Int} (ha : IsInt a) (hb : IsInt b) :
    wrapInt (a + b) = a + b ∨ 2 ^ 31 ≤ a + b ∧ wrapInt (a + b) < 0 ∨ a + b < -2 ^ 31 ∧ 0 ≤ wrapInt (a + b) := by
  obtain ⟨ha0, ha1⟩ := ha
  obtain ⟨hb0, hb1⟩ := hb
  rw [wrapInt, Int.bmod_def]
  omega

namespace State

theorem rangeCheck_bind {s : State} {size : Int} {result : Except Exn (List Int)} :
    (s.rangeCheck size >>= fun _ => result).toOption = if size > s.size then none else result.toOption := by
  rw [rangeCheck]
  split
  · rfl
  · rfl

theorem slice_checked {s : State} (hs : s.Valid) (i length : Int) :
    (if wrapInt (i + length) > s.size then none else slice s.array i length) = slice s.content i length := by
  have hsize := hs.content_length
  have hle := hs.size_le
  have hcap := hs.capacity
  by_cases hin : 0 ≤ i ∧ 0 ≤ length ∧ i + length ≤ s.array.length
  · rw [wrapInt_of_lt (by omega) (by omega)]
    split
    · rw [slice_outside (by omega)]
    · rw [s.array_eq]
      exact slice_append_left (by omega)
  · rw [slice_outside hin, slice_outside (by omega), ite_self]

theorem copyTo_toOption {s : State} (hs : s.Valid) (i : Int) (dest : List Int) (d length : Int) :
    (s.copyTo i dest d length).toOption = (slice s.content i length).bind (overwrite dest d) := by
  rw [copyTo, rangeCheck_bind, arraycopy_toOption, ← slice_checked hs]
  split
  · rfl
  · rfl

theorem ensureCapacity_unchanged {s : State} (hs : s.Valid) {capacity : Int} (hcapacity : capacity < 2 ^ 31) :
    Unchanged s (s.ensureCapacity capacity) ∧ capacity ≤ (s.ensureCapacity capacity).array.length := by
  rw [ensureCapacity]
  split
  · rename_i hlt
    have hlen : ((s.array ++ List.replicate (capacity.toNat - s.array.length) 0).length : Int) = capacity := by
      rw [List.length_append, List.length_replicate]
      omega
    have harray : s.array ++ List.replicate (capacity.toNat - s.array.length) 0 =
        s.content ++ (s.stale ++ List.replicate (capacity.toNat - s.array.length) 0) := by
      rw [← List.append_assoc, ← s.array_eq]
    exact ⟨Unchanged.of_array hs harray rfl rfl (by rw [hlen]; exact hcapacity), le_of_eq hlen.symm⟩
  · exact ⟨Unchanged.refl hs, by omega⟩

theorem hugeCapacity_spec {minCapacity : Int} (h0 : 0 ≤ minCapacity) (h1 : minCapacity < 2 ^ 31) :
    ∃ capacity, hugeCapacity minCapacity = some capacity ∧ minCapacity ≤ capacity ∧ capacity < 2 ^ 31 := by
  rw [hugeCapacity, if_neg (by omega), MAX_ARRAY_SIZE]
  split
  · exact ⟨_, rfl, by omega, by omega⟩
  · exact ⟨_, rfl, by omega, by omega⟩

theorem grownCapacity_spec (oldCapacity : Int) {minCapacity : Int} (h0 : 0 ≤ minCapacity) (h1 : minCapacity < 2 ^ 31) :
    ∃ capacity, grownCapacity oldCapacity minCapacity = some capacity ∧ minCapacity ≤ capacity ∧ capacity < 2 ^ 31 := by
  obtain ⟨newCapacity, hle, hnew⟩ : ∃ newCapacity, minCapacity ≤ newCapacity ∧ grownCapacity oldCapacity minCapacity =
      if newCapacity > MAX_ARRAY_SIZE then hugeCapacity minCapacity else some newCapacity := by
    refine ⟨_, ?_, rfl⟩
    split
    · exact le_refl _
    · omega
  rw [hnew]
  by_cases hhuge : newCapacity > MAX_ARRAY_SIZE
  · rw [if_pos hhuge]
    exact hugeCapacity_spec h0 h1
  · rw [if_neg hhuge]
    rw [MAX_ARRAY_SIZE] at hhuge
    exact ⟨newCapacity, rfl, hle, by omega⟩

theorem growCapacity_spec {s : State} (hs : s.Valid) {length : Int} (h0 : 0 ≤ length) (h1 : length < 2 ^ 31) :
    s.size + length < 2 ^ 31 ∧
        (∃ t, s.growCapacity length = .done t ∧ Unchanged s t ∧ s.size + length ≤ t.array.length) ∨
      2 ^ 31 ≤ s.size + length ∧ s.growCapacity length = .thrown .outOfMemoryError s := by
  have hsize0 := hs.size_nonneg
  have hsize := hs.size_le
  have hcap := hs.capacity
  by_cases hfits : s.size + length < 2 ^ 31
  · refine Or.inl ⟨hfits, ?_⟩
    have hmin : wrapInt (s.size + length) = s.size + length := wrapInt_of_lt (by omega) hfits
    rw [growCapacity, hmin]
    split
    · obtain ⟨newCapacity, hnew, hle, hlt⟩ := grownCapacity_spec s.array.length (by omega) hfits
      obtain ⟨hkept, hroom⟩ := ensureCapacity_unchanged hs hlt
      rw [hnew]
      exact ⟨_, rfl, hkept, hle.trans hroom⟩
    · exact ⟨s, if_neg (by omega), Unchanged.refl hs, by omega⟩
  · refine Or.inr ⟨by omega, ?_⟩
    have hmin : wrapInt (s.size + length) < 0 := by
      rw [wrapInt, Int.bmod_def]
      omega
    rw [growCapacity, if_neg (by omega), if_pos ⟨by omega, hmin⟩]

end State

namespace Source

theorem copyTo_toOption {src : Source} {this : State} (hsrc : src.Given) (hthis : this.Valid) (i : Int) (dest : List Int)
    (d length : Int) :
    (src.copyTo this i dest d length).toOption = (src.slice this.content i length).bind (overwrite dest d) := by
  cases src with
  | null => rfl
  | ints src => exact arraycopy_toOption src dest i d length
  | self => exact State.copyTo_toOption hthis i dest d length
  | other src => exact State.copyTo_toOption hsrc i dest d length

theorem size_cases {src : Source} {this : State} (hsrc : src.Given) (hthis : this.Valid) :
    src.content this.content = none ∧ (∃ x, src.size this = .error x) ∨
      ∃ xs, src.content this.content = some xs ∧ src.size this = .ok xs.length ∧ (xs.length : Int) < 2 ^ 31 := by
  have hlength : ∀ {s : State}, s.Valid → (s.content.length : Int) = s.size ∧ s.size < 2 ^ 31 := fun {s} hs => by
    have := hs.size_le
    have := hs.capacity
    exact ⟨hs.content_length, by omega⟩
  cases src with
  | null => exact Or.inl ⟨rfl, _, rfl⟩
  | ints src => exact Or.inr ⟨src, rfl, rfl, hsrc⟩
  | self =>
    obtain ⟨hsize, hlt⟩ := hlength hthis
    exact Or.inr ⟨_, rfl, by rw [hsize]; rfl, by rw [hsize]; exact hlt⟩
  | other src =>
    obtain ⟨hsize, hlt⟩ := hlength hsrc
    exact Or.inr ⟨_, rfl, by rw [hsize]; rfl, by rw [hsize]; exact hlt⟩

theorem slice_eq_content {src : Source} {xs a : List Int} (h : src.content xs = some a) :
    src.slice xs 0 a.length = some a := by
  rw [Source.slice, h]
  exact slice_all a

theorem slice_length {src : Source} {xs zs : List Int} {i length : Int} (h : src.slice xs i length = some zs) :
    (zs.length : Int) = length := by
  obtain ⟨a, -, hslice⟩ := Option.bind_eq_some_iff.mp h
  exact (slice_inside hslice).2.1

theorem rangeCheck_eq {src : Source} {this : State} {size : Int} (h : src.size this = .ok size) (i length : Int) :
    src.rangeCheck this i length = if i < 0 ∨ wrapInt (i + length) > size then .error .arrayIndexOutOfBounds
      else if length < 0 then .error .arrayIndexOutOfBounds else .ok () := by
  rw [rangeCheck, h]
  rfl

theorem rangeCheck_cases {src : Source} {this : State} (hsrc : src.Given) (hthis : this.Valid) {i length : Int}
    (hi : IsInt i) (hl : IsInt length) :
    (∃ x, src.rangeCheck this i length = .error x) ∧ src.slice this.content i length = none ∨
      src.rangeCheck this i length = .ok () ∧ 0 ≤ i ∧ 0 ≤ length ∧
        ∃ a, src.content this.content = some a ∧ wrapInt (i + length) ≤ a.length := by
  rw [Source.slice]
  rcases size_cases hsrc hthis with ⟨hcontent, x, hsize⟩ | ⟨a, hcontent, hsize, -⟩
  · rw [hcontent, rangeCheck, hsize]
    exact Or.inl ⟨⟨x, rfl⟩, rfl⟩
  · rw [hcontent, Option.bind_some, rangeCheck_eq hsize]
    have hwrap := wrapInt_add hi hl
    by_cases hend : i < 0 ∨ wrapInt (i + length) > a.length
    · rw [if_pos hend]
      exact Or.inl ⟨⟨_, rfl⟩, slice_outside (by omega)⟩
    · rw [if_neg hend]
      by_cases hneg : length < 0
      · rw [if_pos hneg]
        exact Or.inl ⟨⟨_, rfl⟩, slice_outside (by omega)⟩
      · rw [if_neg hneg]
        exact Or.inr ⟨rfl, by omega, by omega, a, rfl, by omega⟩

end Source

theorem ArrayChange.Covers.of_take {e : ArrayChange} {xs ys : List Int} {n : Nat}
    (hsize : e.sizeChanged = true ↔ xs.length ≠ ys.length) (hfrom : e.fromIdx = n) (hto : e.toIdx = ys.length)
    (htake : xs.take n = ys.take n) : e.Covers xs ys := by
  refine ⟨hsize, fun k hk hne => ⟨?_, by omega⟩⟩
  by_contra hlt
  apply hne
  have hkn : k < n := by omega
  rw [← List.getElem?_take_of_lt hkn, htake, List.getElem?_take_of_lt hkn]

namespace State

theorem resize_meets {s : State} (hs : s.Valid) {newSize : Int} (hint : IsInt newSize) :
    Meets s (resized newSize s.content) (s.resize newSize) := by
  rw [resize, resized]
  by_cases hneg : newSize < 0
  · rw [if_pos hneg, if_pos hneg]
    exact Meets.thrown (Unchanged.refl hs)
  · rw [if_neg hneg, if_neg hneg]
    obtain ⟨hkept, hroom⟩ := ensureCapacity_unchanged hs hint.2
    have hlength := hs.content_length
    have hcap := hkept.valid.capacity
    have hmin : (min s.size newSize).toNat = min s.content.length newSize.toNat := by omega
    have hfront : (s.ensureCapacity newSize).array.take (min s.size newSize).toNat = s.content.take newSize.toNat := by
      rw [(s.ensureCapacity newSize).array_eq, hkept.content, hmin,
        List.take_append_of_le_length (Nat.min_le_left _ _), List.take_eq_take_iff]
      omega
    have hzeros : newSize.toNat - (min s.size newSize).toNat = newSize.toNat - s.content.length := by omega
    have hlen : (s.content.take newSize.toNat ++ List.replicate (newSize.toNat - s.content.length) (0 : Int)).length =
        newSize.toNat := by
      rw [List.length_append, List.length_take, List.length_replicate]
      omega
    have harray : (s.ensureCapacity newSize).array.take (min s.size newSize).toNat ++
        (List.replicate (newSize.toNat - (min s.size newSize).toNat) 0 ++
          (s.ensureCapacity newSize).array.drop newSize.toNat) =
        (s.content.take newSize.toNat ++ List.replicate (newSize.toNat - s.content.length) 0) ++
          (s.ensureCapacity newSize).array.drop newSize.toNat := by
      rw [hfront, hzeros, List.append_assoc]
    have htake : s.content.take (min s.size newSize).toNat = (s.content.take newSize.toNat ++
        List.replicate (newSize.toNat - s.content.length) 0).take (min s.size newSize).toNat := by
      rw [List.take_append_of_le_length (by rw [List.length_take]; omega), List.take_take]
      congr 1
      omega
    have hcovers : ArrayChange.Covers ⟨decide (s.size ≠ newSize), min s.size newSize, newSize⟩ s.content
        (s.content.take newSize.toNat ++ List.replicate (newSize.toNat - s.content.length) 0) := by
      have hsize0 := hs.size_nonneg
      refine ArrayChange.Covers.of_take ?_ ?_ ?_ htake
      · rw [decide_eq_true_iff, hlen]
        omega
      · change min s.size newSize = _
        omega
      · rw [hlen]
        change newSize = _
        omega
    apply Meets.done
    refine Changed.of_array harray ?_ ?_ ?_ hcovers
    · change newSize = _
      rw [hlen]
      omega
    · change ((_ ++ _ : List Int).length : Int) < _
      rw [harray, List.length_append, hlen, List.length_drop]
      omega
    · change (s.ensureCapacity newSize).fired ++ _ = _
      rw [hkept.fired]

theorem append_fits {xs zs : List Int} (h : (xs.length : Int) + zs.length < 2 ^ 31) : append xs zs = some (xs ++ zs) :=
  if_pos h

theorem append_long {xs zs : List Int} (h : 2 ^ 31 ≤ (xs.length : Int) + zs.length) : append xs zs = none :=
  if_neg (not_lt.mpr h)

theorem addAllInternal_meets {src : Source} {s : State} (hsrc : src.Given) (hs : s.Valid) {i length : Int}
    (h0 : 0 ≤ length) (h1 : length < 2 ^ 31) :
    Meets s ((src.slice s.content i length).bind (append s.content)) (s.addAllInternal src i length) := by
  have hsize := hs.content_length
  rw [addAllInternal]
  rcases growCapacity_spec hs h0 h1 with ⟨hfits, t, hgrow, hkept, hroom⟩ | ⟨hlong, hgrow⟩
  · rw [hgrow, Outcome.bind_done]
    have htlen : (t.array.length : Int) = s.content.length + t.stale.length := by
      rw [t.array_eq, List.length_append, hkept.content, Nat.cast_add]
    have hcap := hkept.valid.capacity
    have htsize := hkept.size
    have hsize0 := hs.size_nonneg
    refine @meets_attempt s t _ _ _ (fun xs => xs ++ t.stale.drop (xs.length - s.content.length)) ?_ hkept ?_
    · rw [Source.copyTo_toOption hsrc hkept.valid, hkept.content]
      cases hslice : src.slice s.content i length with
      | none => rfl
      | some zs =>
        have hzs := Source.slice_length hslice
        have hover : overwrite t.array t.size zs = some (s.content ++ zs ++ t.stale.drop zs.length) := by
          rw [t.array_eq, hkept.content, hkept.size, ← hsize]
          exact overwrite_end (by omega)
        rw [Option.bind_some, Option.bind_some, hover, append_fits (by omega), Option.map_some, List.length_append,
          Nat.add_sub_cancel_left]
    · intro xs hxs
      obtain ⟨zs, hslice, happend⟩ := Option.bind_eq_some_iff.mp hxs
      have hzs := Source.slice_length hslice
      rw [append_fits (by omega)] at happend
      cases happend
      have hwrap : wrapInt (t.size + length) = t.size + length := wrapInt_of_lt (by omega) (by omega)
      have hlen : (((s.content ++ zs ++ t.stale.drop ((s.content ++ zs).length - s.content.length)).length : Nat) : Int) <
          2 ^ 31 := by
        simp only [List.length_append, List.length_drop]
        omega
      have hfired : t.fired ++ [⟨decide (length ≠ 0), wrapInt (wrapInt (t.size + length) - length),
          wrapInt (t.size + length)⟩] = s.fired ++ [⟨decide (length ≠ 0), t.size, t.size + length⟩] := by
        rw [hwrap, Int.add_sub_cancel, wrapInt_of_lt (by omega) (by omega), hkept.fired]
      refine Changed.of_array rfl ?_ hlen hfired ?_
      · change wrapInt (t.size + length) = _
        rw [hwrap, List.length_append]
        omega
      · apply @ArrayChange.Covers.of_take _ _ _ s.content.length
        · rw [decide_eq_true_iff, List.length_append]
          omega
        · exact hkept.size.trans hsize.symm
        · change t.size + length = _
          rw [List.length_append]
          omega
        · rw [List.take_left, List.take_length]
  · rw [hgrow, Outcome.bind_thrown]
    have hspec : (src.slice s.content i length).bind (append s.content) = none := by
      cases hslice : src.slice s.content i length with
      | none => rfl
      | some zs =>
        have hzs := Source.slice_length hslice
        rw [Option.bind_some, append_long (by omega)]
    rw [hspec]
    exact Meets.thrown (Unchanged.refl hs)

end State

theorem attempt_error {α β : Type} {s : β} {stored : α → β} {result : Except Exn α} {x : Exn} (h : result = .error x) :
    attempt s stored result = .thrown (.exception x) s := by
  rw [h]
  rfl

theorem attempt_ok {α β : Type} {s : β} {stored : α → β} {result : Except Exn α} {a : α} (h : result = .ok a) :
    attempt s stored result = .done (stored a) := by
  rw [h]
  rfl

theorem Source.slice_other {src : Source} (h : src ≠ .self) (xs ys : List Int) {i length : Int} :
    src.slice xs i length = src.slice ys i length := by
  cases src with
  | null => rfl
  | ints src => rfl
  | self => exact absurd rfl h
  | other src => rfl

namespace State

theorem filled {s t : State} {zs : List Int} {size : Int} (hsize : s.size = size) (hzs : zs.length ≤ t.array.length)
    (hcap : (t.array.length : Int) < 2 ^ 31) (hs : s.Valid) (hfired : t.fired = s.fired) :
    Changed s zs (fireChange (decide (size ≠ zs.length)) 0 zs.length
      { t with array := zs ++ t.array.drop zs.length, size := zs.length }) := by
  have hlen : ((zs ++ t.array.drop zs.length).length : Int) < 2 ^ 31 := by
    rw [List.length_append, List.length_drop]
    omega
  refine Changed.of_array rfl rfl hlen (congrArg (· ++ _) hfired) ?_
  apply @ArrayChange.Covers.of_take _ _ _ 0
  · have := hs.content_length
    rw [decide_eq_true_iff]
    omega
  · rfl
  · rfl
  · rfl

theorem setAllInternal_self {s : State} (hs : s.Valid) {i length : Int} (hi : 0 ≤ i) (hl : 0 ≤ length)
    (hint : IsInt length) (hcheck : wrapInt (i + length) ≤ s.size) :
    Meets s (slice s.content i length) (s.setAllInternal .self i length) := by
  have hsize := hs.content_length
  rw [setAllInternal, if_pos rfl]
  by_cases hzero : i = 0
  · subst hzero
    have hle : length ≤ s.content.length := by
      rw [Int.zero_add, wrapInt_of_lt hl hint.2] at hcheck
      omega
    have hspec : slice s.content 0 length = resized length s.content := by
      rw [slice_start hl hle, resized, if_neg (by omega), Nat.sub_eq_zero_of_le (by omega), List.replicate_zero,
        List.append_nil]
    rw [if_pos rfl, hspec]
    exact resize_meets hs hint
  · rw [if_neg hzero]
    refine @meets_attempt s s _ _ _ (fun zs => zs ++ s.array.drop zs.length) ?_ (Unchanged.refl hs) ?_
    · have hslice : slice s.array i length = slice s.content i length := by
        rw [← slice_checked hs, if_neg (by omega)]
      rw [arraycopy_toOption, hslice]
      cases hzs : slice s.content i length with
      | none => rfl
      | some zs =>
        have hin := slice_inside hzs
        have hle := hs.size_le
        exact overwrite_start (by omega)
    · intro zs hzs
      obtain ⟨-, hlength, -⟩ := slice_inside hzs
      subst hlength
      have hin := slice_inside hzs
      have hle := hs.size_le
      exact filled rfl (by omega) hs.capacity hs rfl

theorem setAllInternal_other {src : Source} {s : State} (hsrc : src.Given) (hs : s.Valid) {i length : Int}
    (hl : 0 ≤ length) (hint : length < 2 ^ 31) (hself : src ≠ .self) :
    match src.slice s.content i length with
    | some zs => ∃ t, s.setAllInternal src i length = .done t ∧ Changed s zs t
    | none => ∃ x t, s.setAllInternal src i length = .thrown x t ∧ Unchanged { s with size := 0 } t := by
  have hempty : State.Valid { s with size := 0 } := ⟨le_refl _, by simp, hs.capacity⟩
  obtain ⟨hkept, hroom⟩ := ensureCapacity_unchanged hempty hint
  have hcopy := Source.copyTo_toOption hsrc hkept.valid i (ensureCapacity length { s with size := 0 }).array 0 length
  rw [Source.slice_other hself _ s.content] at hcopy
  rw [setAllInternal, if_neg hself]
  cases hslice : src.slice s.content i length with
  | none =>
    rw [hslice] at hcopy
    obtain ⟨x, hx⟩ := toOption_eq_none hcopy
    exact ⟨.exception x, _, attempt_error hx, hkept⟩
  | some zs =>
    have hlength := Source.slice_length hslice
    subst hlength
    rw [hslice, Option.bind_some, overwrite_start (by omega)] at hcopy
    exact ⟨_, attempt_ok (toOption_eq_some hcopy), filled rfl (by omega) hkept.valid.capacity hs hkept.fired⟩

theorem content_lt {s : State} (hs : s.Valid) : (s.content.length : Int) < 2 ^ 31 := by
  rw [hs.content_length]
  exact lt_of_le_of_lt hs.size_le hs.capacity

theorem overwritten {s : State} (hs : s.Valid) {d : Int} {zs ys : List Int} (h : overwrite s.content d zs = some ys) :
    Changed s ys (fireChange false d (wrapInt (d + zs.length)) { s with array := ys ++ s.stale }) := by
  obtain ⟨h0, hend⟩ := overwrite_inside h
  have hlength := overwrite_length h
  have hlt := content_lt hs
  have hcap := hs.capacity
  rw [s.array_eq, List.length_append, ← hlength, ← List.length_append] at hcap
  refine Changed.of_array rfl ?_ hcap rfl ⟨?_, ?_⟩
  · rw [hlength]
    exact hs.content_length.symm
  · simp [hlength]
  · intro k _ hne
    rw [wrapInt_of_lt (by omega) (by omega)]
    exact overwrite_frame h hne

theorem overwrite_checked {s : State} (hs : s.Valid) (d : Int) (zs : List Int) :
    (if wrapInt (d + zs.length) > s.size then none else overwrite s.array d zs) =
      (overwrite s.content d zs).map (· ++ s.stale) := by
  have hsize := hs.content_length
  have hle := hs.size_le
  by_cases hin : 0 ≤ d ∧ d + zs.length ≤ s.array.length
  · have hcap := hs.capacity
    rw [wrapInt_of_lt (by omega) (by omega)]
    split
    · rw [overwrite_outside (by omega)]
      rfl
    · rw [s.array_eq]
      exact overwrite_append_left (by omega)
  · rw [overwrite_outside hin, overwrite_outside (by omega), ite_self]
    rfl

theorem set_meets {src : Source} {s : State} (hsrc : src.Given) (hs : s.Valid) (d i length : Int) :
    Meets s ((src.slice s.content i length).bind (overwrite s.content d)) (s.set d src i length) := by
  refine @meets_attempt s s _ _ _ (· ++ s.stale) ?_ (Unchanged.refl hs) ?_
  · rw [rangeCheck_bind, Source.copyTo_toOption hsrc hs]
    cases hslice : src.slice s.content i length with
    | none => simp
    | some zs =>
      rw [← Source.slice_length hslice]
      exact overwrite_checked hs d zs
  · intro ys hys
    obtain ⟨zs, hslice, hover⟩ := Option.bind_eq_some_iff.mp hys
    rw [← Source.slice_length hslice]
    exact overwritten hs hover

theorem setAt_meets {s : State} (hs : s.Valid) (index value : Int) :
    Meets s (overwrite s.content index [value]) (s.setAt index value) := by
  refine @meets_attempt s s _ _ _ (· ++ s.stale) ?_ (Unchanged.refl hs) ?_
  · rw [rangeCheck_bind, writeAt_toOption]
    exact overwrite_checked hs index [value]
  · intro ys hys
    exact overwritten hs hys

theorem copyToObservable_meets {s dest : State} (hs : s.Valid) (hdest : dest.Valid) (i d length : Int) :
    Meets dest ((slice s.content i length).bind (overwrite dest.content d)) (s.copyToObservable i dest d length) := by
  rw [copyToObservable, rangeCheck, ← slice_checked hs]
  by_cases hend : wrapInt (i + length) > s.size
  · rw [if_pos hend, if_pos hend]
    exact Meets.thrown (Unchanged.refl hdest)
  · rw [if_neg hend, if_neg hend]
    exact @set_meets (.ints s.array) _ hs.capacity hdest d i length

theorem copy_fitted (a : List Int) (index length : Int) (dest : Option (List Int)) :
    (destination dest length >>= fun dest => arraycopy a index dest 0 length).toOption =
      (slice a index length).map (fitted dest) := by
  cases hslice : slice a index length with
  | none =>
    cases destination dest length with
    | error x => rfl
    | ok chosen =>
      change (arraycopy a index chosen 0 length).toOption = none
      rw [arraycopy_toOption, hslice]
      rfl
  | some zs =>
    have hlength := (slice_inside hslice).2.1
    subst hlength
    have hcopy : ∀ d : List Int, zs.length ≤ d.length →
        (arraycopy a index d 0 zs.length).toOption = some (zs ++ d.drop zs.length) := fun d hd => by
      rw [arraycopy_toOption, hslice, Option.bind_some, overwrite_start hd]
    have hnew : (newArray zs.length >>= fun d => arraycopy a index d 0 zs.length).toOption = some zs := by
      have hzeros := hcopy (List.replicate zs.length 0) (by simp)
      rw [List.drop_replicate, Nat.sub_self, List.replicate_zero, List.append_nil] at hzeros
      rw [newArray, if_neg (by omega)]
      exact hzeros
    rw [Option.map_some]
    cases dest with
    | none => exact hnew
    | some dest =>
      rw [destination, fitted]
      by_cases hfits : zs.length ≤ dest.length
      · rw [if_pos hfits, if_neg (by omega)]
        exact hcopy dest hfits
      · rw [if_neg hfits, if_pos (by omega)]
        exact hnew

theorem slice_elements {s : State} (hs : s.Valid) : slice s.array 0 s.size = some s.content := by
  have hsize := hs.content_length
  rw [← hsize, s.array_eq, slice_append_left (by omega)]
  exact slice_all s.content

theorem trimToSize_meets {s : State} (hs : s.Valid) : Meets s (some s.content) s.trimToSize := by
  rw [trimToSize]
  split
  · refine @meets_attempt s s _ _ _ id ?_ (Unchanged.refl hs) ?_
    · have hcopy := copy_fitted s.array 0 s.size none
      rw [slice_elements hs] at hcopy
      exact hcopy
    · intro xs hxs
      cases hxs
      apply Unchanged.changed hs
      exact Unchanged.of_array hs (List.append_nil _).symm rfl rfl (content_lt hs)
  · exact Meets.done ((Unchanged.refl hs).changed hs)

theorem toArray_toOption {s : State} (hs : s.Valid) (dest : Option (List Int)) :
    (s.toArray dest).toOption = some (fitted dest s.content) := by
  rw [toArray, copy_fitted, slice_elements hs, Option.map_some]

theorem toArrayRange_toOption {s : State} (hs : s.Valid) (index : Int) (dest : Option (List Int)) (length : Int) :
    (s.toArrayRange index dest length).toOption = (slice s.content index length).map (fitted dest) := by
  rw [toArrayRange, rangeCheck_bind, copy_fitted, ← slice_checked hs]
  split
  · rfl
  · rfl

end State

/-! ## Calls -/

namespace State

theorem addAll_meets {src : Source} {s : State} (hsrc : src.Given) (hs : s.Valid) :
    Meets s ((src.content s.content).bind (append s.content)) (s.addAll src) := by
  rw [addAll]
  rcases Source.size_cases hsrc hs with ⟨hcontent, x, hsize⟩ | ⟨a, hcontent, hsize, hlt⟩
  · rw [hcontent, hsize]
    exact Meets.thrown (Unchanged.refl hs)
  · have hmeets := addAllInternal_meets (i := 0) hsrc hs (Int.natCast_nonneg a.length) hlt
    rw [Source.slice_eq_content hcontent, Option.bind_some] at hmeets
    rwa [hsize, hcontent, Option.bind_some]

theorem addAllRange_meets {src : Source} {s : State} (hsrc : src.Given) (hs : s.Valid) {i length : Int} (hi : IsInt i)
    (hl : IsInt length) :
    Meets s ((src.slice s.content i length).bind (append s.content)) (s.addAllRange src i length) := by
  rw [addAllRange]
  rcases Source.rangeCheck_cases hsrc hs hi hl with ⟨⟨x, hcheck⟩, hslice⟩ | ⟨hcheck, -, h0, -⟩
  · rw [hcheck, hslice]
    exact Meets.thrown (Unchanged.refl hs)
  · rw [hcheck]
    exact addAllInternal_meets hsrc hs h0 hl.2

theorem setAll_meets {src : Source} {s : State} (hsrc : src.Given) (hs : s.Valid) :
    Meets s (src.content s.content) (s.setAll src) := by
  rw [setAll]
  rcases Source.size_cases hsrc hs with ⟨hcontent, x, hsize⟩ | ⟨a, hcontent, hsize, hlt⟩
  · rw [hcontent, hsize]
    exact Meets.thrown (Unchanged.refl hs)
  · have h0 := Int.natCast_nonneg a.length
    rw [hsize, hcontent]
    by_cases hself : src = .self
    · subst hself
      cases hcontent
      have hmeets := setAllInternal_self (i := 0) hs (le_refl _) h0 ⟨by omega, hlt⟩
        (by rw [Int.zero_add, wrapInt_of_lt h0 hlt, hs.content_length])
      rwa [slice_all] at hmeets
    · have hother := setAllInternal_other (i := 0) hsrc hs h0 hlt hself
      rw [Source.slice_eq_content hcontent] at hother
      exact hother

theorem overrun {src : Source} {xs a : List Int} {i length : Int} (hcontent : src.content xs = some a) (h0 : 0 ≤ i)
    (h1 : 0 ≤ length) (hcheck : wrapInt (i + length) ≤ a.length) (hnone : src.slice xs i length = none) : 2 ^ 31 ≤ i + length := by
  by_contra hlt
  rw [wrapInt_of_lt (by omega) (by omega)] at hcheck
  rw [Source.slice, hcontent, Option.bind_some, slice, if_pos ⟨h0, h1, hcheck⟩] at hnone
  cases hnone

theorem setAllRange_meets {src : Source} {s : State} (hsrc : src.Given) (hs : s.Valid) {i length : Int} (hi : IsInt i)
    (hl : IsInt length) (h : ¬ Overruns (.setAllRange src i length) s) :
    Meets s (src.slice s.content i length) (s.setAllRange src i length) := by
  rw [setAllRange]
  rcases Source.rangeCheck_cases hsrc hs hi hl with ⟨⟨x, hcheck⟩, hslice⟩ | ⟨hcheck, h0, h1, a, hcontent, hend⟩
  · rw [hcheck, hslice]
    exact Meets.thrown (Unchanged.refl hs)
  · rw [hcheck]
    by_cases hself : src = .self
    · subst hself
      cases hcontent
      exact setAllInternal_self hs h0 h1 hl (by rw [← hs.content_length]; exact hend)
    · have hother := setAllInternal_other (i := i) hsrc hs h1 hl.2 hself
      cases hslice : src.slice s.content i length with
      | some zs =>
        rw [hslice] at hother
        exact hother
      | none =>
        have hnull : src ≠ .null := by
          intro hnull
          rw [hnull] at hcontent
          cases hcontent
        have hlong := overrun hcontent h0 h1 hend hslice
        have hempty : s.size = 0 := by
          by_contra hne
          exact h ⟨⟨hnull, hself⟩, h0, h1, hlong, hne⟩
        have hsame : { s with size := 0 } = s := by
          rw [← hempty]
        rw [hslice] at hother
        obtain ⟨x, t, hthrown, hkept⟩ := hother
        rw [hsame] at hkept
        exact ⟨x, t, hthrown, hkept⟩

theorem setAllRange_lost {src : Source} {s : State} (hsrc : src.Given) (hs : s.Valid) {i length : Int} (hi : IsInt i)
    (hl : IsInt length) (h : Overruns (.setAllRange src i length) s) :
    src.slice s.content i length = none ∧ ∃ x t, s.setAllRange src i length = .thrown x t ∧ t.size ≠ s.size := by
  obtain ⟨⟨hnull, hself⟩, h0, h1, hlong, hne⟩ := h
  have hwrap : wrapInt (i + length) < 0 := by
    rcases wrapInt_add hi hl with heq | hneg | hpos
    · rw [wrapInt, Int.bmod_def] at heq
      omega
    · exact hneg.2
    · omega
  rcases Source.size_cases hsrc hs with ⟨hcontent, -⟩ | ⟨a, hcontent, hsize, hlt⟩
  · cases src with
    | null => exact absurd rfl hnull
    | ints src => cases hcontent
    | self => cases hcontent
    | other src => cases hcontent
  · have hcheck : src.rangeCheck s i length = .ok () := by
      rw [Source.rangeCheck_eq hsize, if_neg (by omega), if_neg (by omega)]
    have hslice : src.slice s.content i length = none := by
      rw [Source.slice, hcontent, Option.bind_some]
      exact slice_outside (by omega)
    have hother := setAllInternal_other (i := i) hsrc hs h1 hl.2 hself
    rw [hslice] at hother
    obtain ⟨x, t, hthrown, hkept⟩ := hother
    refine ⟨hslice, x, t, ?_, ?_⟩
    · rw [setAllRange, hcheck]
      exact hthrown
    · rw [hkept.size]
      exact fun h => hne h.symm

end State

section Conforms
variable {c : Call} {s : State}

theorem settles_of_meets {o : Outcome Thrown State} {spec : Option (List Int)} (hmake : c.make s = o.map (·, none))
    (heffect : c.effect s.content = spec.map (·, none)) (h : Meets s spec o) : Settles c s := by
  rw [Settles, Performs, Refuses, Call.step, hmake, heffect]
  cases spec with
  | none =>
    obtain ⟨x, t, rfl, hkept⟩ := h
    exact ⟨Or.inr ⟨rfl, x, t, none, rfl, hkept.size, hkept.content, hkept.fired⟩, hkept.valid⟩
  | some xs =>
    obtain ⟨t, rfl, hchanged⟩ := h
    exact ⟨Or.inl ⟨xs, none, t, rfl, rfl, hchanged.size, hchanged.content, hchanged.reports⟩, hchanged.valid⟩

theorem settles_of_reads (hs : s.Valid) {result : Except Exn (List Int)}
    (hmake : c.make s = attempt (s, none) (s, some ·) result)
    (heffect : c.effect s.content = result.toOption.map (s.content, some ·)) : Settles c s := by
  rw [Settles, Performs, Refuses, Call.step, hmake, heffect]
  cases result with
  | error x => exact ⟨Or.inr ⟨rfl, .exception x, s, none, rfl, rfl, rfl, rfl⟩, hs⟩
  | ok dest => exact ⟨Or.inl ⟨s.content, some dest, s, rfl, rfl, hs.content_length.symm, rfl, Or.inl ⟨rfl, rfl⟩⟩, hs⟩

theorem settles_copyToOther {dest : State} (hs : s.Valid) (hdest : dest.Valid) (srcIndex destIndex length : Int) :
    Settles (.copyTo srcIndex (.other dest) destIndex length) s := by
  have hmeets := State.copyToObservable_meets hs hdest srcIndex destIndex length
  rw [Settles, Performs, Refuses, Call.step, Call.make, Call.effect]
  cases hspec : (slice s.content srcIndex length).bind (overwrite dest.content destIndex) with
  | none =>
    rw [hspec] at hmeets
    obtain ⟨x, t, hthrown, -⟩ := hmeets
    rw [hthrown]
    exact ⟨Or.inr ⟨rfl, x, s, _, rfl, rfl, rfl, rfl⟩, hs⟩
  | some xs =>
    rw [hspec] at hmeets
    obtain ⟨t, hdone, hchanged⟩ := hmeets
    rw [hdone, ← hchanged.content]
    exact ⟨Or.inl ⟨s.content, some t.content, s, rfl, rfl, hs.content_length.symm, rfl, Or.inl ⟨rfl, rfl⟩⟩, hs⟩

theorem call_settles (hs : s.Valid) (hc : c.Given) (h : ¬ Overruns c s) : Settles c s := by
  cases c with
  | addAll src => exact settles_of_meets rfl rfl (State.addAll_meets hc hs)
  | addAllRange src srcIndex length => exact settles_of_meets rfl rfl (State.addAllRange_meets hc.1 hs hc.2.1 hc.2.2)
  | setAll src => exact settles_of_meets rfl rfl (State.setAll_meets hc hs)
  | setAllRange src srcIndex length => exact settles_of_meets rfl rfl (State.setAllRange_meets hc.1 hs hc.2.1 hc.2.2 h)
  | set destIndex src srcIndex length => exact settles_of_meets rfl rfl (State.set_meets hc.1 hs destIndex srcIndex length)
  | setAt index value => exact settles_of_meets rfl rfl (State.setAt_meets hs index value)
  | resize newSize => exact settles_of_meets rfl rfl (State.resize_meets hs hc)
  | clear =>
    have hspec : resized 0 s.content = some [] := by simp [resized]
    have hmeets := @State.resize_meets _ hs 0 ⟨by omega, by omega⟩
    rw [hspec] at hmeets
    exact settles_of_meets rfl rfl hmeets
  | ensureCapacity capacity =>
    have hkept := (State.ensureCapacity_unchanged hs hc.2).1
    exact settles_of_meets (o := .done (s.ensureCapacity capacity)) rfl rfl (Meets.done (hkept.changed hs))
  | trimToSize => exact settles_of_meets rfl rfl (State.trimToSize_meets hs)
  | copyTo srcIndex dest destIndex length =>
    cases dest with
    | null =>
      refine settles_of_reads hs rfl ?_
      rw [State.rangeCheck_bind]
      split
      · rfl
      · rfl
    | ints dest => exact settles_of_reads hs rfl (by rw [State.copyTo_toOption hs]; rfl)
    | self => exact settles_of_meets rfl rfl (State.copyToObservable_meets hs hs srcIndex destIndex length)
    | other dest => exact settles_copyToOther hs hc.1 srcIndex destIndex length
  | toArray dest => exact settles_of_reads hs rfl (by rw [State.toArray_toOption hs]; rfl)
  | toArrayRange index dest length => exact settles_of_reads hs rfl (by rw [State.toArrayRange_toOption hs, Option.map_map]; rfl)

theorem overruns_effect (hs : s.Valid) (hc : c.Given) (h : Overruns c s) : c.effect s.content = none := by
  cases c with
  | setAllRange src srcIndex length =>
    rw [Call.effect, (State.setAllRange_lost hc.1 hs hc.2.1 hc.2.2 h).1]
    rfl
  | _ => exact h.elim

theorem performs_of_effect (hs : s.Valid) (hc : c.Given) (h : c.effect s.content ≠ none) :
    Performs c s ∧ (c.step s).Valid := by
  obtain ⟨hperforms | ⟨hnone, -⟩, hvalid⟩ := call_settles hs hc fun hover => h (overruns_effect hs hc hover)
  · exact ⟨hperforms, hvalid⟩
  · exact absurd hnone h

theorem overruns_lost (hs : s.Valid) (hc : c.Given) (h : Overruns c s) : ¬ Conforms c s := by
  cases c with
  | setAllRange src srcIndex length =>
    obtain ⟨-, x, t, hthrown, hsize⟩ := State.setAllRange_lost hc.1 hs hc.2.1 hc.2.2 h
    have hmake : (Call.setAllRange src srcIndex length).make s = .thrown x (t, none) := by
      rw [Call.make, hthrown]
      rfl
    rw [Conforms, Performs, Refuses, hmake]
    rintro (⟨xs, dest, u, -, hdone, -⟩ | ⟨y, u, dest, hsame, hkept, -⟩)
    · cases hdone
    · cases hsame
      exact hsize hkept
  | _ => exact h.elim

theorem conforms_iff (hs : s.Valid) (hc : c.Given) : Conforms c s ↔ ¬ Overruns c s := by
  constructor
  · intro h hover
    exact overruns_lost hs hc hover h
  · intro h
    rcases (call_settles hs hc h).1 with hperforms | ⟨-, hrefuses⟩
    · exact Or.inl hperforms
    · exact Or.inr hrefuses

end Conforms

/-! ## Runs -/

abbrev GivenCall := {c : Call // c.Given}

/-- `holds` is true of every call of a run, with the state it finds; a run goes on after an
exception. -/
def EveryCall (holds : Call → State → Prop) (calls : List GivenCall) (s : State) : Prop :=
  Guarded (fun c s => holds c.val s) (fun c s => c.val.step s) calls s

/-- In a run from a valid array every call is an operation on the sequence, or an exception that
leaves the sequence alone, exactly when no call overruns. -/
theorem runs_conform_iff {s : State} (hs : s.Valid) (calls : List GivenCall) :
    EveryCall Conforms calls s ↔ EveryCall (fun c s => ¬ Overruns c s) calls s := by
  apply guarded_iff_of_invariant State.Valid
  · intro c s hs h
    exact (call_settles hs c.property ((conforms_iff hs c.property).mp h)).2
  · intro c s hs
    exact conforms_iff hs c.property
  · exact hs

theorem initial_valid : INITIAL.Valid := ⟨le_refl _, le_refl _, by decide⟩

theorem runs_conform_iff_self :
    EveryCall Conforms
      [⟨.addAll (.ints [1, 2]), by simp [Call.Given, Source.Given]⟩, ⟨.addAll .self, trivial⟩,
        ⟨.setAllRange .self 1 2, by simp [Call.Given, Source.Given, IsInt]⟩] INITIAL :=
  (runs_conform_iff initial_valid _).mpr ⟨not_false, not_false, fun h => h.1.2 rfl, trivial⟩

/-- `srcIndex + length` is `2 ^ 31`, so the check passes; the exception comes out of the copy and
leaves the array empty. -/
theorem setAll_loses :
    ¬ EveryCall Conforms
      [⟨.addAll (.ints [5]), by simp [Call.Given, Source.Given]⟩,
        ⟨.setAllRange (.ints [7]) (2 ^ 31 - 1) 1, by simp [Call.Given, Source.Given, IsInt]⟩] INITIAL := by
  rintro ⟨-, h, -⟩
  have hvalid : State.Valid ⟨[5], 1, [⟨true, 0, 1⟩]⟩ := ⟨by decide, by decide, by decide⟩
  have hover : Overruns (.setAllRange (.ints [7]) (2 ^ 31 - 1) 1) ⟨[5], 1, [⟨true, 0, 1⟩]⟩ :=
    ⟨⟨by decide, by decide⟩, by decide, by decide, by decide, by decide⟩
  exact overruns_lost hvalid (by simp [Call.Given, Source.Given, IsInt]) hover h

/-! ## Operations and listeners in a run -/

def effects : List Int → List GivenCall → Option (List Int)
  | xs, [] => some xs
  | xs, c :: calls => (c.val.effect xs).bind fun result => effects result.1 calls

/-- A run of operations on the sequence does them all: no call is refused, and what a call gives
back and leaves is that of the operation. -/
theorem runs_refine {s : State} (hs : s.Valid) {calls : List GivenCall} {xs : List Int}
    (h : effects s.content calls = some xs) :
    EveryCall Performs calls s ∧ (exec (fun c s => c.val.step s) calls s).content = xs ∧
      (exec (fun c s => c.val.step s) calls s).size = xs.length := by
  induction calls generalizing s with
  | nil =>
    cases h
    exact ⟨trivial, rfl, hs.content_length.symm⟩
  | cons c calls ih =>
    obtain ⟨result, heffect, hrest⟩ := Option.bind_eq_some_iff.mp h
    obtain ⟨hperforms, hvalid⟩ := performs_of_effect hs c.property (by rw [heffect]; exact Option.some_ne_none _)
    obtain ⟨ys, dest, t, hys, hmake, -, hcontent, -⟩ := id hperforms
    have hstep : c.val.step s = t := by rw [Call.step, hmake]; rfl
    rw [heffect] at hys
    cases hys
    rw [hstep] at hvalid
    obtain ⟨hevery, hfinal⟩ := ih hvalid (by rw [hcontent]; exact hrest)
    rw [EveryCall, Guarded, exec, hstep]
    exact ⟨⟨hperforms, hevery⟩, hfinal⟩

theorem runs_refine_resized :
    EveryCall Performs
        [⟨.setAll (.ints [1, 2]), by simp [Call.Given, Source.Given]⟩, ⟨.resize 3, by simp [Call.Given, IsInt]⟩,
          ⟨.trimToSize, trivial⟩, ⟨.toArray none, trivial⟩] INITIAL ∧
      (exec (fun (c : GivenCall) s => c.val.step s)
        [⟨.setAll (.ints [1, 2]), by simp [Call.Given, Source.Given]⟩, ⟨.resize 3, by simp [Call.Given, IsInt]⟩,
          ⟨.trimToSize, trivial⟩, ⟨.toArray none, trivial⟩] INITIAL).content = [1, 2, 0] ∧
      (exec (fun (c : GivenCall) s => c.val.step s)
        [⟨.setAll (.ints [1, 2]), by simp [Call.Given, Source.Given]⟩, ⟨.resize 3, by simp [Call.Given, IsInt]⟩,
          ⟨.trimToSize, trivial⟩, ⟨.toArray none, trivial⟩] INITIAL).size = 3 :=
  runs_refine initial_valid rfl

/-- A listener that copies the reported range of the array. -/
def ArrayChange.observe (now : List Int) (mirror : List Int) (e : ArrayChange) : List Int :=
  (List.range now.length).map fun (k : Nat) =>
    if e.fromIdx ≤ k ∧ k < e.toIdx then now.getD k 0 else mirror.getD k 0

def watch (c : GivenCall) (p : State × List Int) : State × List Int :=
  (c.val.step p.1, ((c.val.step p.1).fired.drop p.1.fired.length).foldl
    (ArrayChange.observe (c.val.step p.1).content) p.2)

theorem ArrayChange.Covers.observe_eq {e : ArrayChange} {xs ys : List Int} (h : e.Covers xs ys) :
    e.observe ys xs = ys := by
  apply List.ext_getElem?
  intro k
  rw [observe, List.getElem?_map]
  by_cases hk : k < ys.length
  · have hnow : ys[k]? = some (ys.getD k 0) := by
      rw [List.getD_eq_getElem?_getD, List.getElem?_eq_getElem hk, Option.getD_some]
    rw [List.getElem?_range hk, Option.map_some, hnow]
    split
    · rfl
    · rename_i hout
      have hsame : xs[k]? = ys[k]? := by
        by_contra hne
        exact hout (h.2 k hk hne)
      rw [List.getD_eq_getElem?_getD, List.getD_eq_getElem?_getD, hsame]
  · rw [List.getElem?_eq_none (by rw [List.length_range]; omega), List.getElem?_eq_none (by omega)]
    rfl

theorem watch_follows {c : GivenCall} {s : State} (hs : s.Valid) (h : ¬ Overruns c.val s) :
    (watch c (s, s.content)).2 = (c.val.step s).content := by
  have hreports : Reports s (c.val.step s) := by
    rcases (call_settles hs c.property h).1 with ⟨xs, dest, t, -, hmake, -, -, hreports⟩ | ⟨-, x, t, dest, hmake, -, hkept⟩
    · rw [Call.step, hmake]
      exact hreports
    · rw [Call.step, hmake]
      exact Or.inl ⟨hkept.2, hkept.1⟩
  rw [watch]
  rcases hreports with ⟨hfired, hcontent⟩ | ⟨e, hfired, hcovers⟩
  · rw [hfired, List.drop_length, hcontent]
    rfl
  · rw [hfired, List.drop_left]
    exact hcovers.observe_eq

/-- The reported ranges are enough to follow the array. -/
theorem mirror_follows {s : State} (hs : s.Valid) {calls : List GivenCall}
    (h : EveryCall (fun c s => ¬ Overruns c s) calls s) :
    (exec watch calls (s, s.content)).2 = (exec (fun c s => c.val.step s) calls s).content := by
  induction calls generalizing s with
  | nil => rfl
  | cons c calls ih =>
    have hwatch : watch c (s, s.content) = (c.val.step s, (c.val.step s).content) :=
      Prod.ext rfl (watch_follows hs h.1)
    rw [exec, hwatch]
    exact ih (call_settles hs c.property h.1).2 h.2

theorem mirror_follows_self :
    (exec watch [⟨.addAll (.ints [1, 2]), by simp [Call.Given, Source.Given]⟩, ⟨.addAll .self, trivial⟩]
        (INITIAL, INITIAL.content)).2 =
      (exec (fun (c : GivenCall) s => c.val.step s)
        [⟨.addAll (.ints [1, 2]), by simp [Call.Given, Source.Given]⟩, ⟨.addAll .self, trivial⟩] INITIAL).content :=
  mirror_follows initial_valid ⟨not_false, not_false, trivial⟩

end OpenJfx.Collections.ObservableIntegerArrayImpl
