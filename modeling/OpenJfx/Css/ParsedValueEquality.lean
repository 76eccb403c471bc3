import Mathlib.Data.List.ReduceOption
import OpenJfx.Lib.Java

/-! # Equality and hash codes of parsed values

`equals` compares the cached hash fields before it looks at the values, and
`hashCode` fills the field of its receiver. The parsed values here are objects:
a number per object, in the order of their creation, so that a value refers only
to objects with smaller numbers. The state is the hash field of every object. -/
set_option autoImplicit false
namespace OpenJfx.Css
open OpenJfx.Lib

def utf16 (c : Char) : List Nat :=
  if c.toNat < 0x10000 then [c.toNat]
  else [0xD800 + (c.toNat - 0x10000) / 0x400, 0xDC00 + (c.toNat - 0x10000) % 0x400]

/-- The `value` field. Arrays are objects with an identity of their own, `object`
is a value of any other class. -/
inductive HeldValue (L : Type) where
  | null
  | string (s : String)
  | object (o : L)
  | parsed (ref : Nat)
  | array (id : Nat) (values : List (Option Nat))
  | layers (id : Nat) (rows : List (Option (List (Option Nat))))

/-- `equals` and `hashCode` of the other classes, the identity hash codes of the
arrays and the case tables of `java.lang.Character`. -/
structure HostObjects (L : Type) where
  equals : L → L → Bool
  hashCode : L → BitVec 32
  identityHashCode : Nat → BitVec 32
  toUpperCase : Nat → Nat
  toLowerCase : Nat → Nat

namespace HostObjects
variable {L : Type}

def sameIgnoringCase (host : HostObjects L) (c d : Nat) : Bool :=
  c == d || host.toUpperCase c == host.toUpperCase d ||
    host.toLowerCase (host.toUpperCase c) == host.toLowerCase (host.toUpperCase d)

/-- `String.equalsIgnoreCase`, on the UTF-16 units of the strings. -/
def equalsIgnoreCase (host : HostObjects L) (s t : String) : Bool :=
  let us := s.toList.flatMap utf16
  let vs := t.toList.flatMap utf16
  us.length == vs.length && (us.zip vs).all (fun (c, d) => host.sameIgnoringCase c d)

end HostObjects

def stringHashCode (s : String) : BitVec 32 :=
  (s.toList.flatMap utf16).foldl (fun hash unit => 31 * hash + BitVec.ofNat 32 unit) 0

namespace HeldValue
variable {L : Type}

def refs : HeldValue L → List Nat
  | null => []
  | string _ => []
  | object _ => []
  | parsed ref => [ref]
  | array _ values => values.reduceOption
  | layers _ rows => rows.reduceOption.flatMap List.reduceOption

end HeldValue

/-- All parsed values of a program. A value is complete before the object that
holds it is made. -/
structure ParsedValues (L : Type) where
  host : HostObjects L
  value : Nat → HeldValue L
  ordered : ∀ i, ∀ ref ∈ (value i).refs, ref < i

abbrev HashFields := Nat → BitVec 32

def MIN_VALUE : BitVec 32 := BitVec.intMin 32

def HashFields.initial : HashFields := fun _ => MIN_VALUE

namespace ParsedValues
variable {L : Type} (P : ParsedValues L)

/-! ## `equals` -/

section Compare
variable (same : Nat → Nat → Bool)

def sameElement : Option Nat → Option Nat → Bool
  | some x, some y => same x y
  | none, none => true
  | some _, none => false
  | none, some _ => false

def sameElements (xs ys : List (Option Nat)) : Bool :=
  xs.length == ys.length && (xs.zip ys).all (fun (x, y) => sameElement same x y)

def sameRow : Option (List (Option Nat)) → Option (List (Option Nat)) → Bool
  | some xs, some ys => sameElements same xs ys
  | none, none => true
  | some _, none => false
  | none, some _ => false

def sameRows (rows rows' : List (Option (List (Option Nat)))) : Bool :=
  rows.length == rows'.length && (rows.zip rows').all (fun (row, row') => sameRow same row row')

/-- The comparison of the two values; `same` compares parsed values inside. -/
def sameValue : HeldValue L → HeldValue L → Bool
  | .layers _ rows, .layers _ rows' => sameRows same rows rows'
  | .array _ xs, .array _ ys => sameElements same xs ys
  | .string s, .string t => P.host.equalsIgnoreCase s t
  | .object o, .object o' => P.host.equals o o'
  | .parsed ref, .parsed ref' => same ref ref'
  | .null, .null => true
  | _, _ => false

end Compare

def equalsUpto (h : HashFields) : Nat → Nat → Nat → Bool
  | 0, _, _ => false
  | fuel + 1, i, j =>
      if i = j then true
      else if h i ≠ h j then false
      else P.sameValue (equalsUpto h fuel) (P.value i) (P.value j)

attribute [local simp] equalsUpto

def equals (h : HashFields) (i j : Nat) : Bool := P.equalsUpto h (i + 1) i j

/-! ## `hashCode` -/

/-- The values that `hashCode` mixes into the field, in order; `none` stands for a
row that is null, whose length the loop asks for. -/
def hashed : HeldValue L → List (Option (HeldValue L))
  | .layers _ rows => rows.flatMap (fun row => match row with
      | none => [none]
      | some values => values.map (fun value => some ((value.map P.value).getD .null)))
  | .array _ values => (values.map (fun value => (value.map P.value).getD .null)).filterMap (fun v =>
      match v with
      | .null => none
      | v => some (some v))
  | v => [some v]

section Loop
variable (hashOf : HashFields → Nat → HashFields × Option (BitVec 32))

/-- `value.hashCode()`, or zero for null. An array has its identity hash code. -/
def valueHash (h : HashFields) : HeldValue L → HashFields × Option (BitVec 32)
  | .null => (h, some 0)
  | .string s => (h, some (stringHashCode s))
  | .object o => (h, some (P.host.hashCode o))
  | .parsed ref => hashOf h ref
  | .array id _ => (h, some (P.host.identityHashCode id))
  | .layers id _ => (h, some (P.host.identityHashCode id))

/-- The loop on the field of `i`; the field keeps what it holds when the loop ends
with a `NullPointerException`, which is `none`. -/
def hashLoop (i : Nat) : List (Option (HeldValue L)) → HashFields → HashFields × Option (BitVec 32)
  | [], h => (h, some (h i))
  | none :: _, h => (h, none)
  | some v :: rest, h =>
      match P.valueHash hashOf h v with
      | (h', none) => (h', none)
      | (h', some n) => hashLoop i rest (Function.update h' i (37 * h i + n))

attribute [local simp] hashLoop

end Loop

def hashUpto : Nat → HashFields → Nat → HashFields × Option (BitVec 32)
  | 0, h, _ => (h, none)
  | fuel + 1, h, i =>
      if h i = MIN_VALUE then
        P.hashLoop (hashUpto fuel) i (P.hashed (P.value i)) (Function.update h i 17)
      else (h, some (h i))

attribute [local simp] hashUpto

/-- `i.hashCode()`: the fields after the call and its result. -/
def hashCode (h : HashFields) (i : Nat) : HashFields × Option (BitVec 32) := P.hashUpto (i + 1) h i

/-! ## The recursion of `equals` -/

section Compare
variable {P} {f g : Nat → Nat → Bool}

theorem sameElements_mono {xs ys : List (Option Nat)}
    (imp : ∀ x ∈ xs.reduceOption, ∀ y, f x y = true → g x y = true) (h : sameElements f xs ys = true) :
    sameElements g xs ys = true := by
  simp only [sameElements, Bool.and_eq_true, List.all_eq_true] at h ⊢
  refine ⟨h.1, ?_⟩
  intro p hp
  obtain ⟨x, y⟩ := p
  have hxy := h.2 (x, y) hp
  cases x with
  | none =>
    cases y with
    | none => rfl
    | some b => exact absurd hxy (by simp [sameElement])
  | some a =>
    cases y with
    | none => exact absurd hxy (by simp [sameElement])
    | some b => exact imp a (List.reduceOption_mem_iff.mpr (List.of_mem_zip hp).1) b hxy

theorem sameRows_mono {rows rows' : List (Option (List (Option Nat)))}
    (imp : ∀ x ∈ rows.reduceOption.flatMap List.reduceOption, ∀ y, f x y = true → g x y = true)
    (h : sameRows f rows rows' = true) : sameRows g rows rows' = true := by
  simp only [sameRows, Bool.and_eq_true, List.all_eq_true] at h ⊢
  refine ⟨h.1, ?_⟩
  intro p hp
  obtain ⟨row, row'⟩ := p
  have hrow := h.2 (row, row') hp
  cases row with
  | none =>
    cases row' with
    | none => rfl
    | some ys => exact absurd hrow (by simp [sameRow])
  | some xs =>
    cases row' with
    | none => exact absurd hrow (by simp [sameRow])
    | some ys =>
      have hxs : xs ∈ rows.reduceOption := List.reduceOption_mem_iff.mpr (List.of_mem_zip hp).1
      exact sameElements_mono (fun x hx => imp x (List.mem_flatMap.mpr ⟨xs, hxs, hx⟩)) hrow

theorem sameValue_mono {v w : HeldValue L} (imp : ∀ x ∈ v.refs, ∀ y, f x y = true → g x y = true)
    (h : P.sameValue f v w = true) : P.sameValue g v w = true := by
  cases v <;> cases w <;> try exact h
  case parsed.parsed ref ref' => exact imp ref (List.mem_singleton.mpr rfl) ref' h
  case array.array => exact sameElements_mono imp h
  case layers.layers => exact sameRows_mono imp h

theorem sameValue_congr {v w : HeldValue L} (same : ∀ x ∈ v.refs, ∀ y, f x y = g x y) :
    P.sameValue f v w = P.sameValue g v w := by
  apply Bool.eq_iff_iff.mpr
  constructor
  · exact sameValue_mono (fun x hx y h => (same x hx y).symm.trans h)
  · exact sameValue_mono (fun x hx y h => (same x hx y).trans h)

end Compare

theorem equalsUpto_eq (h : HashFields) {fuel i : Nat} (enough : i < fuel) (j : Nat) :
    P.equalsUpto h fuel i j = P.equals h i j := by
  induction i using Nat.strongRecOn generalizing fuel j with
  | _ i ih =>
    obtain ⟨fuel, rfl⟩ := Nat.exists_eq_add_one_of_ne_zero (Nat.ne_of_gt (Nat.zero_lt_of_lt enough))
    have inner : ∀ x ∈ (P.value i).refs, ∀ y, P.equalsUpto h fuel x y = P.equalsUpto h i x y := by
      intro x hx y
      have hxi := P.ordered i x hx
      rw [ih x hxi (by omega) y, ih x hxi hxi y]
    rw [equals, equalsUpto, equalsUpto, sameValue_congr inner]

theorem equals_eq (h : HashFields) (i j : Nat) :
    P.equals h i j = if i = j then true else if h i ≠ h j then false
      else P.sameValue (P.equals h) (P.value i) (P.value j) := by
  rw [equals, equalsUpto]
  rw [sameValue_congr (fun x hx y => P.equalsUpto_eq h (P.ordered i x hx) y)]

theorem equals_self (h : HashFields) (i : Nat) : P.equals h i i = true := by
  rw [equals_eq, if_pos rfl]

/-! ## The content -/

def sameContentUpto : Nat → Nat → Nat → Bool
  | 0, _, _ => false
  | fuel + 1, i, j => i == j || P.sameValue (sameContentUpto fuel) (P.value i) (P.value j)

/-- The values are the same object, equal leaves, strings that differ at most in
case, or arrays of the same length with the same content. -/
def sameContent (i j : Nat) : Bool := P.sameContentUpto (i + 1) i j

theorem equalsUpto_initial (fuel i j : Nat) :
    P.equalsUpto HashFields.initial fuel i j = P.sameContentUpto fuel i j := by
  induction fuel generalizing i j with
  | zero => rfl
  | succ fuel ih =>
    have inner : P.equalsUpto HashFields.initial fuel = P.sameContentUpto fuel := funext fun x => funext (ih x)
    rw [equalsUpto, sameContentUpto, inner]
    by_cases hij : i = j
    · rw [if_pos hij, beq_iff_eq.mpr hij, Bool.true_or]
    · have unset : HashFields.initial i = HashFields.initial j := rfl
      rw [if_neg hij, if_neg (not_not.mpr unset), beq_eq_false_iff_ne.mpr hij, Bool.false_or]

theorem equals_initial (i j : Nat) : P.equals HashFields.initial i j = P.sameContent i j :=
  P.equalsUpto_initial (i + 1) i j

theorem equalsUpto_content (h : HashFields) (fuel : Nat) (i j : Nat) (he : P.equalsUpto h fuel i j = true) :
    P.sameContentUpto fuel i j = true := by
  induction fuel generalizing i j with
  | zero => exact he
  | succ fuel ih =>
    rw [equalsUpto] at he
    rw [sameContentUpto]
    by_cases hij : i = j
    · rw [beq_iff_eq.mpr hij, Bool.true_or]
    · rw [if_neg hij] at he
      split at he
      · exact absurd he Bool.false_ne_true
      · rw [sameValue_mono (fun x _ y => ih x y) he, Bool.or_true]

theorem equals_content {h : HashFields} {i j : Nat} (he : P.equals h i j = true) : P.sameContent i j = true :=
  P.equalsUpto_content h (i + 1) i j he

theorem equals_eq_false {h : HashFields} {i j : Nat} (hne : P.sameContent i j = false) :
    P.equals h i j = false := by
  cases he : P.equals h i j with
  | false => rfl
  | true => exact absurd (P.equals_content he) (by rw [hne]; exact Bool.false_ne_true)

/-! ## The recursion of `hashCode` -/

theorem valueHash_congr {f g : HashFields → Nat → HashFields × Option (BitVec 32)} {v : HeldValue L}
    (same : ∀ r, v = .parsed r → ∀ h, f h r = g h r) (h : HashFields) :
    P.valueHash f h v = P.valueHash g h v := by
  cases v with
  | parsed r => exact same r rfl h
  | null => rfl
  | string s => rfl
  | object o => rfl
  | array id values => rfl
  | layers id rows => rfl

theorem hashLoop_congr {f g : HashFields → Nat → HashFields × Option (BitVec 32)} {i : Nat}
    {terms : List (Option (HeldValue L))}
    (same : ∀ r, some (HeldValue.parsed r) ∈ terms → ∀ h, f h r = g h r) (h : HashFields) :
    P.hashLoop f i terms h = P.hashLoop g i terms h := by
  induction terms generalizing h with
  | nil => rfl
  | cons term rest ih =>
    cases term with
    | none => rfl
    | some v =>
      have hv : P.valueHash f h v = P.valueHash g h v :=
        P.valueHash_congr (fun r hr => same r (by rw [hr]; exact List.mem_cons_self)) h
      have hrest := ih (fun r hr => same r (List.mem_cons_of_mem _ hr))
      rw [hashLoop, hashLoop, hv]
      split
      · rfl
      · exact hrest _

theorem hashed_lt {i r : Nat} (hr : some (HeldValue.parsed r) ∈ P.hashed (P.value i)) : r < i := by
  have child : ∀ x, x ∈ (P.value i).refs → P.value x = .parsed r → r < i := by
    intro x hx hxr
    have h1 := P.ordered i x hx
    have h2 := P.ordered x r (by rw [hxr]; exact List.mem_singleton.mpr rfl)
    omega
  cases hv : P.value i with
  | null => simp [hv, hashed] at hr
  | string s => simp [hv, hashed] at hr
  | object o => simp [hv, hashed] at hr
  | parsed ref =>
    simp only [hv, hashed, List.mem_singleton, Option.some.injEq, HeldValue.parsed.injEq] at hr
    exact hr ▸ P.ordered i ref (by rw [hv]; exact List.mem_singleton.mpr rfl)
  | array id values =>
    rw [hv, hashed, List.mem_filterMap] at hr
    obtain ⟨w, hw, hwr⟩ := hr
    obtain ⟨value, hvalue, rfl⟩ := List.mem_map.mp hw
    cases value with
    | none => exact absurd hwr (by simp)
    | some x =>
      apply child x (by rw [hv]; exact List.reduceOption_mem_iff.mpr hvalue)
      cases hx : P.value x <;> simp_all
  | layers id rows =>
    rw [hv, hashed, List.mem_flatMap] at hr
    obtain ⟨row, hrow, hr⟩ := hr
    cases row with
    | none => exact absurd hr (by simp)
    | some values =>
      obtain ⟨value, hvalue, hvr⟩ := List.mem_map.mp hr
      cases value with
      | none => exact absurd hvr (by simp)
      | some x =>
        have hx : x ∈ (P.value i).refs := by
          rw [hv, HeldValue.refs, List.mem_flatMap]
          exact ⟨values, List.reduceOption_mem_iff.mpr hrow, List.reduceOption_mem_iff.mpr hvalue⟩
        exact child x hx (Option.some.inj hvr)

theorem hashUpto_eq {fuel i : Nat} (enough : i < fuel) (h : HashFields) :
    P.hashUpto fuel h i = P.hashCode h i := by
  induction i using Nat.strongRecOn generalizing fuel h with
  | _ i ih =>
    obtain ⟨fuel, rfl⟩ := Nat.exists_eq_add_one_of_ne_zero (Nat.ne_of_gt (Nat.zero_lt_of_lt enough))
    have inner : ∀ r, some (HeldValue.parsed r) ∈ P.hashed (P.value i) →
        ∀ h, P.hashUpto fuel h r = P.hashUpto i h r := by
      intro r hr h
      have hri := P.hashed_lt hr
      rw [ih r hri (by omega) h, ih r hri hri h]
    rw [hashCode, hashUpto, hashUpto, P.hashLoop_congr inner]

theorem hashCode_eq (h : HashFields) (i : Nat) :
    P.hashCode h i = if h i = MIN_VALUE then
        P.hashLoop P.hashCode i (P.hashed (P.value i)) (Function.update h i 17)
      else (h, some (h i)) := by
  rw [hashCode, hashUpto]
  rw [P.hashLoop_congr (fun r hr => P.hashUpto_eq (P.hashed_lt hr))]

theorem hashLoop_invariant {hashOf : HashFields → Nat → HashFields × Option (BitVec 32)}
    {I : HashFields → Prop} {i : Nat} {terms : List (Option (HeldValue L))}
    (call : ∀ r, some (HeldValue.parsed r) ∈ terms → ∀ h, I h → I (hashOf h r).1)
    (store : ∀ h n, I h → I (Function.update h i n)) {h : HashFields} (hinv : I h) :
    I (P.hashLoop hashOf i terms h).1 := by
  induction terms generalizing h with
  | nil => exact hinv
  | cons term rest ih =>
    cases term with
    | none => exact hinv
    | some v =>
      have called : I (P.valueHash hashOf h v).1 := by
        cases v with
        | parsed r => exact call r List.mem_cons_self h hinv
        | null => exact hinv
        | string s => exact hinv
        | object o => exact hinv
        | array id values => exact hinv
        | layers id rows => exact hinv
      rw [hashLoop]
      split
      · rename_i h' hcall
        rw [hcall] at called
        exact called
      · rename_i h' n hcall
        rw [hcall] at called
        exact ih (fun r hr => call r (List.mem_cons_of_mem _ hr)) (store h' _ called)

theorem hashCode_frame (h : HashFields) {i y : Nat} (later : i < y) : (P.hashCode h i).1 y = h y := by
  induction i using Nat.strongRecOn generalizing h with
  | _ i ih =>
    rw [hashCode_eq]
    split
    · apply P.hashLoop_invariant (I := fun g => g y = h y)
      · intro r hr g hg
        have hri := P.hashed_lt hr
        rw [ih r hri g (by omega), hg]
      · intro g n hg
        rw [Function.update_of_ne (by omega), hg]
      · rw [Function.update_of_ne (by omega)]
    · rfl

end ParsedValues

end OpenJfx.Css
