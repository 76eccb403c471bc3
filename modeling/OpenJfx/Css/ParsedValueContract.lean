import OpenJfx.Css.ParsedValueEquality

/-! # The contract of `equals` and `hashCode`

The contract of `Object` holds of two parsed values exactly when they are one object,
or when they differ in content: as soon as one of two equal objects has been hashed
and the other has not, their fields differ and `equals` calls them different. -/
set_option autoImplicit false
namespace OpenJfx.Css
open OpenJfx.Lib

namespace ParsedValues
variable {L : Type} (P : ParsedValues L)

/-! ## Values without null rows -/

/-- Hashing the value meets no null row. -/
inductive NoNullRow : Nat → Prop where
  | intro {i : Nat} (rows : none ∉ P.hashed (P.value i))
      (inner : ∀ r, some (HeldValue.parsed r) ∈ P.hashed (P.value i) → NoNullRow r) : NoNullRow i

/-- The hash code of a value, with the hash codes of parsed values given. -/
def leafHash (inside : Nat → BitVec 32) : HeldValue L → BitVec 32
  | .null => 0
  | .string s => stringHashCode s
  | .object o => P.host.hashCode o
  | .parsed ref => inside ref
  | .array id _ => P.host.identityHashCode id
  | .layers id _ => P.host.identityHashCode id

def mixed (inside : Nat → BitVec 32) (terms : List (Option (HeldValue L))) (start : BitVec 32) : BitVec 32 :=
  terms.reduceOption.foldl (fun hash v => 37 * hash + P.leafHash inside v) start

def contentHashUpto : Nat → Nat → BitVec 32
  | 0, _ => 0
  | fuel + 1, i => P.mixed (contentHashUpto fuel) (P.hashed (P.value i)) 17

/-- What `hashCode` computes, without the fields. -/
def contentHash (i : Nat) : BitVec 32 := P.contentHashUpto (i + 1) i

theorem mixed_congr {f g : Nat → BitVec 32} {terms : List (Option (HeldValue L))}
    (same : ∀ r, some (HeldValue.parsed r) ∈ terms → f r = g r) (start : BitVec 32) :
    P.mixed f terms start = P.mixed g terms start := by
  rw [mixed, mixed]
  apply List.foldl_ext
  intro hash v hv
  cases v with
  | parsed r => rw [leafHash, leafHash, same r (List.reduceOption_mem_iff.mp hv)]
  | null => rfl
  | string s => rfl
  | object o => rfl
  | array id values => rfl
  | layers id rows => rfl

theorem contentHashUpto_eq {fuel i : Nat} (enough : i < fuel) : P.contentHashUpto fuel i = P.contentHash i := by
  induction i using Nat.strongRecOn generalizing fuel with
  | _ i ih =>
    obtain ⟨fuel, rfl⟩ := Nat.exists_eq_add_one_of_ne_zero (Nat.ne_of_gt (Nat.zero_lt_of_lt enough))
    rw [contentHash, contentHashUpto, contentHashUpto]
    apply P.mixed_congr
    intro r hr
    have hri := P.hashed_lt hr
    rw [ih r hri (by omega), ih r hri hri]

theorem contentHash_eq (i : Nat) : P.contentHash i = P.mixed P.contentHash (P.hashed (P.value i)) 17 := by
  rw [contentHash, contentHashUpto]
  exact P.mixed_congr (fun r hr => P.contentHashUpto_eq (P.hashed_lt hr)) 17

/-- The field is unset, or right when hashing the object cannot fail. -/
def Settled (h : HashFields) (x : Nat) : Prop := P.NoNullRow x → h x = MIN_VALUE ∨ h x = P.contentHash x

theorem hashLoop_returns {I : HashFields → Prop} {i : Nat} {terms : List (Option (HeldValue L))}
    (rows : none ∉ terms) (earlier : ∀ r, some (HeldValue.parsed r) ∈ terms → r < i)
    (call : ∀ r, some (HeldValue.parsed r) ∈ terms → ∀ h, I h →
      I (P.hashCode h r).1 ∧ (P.hashCode h r).2 = some (P.contentHash r))
    (store : ∀ h n, I h → I (Function.update h i n)) {h : HashFields} (hinv : I h) :
    ∃ h', P.hashLoop P.hashCode i terms h = (h', some (P.mixed P.contentHash terms (h i))) ∧
      h' i = P.mixed P.contentHash terms (h i) := by
  induction terms generalizing h with
  | nil => exact ⟨h, rfl, rfl⟩
  | cons term rest ih =>
    cases term with
    | none => exact absurd List.mem_cons_self rows
    | some v =>
      have called : ∃ h', P.valueHash P.hashCode h v = (h', some (P.leafHash P.contentHash v)) ∧
          I h' ∧ h' i = h i := by
        cases v with
        | parsed r =>
          obtain ⟨hI, hn⟩ := call r List.mem_cons_self h hinv
          have hi := P.hashCode_frame h (earlier r List.mem_cons_self)
          exact ⟨(P.hashCode h r).1, Prod.ext rfl hn, hI, hi⟩
        | null => exact ⟨h, rfl, hinv, rfl⟩
        | string s => exact ⟨h, rfl, hinv, rfl⟩
        | object o => exact ⟨h, rfl, hinv, rfl⟩
        | array id values => exact ⟨h, rfl, hinv, rfl⟩
        | layers id rows => exact ⟨h, rfl, hinv, rfl⟩
      obtain ⟨h', hcall, hI, hi⟩ := called
      have hrest := ih (fun hmem => rows (List.mem_cons_of_mem _ hmem))
        (fun r hr => earlier r (List.mem_cons_of_mem _ hr))
        (fun r hr => call r (List.mem_cons_of_mem _ hr)) (store h' (37 * h i + P.leafHash P.contentHash v) hI)
      rw [Function.update_self] at hrest
      rw [hashLoop, hcall]
      exact hrest

theorem hashCode_settled {h : HashFields} {i : Nat} (settled : ∀ x ≤ i, P.Settled h x) :
    (∀ x ≤ i, P.Settled (P.hashCode h i).1 x) ∧
      (P.NoNullRow i → (P.hashCode h i).2 = some (P.contentHash i)) := by
  induction i using Nat.strongRecOn generalizing h with
  | _ i ih =>
    -- the field of `i` is not settled while the loop runs, those below are
    have call : ∀ r, some (HeldValue.parsed r) ∈ P.hashed (P.value i) → ∀ g, (∀ x < i, P.Settled g x) →
        ∀ x < i, P.Settled (P.hashCode g r).1 x := by
      intro r hr g hg x hx
      have hri := P.hashed_lt hr
      by_cases hxr : x ≤ r
      · exact (ih r hri (fun z hz => hg z (by omega))).1 x hxr
      · intro free
        rw [P.hashCode_frame g (by omega)]
        exact hg x hx free
    have store : ∀ g n, (∀ x < i, P.Settled g x) → ∀ x < i, P.Settled (Function.update g i n) x := by
      intro g n hg x hx free
      rw [Function.update_of_ne (by omega)]
      exact hg x hx free
    have start := store h 17 (fun x hx => settled x (by omega))
    rw [hashCode_eq]
    by_cases unset : h i = MIN_VALUE
    · rw [if_pos unset]
      have below := P.hashLoop_invariant (I := fun g => ∀ x < i, P.Settled g x) call store start
      have returns : P.NoNullRow i → ∃ h', P.hashLoop P.hashCode i (P.hashed (P.value i))
          (Function.update h i 17) = (h', some (P.contentHash i)) ∧ h' i = P.contentHash i := by
        intro free
        obtain ⟨rows, inner⟩ := free
        obtain ⟨h', hloop, hi⟩ := P.hashLoop_returns (I := fun g => ∀ x < i, P.Settled g x) rows
          (fun r hr => P.hashed_lt hr)
          (fun r hr g hg => ⟨call r hr g hg,
            (ih r (P.hashed_lt hr) (fun x hx => hg x (by have := P.hashed_lt hr; omega))).2 (inner r hr)⟩)
          store start
        rw [Function.update_self, ← P.contentHash_eq] at hloop hi
        exact ⟨h', hloop, hi⟩
      constructor
      · intro x hx
        rcases Nat.lt_or_eq_of_le hx with hlt | rfl
        · exact below x hlt
        · intro free
          obtain ⟨h', hloop, hi⟩ := returns free
          rw [hloop]
          exact Or.inr hi
      · intro free
        obtain ⟨h', hloop, -⟩ := returns free
        rw [hloop]
    · rw [if_neg unset]
      exact ⟨settled, fun free => congrArg some ((settled i (Nat.le_refl i) free).resolve_left unset)⟩

theorem hashLoop_clean {i : Nat} {terms : List (Option (HeldValue L))} {I : HashFields → Prop}
    (call : ∀ r, some (HeldValue.parsed r) ∈ terms → ∀ h, I h → (P.hashCode h r).2.isSome →
      P.NoNullRow r ∧ I (P.hashCode h r).1)
    (store : ∀ h n, I h → I (Function.update h i n)) {h : HashFields} (hinv : I h)
    (returns : (P.hashLoop P.hashCode i terms h).2.isSome) :
    none ∉ terms ∧ (∀ r, some (HeldValue.parsed r) ∈ terms → P.NoNullRow r) ∧
      I (P.hashLoop P.hashCode i terms h).1 := by
  induction terms generalizing h with
  | nil => exact ⟨List.not_mem_nil, fun r hr => absurd hr List.not_mem_nil, hinv⟩
  | cons term rest ih =>
    cases term with
    | none => exact absurd returns (by rw [hashLoop]; exact Bool.false_ne_true)
    | some v =>
      have called : (P.valueHash P.hashCode h v).2.isSome →
          (∀ r, v = .parsed r → P.NoNullRow r) ∧ I (P.valueHash P.hashCode h v).1 := by
        intro hsome
        cases v with
        | parsed r =>
          obtain ⟨free, hI⟩ := call r List.mem_cons_self h hinv hsome
          exact ⟨fun r' hr' => HeldValue.parsed.inj hr' ▸ free, hI⟩
        | null => exact ⟨(fun _ hr => nomatch hr), hinv⟩
        | string s => exact ⟨(fun _ hr => nomatch hr), hinv⟩
        | object o => exact ⟨(fun _ hr => nomatch hr), hinv⟩
        | array id values => exact ⟨(fun _ hr => nomatch hr), hinv⟩
        | layers id rows => exact ⟨(fun _ hr => nomatch hr), hinv⟩
      rw [hashLoop] at returns ⊢
      cases hcall : P.valueHash P.hashCode h v with
      | mk h' result =>
        rw [hcall] at returns called
        cases result with
        | none => exact absurd returns Bool.false_ne_true
        | some n =>
          obtain ⟨free, hI⟩ := called rfl
          obtain ⟨rows, inner, after⟩ := ih (fun r hr => call r (List.mem_cons_of_mem _ hr))
            (store h' _ hI) returns
          refine ⟨?_, ?_, after⟩
          · intro hmem
            exact rows ((List.mem_cons.mp hmem).resolve_left (fun he => nomatch he))
          · intro r hr
            rcases List.mem_cons.mp hr with heq | hrest
            · exact free r (Option.some.inj heq).symm
            · exact inner r hrest

theorem hashCode_clean {h : HashFields} {i : Nat} (clean : ∀ x ≤ i, h x ≠ MIN_VALUE → P.NoNullRow x)
    (returns : (P.hashCode h i).2.isSome) :
    P.NoNullRow i ∧ ∀ x ≤ i, (P.hashCode h i).1 x ≠ MIN_VALUE → P.NoNullRow x := by
  induction i using Nat.strongRecOn generalizing h with
  | _ i ih =>
    have call : ∀ r, some (HeldValue.parsed r) ∈ P.hashed (P.value i) → ∀ g,
        (∀ x < i, g x ≠ MIN_VALUE → P.NoNullRow x) → (P.hashCode g r).2.isSome →
        P.NoNullRow r ∧ ∀ x < i, (P.hashCode g r).1 x ≠ MIN_VALUE → P.NoNullRow x := by
      intro r hr g hg hsome
      have hri := P.hashed_lt hr
      obtain ⟨free, after⟩ := ih r hri (fun x hx => hg x (by omega)) hsome
      refine ⟨free, ?_⟩
      intro x hx hset
      by_cases hxr : x ≤ r
      · exact after x hxr hset
      · rw [P.hashCode_frame g (by omega)] at hset
        exact hg x hx hset
    have store : ∀ g n, (∀ x < i, g x ≠ MIN_VALUE → P.NoNullRow x) →
        ∀ x < i, Function.update g i n x ≠ MIN_VALUE → P.NoNullRow x := by
      intro g n hg x hx hset
      rw [Function.update_of_ne (by omega)] at hset
      exact hg x hx hset
    rw [hashCode_eq] at returns ⊢
    by_cases unset : h i = MIN_VALUE
    · rw [if_pos unset] at returns ⊢
      obtain ⟨rows, inner, after⟩ := P.hashLoop_clean
        (I := fun g => ∀ x < i, g x ≠ MIN_VALUE → P.NoNullRow x) call store
        (store h 17 (fun x hx => clean x (by omega))) returns
      have free : P.NoNullRow i := NoNullRow.intro rows inner
      refine ⟨free, ?_⟩
      intro x hx hset
      rcases Nat.lt_or_eq_of_le hx with hlt | rfl
      · exact after x hlt hset
      · exact free
    · rw [if_neg unset]
      exact ⟨clean i (Nat.le_refl i) unset, clean⟩

/-! ## Runs -/

/-- The fields after some calls of `hashCode`, those that throw included. -/
inductive Reachable : HashFields → Prop where
  | initial : Reachable HashFields.initial
  | hashed {h : HashFields} (reached : Reachable h) (i : Nat) : Reachable (P.hashCode h i).1

theorem reachable_settled {h : HashFields} (reached : P.Reachable h) (x : Nat) : P.Settled h x := by
  induction reached generalizing x with
  | initial => exact fun _ => Or.inl rfl
  | @hashed h _ i ih =>
    by_cases hxi : x ≤ i
    · exact (P.hashCode_settled (fun z _ => ih z)).1 x hxi
    · intro free
      rw [P.hashCode_frame h (by omega)]
      exact ih x free

theorem hashCode_returns {h : HashFields} (reached : P.Reachable h) {x : Nat} (free : P.NoNullRow x) :
    (P.hashCode h x).2 = some (P.contentHash x) :=
  (P.hashCode_settled (fun z _ => P.reachable_settled reached z)).2 free

/-- The contract of `equals` and `hashCode` for three parsed values, whatever has been
hashed before. -/
structure Proper (a b c : Nat) : Prop where
  reflexive : ∀ h, P.Reachable h → P.equals h a a = true
  symmetric : ∀ h, P.Reachable h → P.equals h a b = P.equals h b a
  transitive : ∀ h, P.Reachable h → P.equals h a b = true → P.equals h b c = true → P.equals h a c = true
  independent : ∀ h, P.Reachable h → P.equals (P.hashCode h a).1 a b = P.equals h a b ∧
    P.equals (P.hashCode h b).1 a b = P.equals h a b
  sameHash : ∀ h, P.Reachable h → P.equals h a b = true →
    ∃ n, (P.hashCode h a).2 = some n ∧ (P.hashCode (P.hashCode h a).1 b).2 = some n

/-- The two are one object, without a null row, or they differ in content. -/
def Distinguished (a b : Nat) : Prop :=
  (a = b ∧ P.NoNullRow a) ∨ (a ≠ b ∧ P.sameContent a b = false ∧ P.sameContent b a = false)

/-- The first call of `hashCode` leaves something else than `Integer.MIN_VALUE` in the
field. -/
def KeepsHash (x : Nat) : Prop := (P.hashCode HashFields.initial x).1 x ≠ MIN_VALUE

theorem proper_of_distinguished {a b : Nat} (c : Nat) (cond : P.Distinguished a b) : P.Proper a b c := by
  rcases cond with ⟨rfl, free⟩ | ⟨-, hab, hba⟩
  · exact {
      reflexive := fun h _ => P.equals_self h a
      symmetric := fun _ _ => rfl
      transitive := fun _ _ _ hac => hac
      independent := fun h _ => ⟨by rw [equals_self, equals_self], by rw [equals_self, equals_self]⟩
      sameHash := fun h reached _ => ⟨P.contentHash a, P.hashCode_returns reached free,
        P.hashCode_returns (reached.hashed a) free⟩ }
  · have differ : ∀ h, P.equals h a b = false := fun h => P.equals_eq_false hab
    have differ' : ∀ h, P.equals h b a = false := fun h => P.equals_eq_false hba
    exact {
      reflexive := fun h _ => P.equals_self h a
      symmetric := fun h _ => by rw [differ h, differ' h]
      transitive := fun h _ heq _ => absurd heq (by rw [differ h]; exact Bool.false_ne_true)
      independent := fun h _ => ⟨by rw [differ, differ], by rw [differ, differ]⟩
      sameHash := fun h _ heq => absurd heq (by rw [differ h]; exact Bool.false_ne_true) }

theorem equals_of_fields_ne {h : HashFields} {i j : Nat} (hij : i ≠ j) (fields : h i ≠ h j) :
    P.equals h i j = false := by
  rw [equals_eq, if_neg hij, if_pos fields]

theorem equals_after_hash {a b : Nat} (hab : a ≠ b) (keepsA : P.KeepsHash a) (keepsB : P.KeepsHash b) :
    P.equals (P.hashCode HashFields.initial a).1 a b = false ∨
      P.equals (P.hashCode HashFields.initial b).1 a b = false := by
  rcases Nat.lt_or_gt_of_ne hab with hlt | hgt
  · left
    apply P.equals_of_fields_ne hab
    rw [P.hashCode_frame HashFields.initial hlt]
    exact keepsA
  · right
    apply P.equals_of_fields_ne hab
    rw [P.hashCode_frame HashFields.initial hgt]
    exact keepsB.symm

theorem distinguished_of_proper {a b c : Nat} (keepsA : P.KeepsHash a) (keepsB : P.KeepsHash b)
    (proper : P.Proper a b c) : P.Distinguished a b := by
  by_cases hab : a = b
  · subst hab
    refine Or.inl ⟨rfl, ?_⟩
    obtain ⟨n, hn, -⟩ := proper.sameHash _ Reachable.initial (P.equals_self _ a)
    have clean : ∀ x ≤ a, HashFields.initial x ≠ MIN_VALUE → P.NoNullRow x := fun x _ hset => absurd rfl hset
    exact (P.hashCode_clean clean (Option.isSome_of_eq_some hn)).1
  · have symm := proper.symmetric _ Reachable.initial
    have indep := proper.independent _ Reachable.initial
    rw [equals_initial] at symm indep
    rw [equals_initial] at symm
    have hne : P.sameContent a b = false := by
      rcases P.equals_after_hash hab keepsA keepsB with h | h
      · exact indep.1.symm.trans h
      · exact indep.2.symm.trans h
    exact Or.inr ⟨hab, hne, symm ▸ hne⟩

/-- The contract holds for one object and for values of different content, and for no
others whose hash codes are kept. -/
theorem proper_iff_distinguished (a b c : Nat) :
    (P.Distinguished a b → P.Proper a b c) ∧
      (P.KeepsHash a → P.KeepsHash b → P.Proper a b c → P.Distinguished a b) :=
  ⟨P.proper_of_distinguished c, P.distinguished_of_proper⟩

/-! ## The keyword of an alignment, written three times -/

def asciiUpper (c : Nat) : Nat := if 97 ≤ c ∧ c ≤ 122 then c - 32 else c

def asciiLower (c : Nat) : Nat := if 65 ≤ c ∧ c ≤ 90 then c + 32 else c

/-- Objects 0 and 1 hold `center`, object 2 holds `CENTER`. -/
def alignments : ParsedValues Unit where
  host := ⟨fun _ _ => true, fun _ => 0, fun id => BitVec.ofNat 32 id, asciiUpper, asciiLower⟩
  value i := if i < 2 then .string "center" else if i = 2 then .string "CENTER" else .null
  ordered := by
    intro i ref href
    by_cases h1 : i < 2
    · rw [if_pos h1] at href
      exact absurd href List.not_mem_nil
    · rw [if_neg h1] at href
      by_cases h2 : i = 2
      · rw [if_pos h2] at href
        exact absurd href List.not_mem_nil
      · rw [if_neg h2] at href
        exact absurd href List.not_mem_nil

/-- Hashing one of two equal values makes them different, and values that are equal
while none is hashed have different hash codes. -/
theorem hashed_keyword_differs :
    alignments.equals HashFields.initial 0 1 = true ∧
      alignments.equals (alignments.hashCode HashFields.initial 0).1 0 1 = false ∧
      alignments.equals HashFields.initial 0 2 = true ∧
      (alignments.hashCode HashFields.initial 0).2 ≠
        (alignments.hashCode (alignments.hashCode HashFields.initial 0).1 2).2 ∧
      ¬ alignments.Proper 0 1 2 := by
  have before : alignments.equals HashFields.initial 0 1 = true := by decide +kernel
  have after : alignments.equals (alignments.hashCode HashFields.initial 0).1 0 1 = false := by decide +kernel
  refine ⟨before, after, by decide +kernel, by decide +kernel, ?_⟩
  intro proper
  have same := (proper.independent _ Reachable.initial).1
  rw [before, after] at same
  exact Bool.false_ne_true same

/-- The theorem at two objects with the same content, and at two that differ. -/
theorem proper_iff_distinguished_keyword :
    alignments.Proper 0 3 1 ∧ ¬ alignments.Proper 0 2 1 := by
  constructor
  · apply (alignments.proper_iff_distinguished 0 3 1).1
    exact Or.inr ⟨by decide, by decide +kernel, by decide +kernel⟩
  · intro proper
    have keeps : alignments.KeepsHash 0 ∧ alignments.KeepsHash 2 := by
      constructor
      · unfold KeepsHash
        decide +kernel
      · unfold KeepsHash
        decide +kernel
    rcases (alignments.proper_iff_distinguished 0 2 1).2 keeps.1 keeps.2 proper with ⟨h, -⟩ | ⟨-, h, -⟩
    · exact absurd h (by decide)
    · exact absurd h (by decide +kernel)

end ParsedValues

end OpenJfx.Css
