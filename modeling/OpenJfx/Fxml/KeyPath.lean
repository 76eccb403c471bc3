import Mathlib

/-! # `KeyPath`

Characters are UTF-16 code units.  The character a reader stands at is the first
one of the text that is left; behind the last one it reads `-1`. -/
set_option autoImplicit false
namespace OpenJfx.Fxml

abbrev Code := Nat

def code (c : Char) : Code := c.toNat

def codes (s : String) : List Code := s.toList.map code

/-- What `java.lang.Character` tells of a code unit, and what is documented of it. -/
structure Characters where
  isDigit : Code → Bool
  isWhitespace : Code → Bool
  isISOControl : Code → Bool
  isJavaIdentifierStart : Code → Bool
  isJavaIdentifierPart : Code → Bool
  part_of_start : ∀ c, isJavaIdentifierStart c = true → isJavaIdentifierPart c = true
  digit_of_start : ∀ c, isJavaIdentifierStart c = true → isDigit c = false
  control_of_digit : ∀ c, isDigit c = true → isISOControl c = false
  punctuation : ∀ c ∈ ['.', '[', ']', '"', '\''],
    isDigit (code c) = false ∧ isJavaIdentifierPart (code c) = false
  letters : ∀ c ∈ ['a', 'e', 'f', 'l', 'n', 'r', 's', 't', 'u'], isJavaIdentifierPart (code c) = true

namespace KeyPath

section Parse
variable (chars : Characters)

/-- A character of a key that is not in brackets. -/
def isPlain (c : Code) : Bool := c ≠ code '.' && c ≠ code '[' && chars.isJavaIdentifierPart c

/-- The loop over a key in brackets that is not quoted, or of which the quotation has ended. -/
def indexKey : List Code → List Code → Except String (List Code × List Code)
  | _, [] => .error "Unterminated bracketed identifier."
  | key, c :: text =>
      if chars.isISOControl c then .error "Illegal identifier character."
      else if !chars.isDigit c then .error "Illegal character in index value."
      else if text.head? = some (code ']') then .ok (key ++ [c], text.tail)
      else indexKey (key ++ [c]) text

/-- The same loop while the key is quoted. -/
def quotedKey (quote : Code) : List Code → List Code → Except String (List Code × List Code)
  | _, [] => .error "Unterminated quoted identifier."
  | key, c :: text =>
      if chars.isISOControl c then .error "Illegal identifier character."
      else if text.head? = some quote then
        if text.tail.head? = some (code ']') then .ok (key ++ [c], text.tail.tail)
        else indexKey chars (key ++ [c]) text.tail
      else if text.head? = some (code ']') then .error "Unterminated quoted identifier."
      else quotedKey quote (key ++ [c]) text

def bracketedKey : List Code → Except String (List Code × List Code)
  | [] => indexKey chars [] []
  | c :: text =>
      if c = code '"' ∨ c = code '\'' then quotedKey chars c [] text else indexKey chars [] (c :: text)

/-- A key, and what is left behind it. -/
def readKey : List Code → Except String (List Code × List Code)
  | [] => .ok ([], [])
  | c :: text =>
      if c = code '[' then bracketedKey chars text
      else .ok ((c :: text).takeWhile (isPlain chars), (c :: text).dropWhile (isPlain chars))

/-- A turn of the loop over the elements. -/
def readElement (text : List Code) : Except String (List Code × List Code) :=
  match readKey chars text with
  | .error message => .error message
  | .ok (key, text) =>
      if text = [code '.'] then .error "Illegal terminator character."
      else if key = [] then .error "Missing identifier."
      else .ok (key, if text.head? = some (code '.') then text.tail else text)

variable {chars}

theorem indexKey_length {key text : List Code} {r : List Code × List Code} (h : indexKey chars key text = .ok r) :
    r.2.length ≤ text.length := by
  induction text generalizing key with
  | nil => cases h
  | cons c text ih =>
    unfold indexKey at h
    split at h
    · cases h
    · split at h
      · cases h
      · split at h
        · cases h
          simp only [List.length_tail, List.length_cons]
          omega
        · have := ih h
          simp only [List.length_cons]
          omega

theorem quotedKey_length {quote : Code} {key text : List Code} {r : List Code × List Code}
    (h : quotedKey chars quote key text = .ok r) : r.2.length ≤ text.length := by
  induction text generalizing key with
  | nil => cases h
  | cons c text ih =>
    unfold quotedKey at h
    split at h
    · cases h
    · split at h
      · split at h
        · cases h
          simp only [List.length_tail, List.length_cons]
          omega
        · have := indexKey_length h
          simp only [List.length_tail, List.length_cons] at this ⊢
          omega
      · split at h
        · cases h
        · have := ih h
          simp only [List.length_cons]
          omega

theorem bracketedKey_length {text : List Code} {r : List Code × List Code} (h : bracketedKey chars text = .ok r) :
    r.2.length ≤ text.length := by
  cases text with
  | nil => cases h
  | cons c text =>
    rw [bracketedKey] at h
    split at h
    · exact Nat.le_succ_of_le (quotedKey_length h)
    · exact indexKey_length h

theorem readKey_length {c : Code} {text : List Code} {r : List Code × List Code}
    (h : readKey chars (c :: text) = .ok r) : r.1 = [] ∨ r.2.length < (c :: text).length := by
  rw [readKey] at h
  split at h
  · exact Or.inr (Nat.lt_succ_of_le (bracketedKey_length h))
  · cases h
    by_cases hplain : isPlain chars c = true
    · right
      have := (List.dropWhile_sublist (isPlain chars) (l := text)).length_le
      simp only [List.dropWhile_cons, hplain, if_true, List.length_cons]
      omega
    · left
      simp [hplain]

theorem readElement_length {c : Code} {text : List Code} {r : List Code × List Code}
    (h : readElement chars (c :: text) = .ok r) : r.2.length < (c :: text).length := by
  unfold readElement at h
  split at h
  · cases h
  · rename_i key rest hkey
    split at h
    · cases h
    · split at h
      · cases h
      · rename_i hne
        cases h
        have := (readKey_length hkey).resolve_left hne
        dsimp only
        split
        · rw [List.length_tail]
          dsimp only at this
          omega
        · exact this

variable (chars)

/-- The elements, and the text behind them. -/
def elements : List Code → Except String (List (List Code) × List Code)
  | [] => .ok ([], [])
  | c :: text =>
      if chars.isJavaIdentifierStart c || c = code '[' then
        match _h : readElement chars (c :: text) with
        | .error message => .error message
        | .ok (key, rest) =>
            match elements rest with
            | .error message => .error message
            | .ok (keys, rest) => .ok (key :: keys, rest)
      else .ok ([], c :: text)
termination_by text => text.length
decreasing_by exact readElement_length _h

/-- `parse(reader)`; the reader is left at the character behind the path. -/
def parse (text : List Code) : Except String (List (List Code) × List Code) :=
  match elements chars text with
  | .error message => .error message
  | .ok ([], _) => .error "Invalid path."
  | .ok (key :: keys, rest) => .ok (key :: keys, rest)

def parseString (value : List Code) : Except String (List (List Code)) := (parse chars value).map Prod.fst

/-- What `toString()` appends for the elements behind the first one; `none` is the exception of
`charAt` for an empty element. -/
def suffix : List (List Code) → Option (List Code)
  | [] => some []
  | [] :: _ => none
  | (c :: element) :: rest => (suffix rest).map fun text =>
      if chars.isDigit c then code '[' :: (c :: element) ++ code ']' :: text
      else code '.' :: (c :: element) ++ text

def toString : List (List Code) → Option (List Code)
  | [] => some []
  | [] :: _ => none
  | (c :: element) :: rest => (suffix chars rest).map fun text =>
      if chars.isDigit c then code '[' :: (c :: element) ++ code ']' :: text else (c :: element) ++ text

end Parse

/-! ## Elements that are read back -/

section Elements
variable {chars : Characters} {c : Code} {e key t : List Code} {ps : List (List Code)}

def IsIdentifier (chars : Characters) (e : List Code) : Prop :=
  (∃ c ∈ e.head?, chars.isJavaIdentifierStart c = true) ∧ ∀ c ∈ e, chars.isJavaIdentifierPart c = true

/-- Spelled as an index or as an identifier. -/
def Bare (chars : Characters) (e : List Code) : Prop := (∀ c ∈ e, chars.isDigit c = true) ∨ IsIdentifier chars e

theorem isPlain_eq (chars : Characters) (c : Code) : isPlain chars c = chars.isJavaIdentifierPart c := by
  have hdot := (chars.punctuation '.' (by decide)).2
  have hbracket := (chars.punctuation '[' (by decide)).2
  unfold isPlain
  by_cases h1 : c = code '.'
  · rw [h1, hdot]
    simp
  · by_cases h2 : c = code '['
    · rw [h2, hbracket]
      simp
    · simp [h1, h2]

theorem isPlain_of_start (h : chars.isJavaIdentifierStart c = true) : c ≠ code '[' ∧ isPlain chars c = true := by
  have hpart := chars.part_of_start c h
  refine ⟨fun heq => ?_, (isPlain_eq chars c).trans hpart⟩
  rw [heq, (chars.punctuation '[' (by decide)).2] at hpart
  exact Bool.false_ne_true hpart

theorem suffix_eq (h : suffix chars ps = some t) :
    ∃ text, toString chars ps = some text ∧ (t = text ∧ (text = [] ∨ text.head? = some (code '[')) ∨
      t = code '.' :: text ∧ text ≠ []) := by
  match ps, h with
  | [], h =>
    cases h
    exact ⟨[], rfl, Or.inl ⟨rfl, Or.inl rfl⟩⟩
  | (c :: e) :: ps, h =>
    rw [suffix, Option.map_eq_some_iff] at h
    obtain ⟨t', hrest, rfl⟩ := h
    rw [toString, hrest]
    by_cases hdigit : chars.isDigit c = true
    · simp only [hdigit, if_true]
      exact ⟨_, rfl, Or.inl ⟨rfl, Or.inr rfl⟩⟩
    · simp only [hdigit]
      exact ⟨_, rfl, Or.inr ⟨rfl, nofun⟩⟩

theorem indexKey_index (he : e ≠ []) (hdigits : ∀ c ∈ e, chars.isDigit c = true) (key t : List Code) :
    indexKey chars key (e ++ code ']' :: t) = .ok (key ++ e, t) := by
  induction e generalizing key with
  | nil => exact absurd rfl he
  | cons c e ih =>
    have hc := hdigits c List.mem_cons_self
    rw [List.cons_append, indexKey, chars.control_of_digit c hc, hc]
    cases e with
    | nil => rfl
    | cons d e =>
      have hd := hdigits d (by simp)
      have hne : d ≠ code ']' := by
        intro heq
        rw [heq, (chars.punctuation ']' (by decide)).1] at hd
        exact Bool.false_ne_true hd
      have hrest := ih (by simp) (fun x hx => hdigits x (List.mem_cons_of_mem c hx)) (key ++ [c])
      simpa [hne] using hrest

theorem readElement_key {text : List Code} (h : readKey chars text = .ok (e, t)) (he : e ≠ [])
    (hps : suffix chars ps = some t) :
    ∃ rest, toString chars ps = some rest ∧ readElement chars text = .ok (e, rest) := by
  obtain ⟨rest, htext, hcase⟩ := suffix_eq hps
  refine ⟨rest, htext, ?_⟩
  rw [readElement, h]
  rcases hcase with ⟨rfl, hhead⟩ | ⟨rfl, hne⟩
  · have hdot : t.head? ≠ some (code '.') := by
      rcases hhead with rfl | hhead
      · exact nofun
      · rw [hhead]
        decide
    have hsingle : t ≠ [code '.'] := fun heq => hdot (by rw [heq]; rfl)
    simp [hsingle, he, hdot]
  · simp [hne, he]

theorem readKey_identifier (h : IsIdentifier chars e) (hstop : ∀ x ∈ t.head?, chars.isJavaIdentifierPart x = false) :
    readKey chars (e ++ t) = .ok (e, t) := by
  obtain ⟨⟨c, hc, hstart⟩, hpart⟩ := h
  cases e with
  | nil => cases hc
  | cons d e =>
    cases hc
    have hplain : ∀ x ∈ c :: e, isPlain chars x = true := fun x hx => (isPlain_eq chars x).trans (hpart x hx)
    rw [List.cons_append, readKey, if_neg (isPlain_of_start hstart).1, ← List.cons_append,
      List.takeWhile_append_of_pos hplain, List.dropWhile_append_of_pos hplain]
    cases t with
    | nil => simp
    | cons x t => simp [isPlain_eq, hstop x rfl]

theorem readElement_bare (h : Bare chars (c :: e)) (hps : suffix chars ps = some t) :
    ∃ rest, toString chars ps = some rest ∧
      readElement chars (if chars.isDigit c then code '[' :: (c :: e) ++ code ']' :: t else (c :: e) ++ t) =
        .ok (c :: e, rest) := by
  by_cases hdigit : chars.isDigit c = true
  · have hall : ∀ x ∈ c :: e, chars.isDigit x = true := by
      rcases h with hall | ⟨⟨d, hd, hstart⟩, -⟩
      · exact hall
      · cases hd
        rw [chars.digit_of_start _ hstart] at hdigit
        exact absurd hdigit Bool.false_ne_true
    have hquote : ¬(c = code '"' ∨ c = code '\'') := by
      rintro (rfl | rfl)
      · rw [(chars.punctuation '"' (by decide)).1] at hdigit
        exact Bool.false_ne_true hdigit
      · rw [(chars.punctuation '\'' (by decide)).1] at hdigit
        exact Bool.false_ne_true hdigit
    rw [if_pos hdigit]
    apply readElement_key _ (List.cons_ne_nil c e) hps
    rw [List.cons_append, readKey, if_pos rfl, List.cons_append, bracketedKey, if_neg hquote]
    exact indexKey_index (List.cons_ne_nil c e) hall [] t
  · rw [if_neg hdigit]
    have hid : IsIdentifier chars (c :: e) := h.resolve_left fun hall => hdigit (hall c List.mem_cons_self)
    refine readElement_key (readKey_identifier hid ?_) (List.cons_ne_nil c e) hps
    obtain ⟨rest, -, ⟨rfl, rfl | hhead⟩ | ⟨rfl, -⟩⟩ := suffix_eq hps
    · exact nofun
    · rw [hhead]
      rintro _ ⟨⟩
      exact (chars.punctuation '[' (by decide)).2
    · rintro _ ⟨⟩
      exact (chars.punctuation '.' (by decide)).2

theorem indexKey_digits {text : List Code} {r : List Code × List Code} (h : indexKey chars key text = .ok r) :
    ∃ ds, r.1 = key ++ ds ∧ ∀ c ∈ ds, chars.isDigit c = true := by
  induction text generalizing key with
  | nil => cases h
  | cons c text ih =>
    rw [indexKey] at h
    split at h
    · cases h
    · split at h
      · cases h
      · rename_i hdigit
        have hc : chars.isDigit c = true := by simpa using hdigit
        split at h
        · cases h
          exact ⟨[c], rfl, by simpa using hc⟩
        · obtain ⟨ds, hr, hds⟩ := ih h
          exact ⟨c :: ds, by rw [hr]; simp, by simpa [hc] using hds⟩

theorem quotedKey_tail {quote : Code} (hquote : chars.isDigit quote = false) {text : List Code}
    {r : List Code × List Code} (h : quotedKey chars quote key text = .ok r) :
    ∃ c ds, text.head? = some c ∧ r.1 = key ++ c :: ds ∧ quote ∉ ds := by
  induction text generalizing key with
  | nil => cases h
  | cons c text ih =>
    rw [quotedKey] at h
    split at h
    · cases h
    · split at h
      · split at h
        · cases h
          exact ⟨c, [], rfl, rfl, List.not_mem_nil⟩
        · obtain ⟨ds, hr, hds⟩ := indexKey_digits h
          refine ⟨c, ds, rfl, by rw [hr]; simp, fun hmem => ?_⟩
          rw [hds quote hmem] at hquote
          exact Bool.false_ne_true hquote.symm
      · split at h
        · cases h
        · rename_i hne _
          obtain ⟨d, ds, hhead, hr, hds⟩ := ih h
          refine ⟨c, d :: ds, rfl, by rw [hr]; simp, fun hmem => ?_⟩
          rcases List.mem_cons.mp hmem with rfl | hmem
          · exact hne hhead
          · exact hds hmem

theorem readKey_of_readElement {text : List Code} {rest : List Code} (h : readElement chars text = .ok (e, rest)) :
    ∃ behind, readKey chars text = .ok (e, behind) := by
  unfold readElement at h
  split at h
  · cases h
  · rename_i key behind hkey
    split at h
    · cases h
    · split at h
      · cases h
      · cases h
        exact ⟨behind, hkey⟩

theorem bare_of_readElement {rest : List Code} (hps : suffix chars ps = some t)
    (h : readElement chars (if chars.isDigit c then code '[' :: (c :: e) ++ code ']' :: t else (c :: e) ++ t) =
      .ok (c :: e, rest)) (hstart : chars.isDigit c = true ∨ chars.isJavaIdentifierStart c = true ∨ c = code '[') :
    Bare chars (c :: e) := by
  obtain ⟨behind, hkey⟩ := readKey_of_readElement h
  by_cases hdigit : chars.isDigit c = true
  · left
    have hquote : ¬(c = code '"' ∨ c = code '\'') := by
      rintro (rfl | rfl)
      · rw [(chars.punctuation '"' (by decide)).1] at hdigit
        exact Bool.false_ne_true hdigit
      · rw [(chars.punctuation '\'' (by decide)).1] at hdigit
        exact Bool.false_ne_true hdigit
    rw [if_pos hdigit, List.cons_append, readKey, if_pos rfl, List.cons_append, bracketedKey, if_neg hquote] at hkey
    obtain ⟨ds, hr, hds⟩ := indexKey_digits hkey
    rw [List.nil_append] at hr
    exact fun x hx => hds x (hr ▸ hx)
  · rw [if_neg hdigit, List.cons_append, readKey] at hkey
    rcases hstart.resolve_left hdigit with hstart | hbracket
    · right
      rw [if_neg (isPlain_of_start hstart).1] at hkey
      have hall : (c :: (e ++ t)).takeWhile (isPlain chars) = c :: e := (Prod.mk.inj (Except.ok.inj hkey)).1
      refine ⟨⟨c, rfl, hstart⟩, fun x hx => ?_⟩
      rw [← isPlain_eq]
      exact List.mem_takeWhile_imp (hall ▸ hx)
    · exfalso
      rw [if_pos hbracket] at hkey
      cases het : e ++ t with
      | nil =>
        rw [het] at hkey
        cases hkey
      | cons x text =>
        rw [het, bracketedKey] at hkey
        by_cases hx : x = code '"' ∨ x = code '\''
        · rw [if_pos hx] at hkey
          have hxdigit : chars.isDigit x = false := by
            rcases hx with rfl | rfl
            · exact (chars.punctuation '"' (by decide)).1
            · exact (chars.punctuation '\'' (by decide)).1
          obtain ⟨d, ds, -, hr, hds⟩ := quotedKey_tail hxdigit hkey
          obtain ⟨-, hds'⟩ := List.cons.inj hr
          cases e with
          | nil =>
            -- the text behind the element does not start with a quotation mark
            rw [List.nil_append] at het
            obtain ⟨_, -, ⟨rfl, rfl | hhead⟩ | ⟨rfl, -⟩⟩ := suffix_eq hps
            · cases het
            · rw [het] at hhead
              cases hhead
              revert hx
              decide
            · cases het
              revert hx
              decide
          | cons y e =>
            obtain ⟨rfl, -⟩ := List.cons.inj het
            exact hds (hds' ▸ List.mem_cons_self)
        · rw [if_neg hx] at hkey
          obtain ⟨ds, hr, hds⟩ := indexKey_digits hkey
          rw [List.nil_append] at hr
          exact hdigit (hds c (hr ▸ List.mem_cons_self))

end Elements

section RoundTrip
variable {chars : Characters} {c : Code} {e t : List Code} {ps : List (List Code)}

theorem elements_cons (hstart : (chars.isJavaIdentifierStart c || c = code '[') = true) (text : List Code) :
    elements chars (c :: text) = match readElement chars (c :: text) with
      | .error message => .error message
      | .ok (key, rest) => match elements chars rest with
        | .error message => .error message
        | .ok (keys, rest) => .ok (key :: keys, rest) := by
  rw [elements, if_pos hstart]
  split
  · rename_i message h
    simp only [h]
  · rename_i key rest h
    simp only [h]

theorem elements_stop (hstart : ¬(chars.isJavaIdentifierStart c || c = code '[') = true) (text : List Code) :
    elements chars (c :: text) = .ok ([], c :: text) := by
  rw [elements, if_neg hstart]

theorem elements_toString (h : toString chars ps = some t) :
    (∃ rest, elements chars t = .ok (ps, rest)) ↔ ∀ e ∈ ps, Bare chars e := by
  induction ps generalizing t with
  | nil =>
    cases h
    exact iff_of_true ⟨[], by rw [elements]⟩ nofun
  | cons e ps ih =>
    cases e with
    | nil => cases h
    | cons c e =>
      rw [toString, Option.map_eq_some_iff] at h
      obtain ⟨behind, hps, rfl⟩ := h
      -- the first character of the text
      obtain ⟨x, text, htext, hx⟩ : ∃ x text,
          (if chars.isDigit c then code '[' :: (c :: e) ++ code ']' :: behind else (c :: e) ++ behind) =
            x :: text ∧ x = if chars.isDigit c then code '[' else c := by
        by_cases hdigit : chars.isDigit c = true
        · simp only [hdigit, if_true]
          exact ⟨_, _, rfl, rfl⟩
        · simp only [hdigit]
          exact ⟨_, _, rfl, rfl⟩
      have hstart : (chars.isJavaIdentifierStart x || x = code '[') = true ↔
          chars.isDigit c = true ∨ chars.isJavaIdentifierStart c = true ∨ c = code '[' := by
        rw [hx]
        by_cases hdigit : chars.isDigit c = true
        · simp [hdigit]
        · simp [hdigit]
      rw [htext]
      constructor
      · rintro ⟨rest, helements⟩
        by_cases hgo : (chars.isJavaIdentifierStart x || x = code '[') = true
        · rw [elements_cons hgo] at helements
          split at helements
          · cases helements
          · rename_i key rest₁ hread
            split at helements
            · cases helements
            · rename_i keys rest₂ hrest
              cases helements
              rw [← htext] at hread
              have hbare := bare_of_readElement hps hread (hstart.mp hgo)
              obtain ⟨rest', hprinted, hread'⟩ := readElement_bare hbare hps
              rw [hread] at hread'
              cases hread'
              exact List.forall_mem_cons.mpr ⟨hbare, (ih hprinted).mp ⟨_, hrest⟩⟩
        · rw [elements_stop hgo] at helements
          cases helements
      · intro hall
        obtain ⟨hbare, hrest⟩ := List.forall_mem_cons.mp hall
        have hgo := hstart.mpr (by
          rcases hbare with hdigits | ⟨⟨d, hd, hid⟩, -⟩
          · exact Or.inl (hdigits c List.mem_cons_self)
          · cases hd
            exact Or.inr (Or.inl hid))
        obtain ⟨rest', hprinted, hread⟩ := readElement_bare hbare hps
        obtain ⟨rest, helements⟩ := (ih hprinted).mpr hrest
        rw [htext] at hread
        rw [elements_cons hgo, hread]
        exact ⟨rest, by simp only [helements]⟩

theorem readElement_nonempty {key rest : List Code} (h : readElement chars t = .ok (key, rest)) : key ≠ [] := by
  unfold readElement at h
  split at h
  · cases h
  · split at h
    · cases h
    · split at h
      · cases h
      · rename_i hne
        cases h
        exact hne

theorem elements_nonempty {rest : List Code} (h : elements chars t = .ok (ps, rest)) : ∀ e ∈ ps, e ≠ [] := by
  induction ps generalizing t rest with
  | nil => exact nofun
  | cons e ps ih =>
    cases t with
    | nil =>
      rw [elements] at h
      cases h
    | cons x text =>
      by_cases hgo : (chars.isJavaIdentifierStart x || x = code '[') = true
      · rw [elements_cons hgo] at h
        split at h
        · cases h
        · rename_i hread
          split at h
          · cases h
          · rename_i hrest
            cases h
            exact List.forall_mem_cons.mpr ⟨readElement_nonempty hread, ih hrest⟩
      · rw [elements_stop hgo] at h
        cases h

theorem exists_suffix (h : ∀ e ∈ ps, e ≠ []) : ∃ t, suffix chars ps = some t := by
  induction ps with
  | nil => exact ⟨[], rfl⟩
  | cons e ps ih =>
    obtain ⟨hne, hrest⟩ := List.forall_mem_cons.mp h
    obtain ⟨t, ht⟩ := ih hrest
    cases e with
    | nil => exact absurd rfl hne
    | cons c e => exact ⟨_, by rw [suffix, ht, Option.map_some]⟩

theorem parseString_iff {text : List Code} {path : List (List Code)} :
    parseString chars text = .ok path ↔ path ≠ [] ∧ ∃ rest, elements chars text = .ok (path, rest) := by
  unfold parseString parse
  cases elements chars text with
  | error message => simp [Except.map]
  | ok r =>
    obtain ⟨keys, rest⟩ := r
    cases keys with
    | nil =>
      refine iff_of_false nofun ?_
      rintro ⟨hne, _, heq⟩
      cases heq
      exact hne rfl
    | cons key keys =>
      constructor
      · intro h
        cases h
        exact ⟨nofun, rest, rfl⟩
      · rintro ⟨-, _, heq⟩
        cases heq
        rfl

/-- A key path that has been read is read back from its text exactly if each of its elements is an
index or an identifier. -/
theorem parse_toString_iff (chars : Characters) {text : List Code} {path : List (List Code)}
    (h : parseString chars text = .ok path) :
    (∃ printed, toString chars path = some printed ∧ parseString chars printed = .ok path) ↔
      ∀ e ∈ path, Bare chars e := by
  obtain ⟨hne, rest, helements⟩ := parseString_iff.mp h
  obtain ⟨behind, hsuffix⟩ := @exists_suffix chars _ (elements_nonempty helements)
  obtain ⟨printed, hprinted, -⟩ := suffix_eq hsuffix
  rw [← elements_toString hprinted]
  constructor
  · rintro ⟨printed', hprinted', hparse⟩
    rw [hprinted] at hprinted'
    cases hprinted'
    exact (parseString_iff.mp hparse).2
  · exact fun hread => ⟨printed, hprinted, parseString_iff.mpr ⟨hne, hread⟩⟩

/-- The table below 160; above it no character is a digit or part of an identifier. -/
def latin : Characters where
  isDigit c := 48 ≤ c && c ≤ 57
  isWhitespace c := (9 ≤ c && c ≤ 13) || (28 ≤ c && c ≤ 32)
  isISOControl c := c ≤ 31 || (127 ≤ c && c ≤ 159)
  isJavaIdentifierStart c := (65 ≤ c && c ≤ 90) || (97 ≤ c && c ≤ 122) || c = 36 || c = 95
  isJavaIdentifierPart c := (65 ≤ c && c ≤ 90) || (97 ≤ c && c ≤ 122) || c = 36 || c = 95 ||
    (48 ≤ c && c ≤ 57) || c ≤ 8 || (14 ≤ c && c ≤ 27) || (127 ≤ c && c ≤ 159)
  part_of_start c h := by
    grind
  digit_of_start c h := by
    grind
  control_of_digit c h := by
    grind
  punctuation c hc := by
    simp only [List.mem_cons, List.not_mem_nil, or_false] at hc
    rcases hc with rfl | rfl | rfl | rfl | rfl <;> decide
  letters c hc := by
    simp only [List.mem_cons, List.not_mem_nil, or_false] at hc
    rcases hc with rfl | rfl | rfl | rfl | rfl | rfl | rfl | rfl | rfl <;> decide

theorem read_quoted : parseString latin (codes "a['b c']") = .ok [codes "a", codes "b c"] := by decide +kernel

/-- A key with a blank is printed without its brackets, and read back up to the blank. -/
theorem quoted_not_read_back :
    parseString latin (codes "a['b c']") = .ok [codes "a", codes "b c"] ∧
      toString latin [codes "a", codes "b c"] = some (codes "a.b c") ∧
      parseString latin (codes "a.b c") = .ok [codes "a", codes "b"] := by
  decide +kernel

theorem parse_toString_quoted :
    (∃ printed, toString latin [codes "a", codes "b c"] = some printed ∧
        parseString latin printed = .ok [codes "a", codes "b c"]) ↔
      ∀ e ∈ [codes "a", codes "b c"], Bare latin e :=
  parse_toString_iff latin read_quoted

end RoundTrip

end KeyPath
end OpenJfx.Fxml
