import OpenJfx.Fxml.KeyPath
import Mathlib.Logic.Relation

/-! # `Expression.Parser.tokenize`

The text of a state starts with the character `c` that has been read last.  The
pushback buffer of `readKeyword` is kept from one call to the next.  The reader
takes back as many characters as it has given, and one more. -/
set_option autoImplicit false
namespace OpenJfx.Fxml

/-- What the tokenizer asks `java.lang.Integer`, `Long` and `Double`. -/
structure Library extends Characters where
  parseHex : List Code → Option Code
  isLong : List Code → Bool
  isDouble : List Code → Bool

inductive Operator
  | negate | not | multiply | divide | modulo | add | subtract | greaterThan | greaterThanOrEqualTo | lessThan
  | lessThanOrEqualTo | equalTo | notEqualTo | and | or
deriving DecidableEq, Repr

def Operator.getPriority : Operator → Nat
  | .negate | .not => 6
  | .multiply | .divide | .modulo => 5
  | .add | .subtract => 4
  | .greaterThan | .greaterThanOrEqualTo | .lessThan | .lessThanOrEqualTo => 3
  | .equalTo | .notEqualTo => 2
  | .and => 1
  | .or => 0

def maxPriority : Nat := 6

inductive Literal
  | null
  | bool (value : Bool)
  | string (value : List Code)
  | number (integer : Bool) (digits : List Code)
deriving DecidableEq, Repr

inductive Token
  | literal (value : Literal)
  | variable (keyPath : List (List Code))
  | unaryOperator (value : Operator)
  | binaryOperator (value : Operator)
  | beginGroup
  | endGroup
deriving DecidableEq, Repr

inductive TokenizeError
  | illegalArgument (message : String)
  | numberFormat
  | noSuchElement
deriving DecidableEq, Repr

structure Tokenizer where
  text : List Code
  unary : Bool
  tokens : List Token
  stack : List Token
  pushbackBuffer : List Code
deriving DecidableEq, Repr

def unexpected {α : Type} : Except TokenizeError α := .error (.illegalArgument "Unexpected character in expression.")

namespace Tokenizer

def start (text pushbackBuffer : List Code) : Tokenizer := ⟨text, true, [], [], pushbackBuffer⟩

/-- The loop from the `i`-th character of the keyword on: whether the keyword was read, the text
and the buffer. -/
def readKeyword : List Code → Nat → List Code → List Code → Bool × List Code × List Code
  | [], _, text, buffer => (true, text, buffer)
  | _ :: _, i, [], buffer => (false, buffer.take (i + 1), buffer)
  | k :: keyword, i, c :: text, buffer =>
      let buffer := buffer.set i c
      if k ≠ c then (false, buffer.take (i + 1) ++ text, buffer) else readKeyword keyword (i + 1) text buffer

section Read
variable (lib : Library)

/-- The text between the delimiters `t`, and what is left behind it. -/
def readString (t : Code) : List Code → List Code → Except TokenizeError (List Code × List Code)
  | _, [] => .error (.illegalArgument "Unterminated string.")
  | string, c :: text =>
      if c = t then .ok (string, text)
      else if lib.isISOControl c then readString t string text
      else if c = code '\\' then
        match text with
        | [] => .error (.illegalArgument "Unsupported escape sequence.")
        | escape :: text =>
            if escape = code 'b' then readString t (string ++ [8]) text
            else if escape = code 'f' then readString t (string ++ [12]) text
            else if escape = code 'n' then readString t (string ++ [10]) text
            else if escape = code 'r' then readString t (string ++ [13]) text
            else if escape = code 't' then readString t (string ++ [9]) text
            else if escape = code 'u' then
              match text with
              | a :: b :: c :: d :: text =>
                  match lib.parseHex [a, b, c, d] with
                  | none => .error .numberFormat
                  | some value => readString t (string ++ [value]) text
              | short =>
                  -- the end of the text is read as the character `-1`
                  match lib.parseHex (short ++ List.replicate (4 - short.length) 0xFFFF) with
                  | none => .error .numberFormat
                  | some _ => .error (.illegalArgument "Unterminated string.")
            else if escape ∈ [code '\\', code '/', code '"', code '\'', t] then readString t (string ++ [escape]) text
            else .error (.illegalArgument "Unsupported escape sequence.")
      else readString t (string ++ [c]) text

attribute [local simp] readString

def readNumber (text : List Code) : Except TokenizeError (Token × List Code) :=
  let isPart := fun c => lib.isDigit c || c = code '.' || c = code 'e' || c = code 'E'
  let digits := text.takeWhile isPart
  let integer := !digits.contains (code '.')
  if (if integer then lib.isLong digits else lib.isDouble digits) then
    .ok (.literal (.number integer digits), text.dropWhile isPart)
  else .error .numberFormat

def readPath (text : List Code) : Except TokenizeError (Token × List Code) :=
  match KeyPath.parse lib.toCharacters text with
  | .error message => .error (.illegalArgument message)
  | .ok (path, rest) => .ok (.variable path, rest)

/-- An operator that may be one character, or two. -/
def readOperator (text : List Code) (next : Code) (long : Operator) (short : Option Operator) :
    Except TokenizeError (Token × List Code) :=
  if text.head? = some next then .ok (.binaryOperator long, text.tail)
  else match short with
    | none => unexpected
    | some short => .ok (.binaryOperator short, text)

def readUnary (c : Code) (text : List Code) : Except TokenizeError (Token × List Code) :=
  if c = code '-' then .ok (.unaryOperator .negate, text)
  else if c = code '!' then .ok (.unaryOperator .not, text)
  else if c = code '(' then .ok (.beginGroup, text)
  else unexpected

def readBinary (c : Code) (text : List Code) : Except TokenizeError (Token × List Code) :=
  if c = code '+' then .ok (.binaryOperator .add, text)
  else if c = code '-' then .ok (.binaryOperator .subtract, text)
  else if c = code '*' then .ok (.binaryOperator .multiply, text)
  else if c = code '/' then .ok (.binaryOperator .divide, text)
  else if c = code '%' then .ok (.binaryOperator .modulo, text)
  else if c = code '=' then readOperator text (code '=') .equalTo none
  else if c = code '!' then readOperator text (code '=') .notEqualTo none
  else if c = code '>' then readOperator text (code '=') .greaterThanOrEqualTo (some .greaterThan)
  else if c = code '<' then readOperator text (code '=') .lessThanOrEqualTo (some .lessThan)
  else if c = code '&' then readOperator text (code '&') .and none
  else if c = code '|' then readOperator text (code '|') .or none
  else if c = code ')' then .ok (.endGroup, text)
  else unexpected

/-- A token that is a keyword or starts with its first letter. -/
def readWord (keyword : List Code) (value : Literal) (text buffer : List Code) :
    Except TokenizeError (Token × List Code × List Code) :=
  let (found, text, buffer) := readKeyword keyword 0 text buffer
  if found then .ok (.literal value, text, buffer)
  else (readPath lib text).map fun (token, text) => (token, text, buffer)

/-- The token at the first character, the text behind it, and the buffer. -/
def readToken (unary : Bool) (c : Code) (text buffer : List Code) :
    Except TokenizeError (Token × List Code × List Code) :=
  if c = code 'n' then readWord lib (codes "null") .null (c :: text) buffer
  else if c = code '"' ∨ c = code '\'' then
    (readString lib c [] text).map fun (string, text) => (.literal (.string string), text, buffer)
  else if lib.isDigit c then (readNumber lib (c :: text)).map fun (token, text) => (token, text, buffer)
  else if c = code 't' then readWord lib (codes "true") (.bool true) (c :: text) buffer
  else if c = code 'f' then readWord lib (codes "false") (.bool false) (c :: text) buffer
  else if lib.isJavaIdentifierStart c then
    (readPath lib (c :: text)).map fun (token, text) => (token, text, buffer)
  else (if unary then readUnary c text else readBinary c text).map fun (token, text) => (token, text, buffer)

/-- An operator on the stack that goes in front of one of a priority. -/
def outranks (priority : Nat) : Token → Bool
  | .unaryOperator op | .binaryOperator op => priority ≤ op.getPriority && op.getPriority != maxPriority
  | _ => false

def pushOperator (token : Token) (op : Operator) (s : Tokenizer) : Tokenizer :=
  { s with
    tokens := s.tokens ++ s.stack.takeWhile (outranks op.getPriority)
    stack := token :: s.stack.dropWhile (outranks op.getPriority) }

/-- "Process the token". -/
def process (s : Tokenizer) : Token → Except TokenizeError Tokenizer
  | .literal value => .ok { s with tokens := s.tokens ++ [.literal value] }
  | .variable path => .ok { s with tokens := s.tokens ++ [.variable path] }
  | .unaryOperator op => .ok (s.pushOperator (.unaryOperator op) op)
  | .binaryOperator op => .ok (s.pushOperator (.binaryOperator op) op)
  | .beginGroup => .ok { s with stack := .beginGroup :: s.stack }
  | .endGroup =>
      match s.stack.dropWhile (· ≠ .beginGroup) with
      | [] => .error .noSuchElement
      | _ :: stack => .ok { s with tokens := s.tokens ++ s.stack.takeWhile (· ≠ .beginGroup), stack := stack }

/-- Whether an operator that follows a token has one operand. -/
def unaryAfter : Token → Bool
  | .literal _ | .variable _ | .endGroup => false
  | _ => true

def turn (s : Tokenizer) : Except TokenizeError Tokenizer :=
  match s.text.dropWhile lib.isWhitespace with
  | [] => .ok { s with text := [] }
  | c :: text =>
      match readToken lib s.unary c text s.pushbackBuffer with
      | .error error => .error error
      | .ok (token, text, buffer) =>
          process { s with text := text, pushbackBuffer := buffer, unary := unaryAfter token } token

/-- The loop goes on. -/
def Step (s s' : Tokenizer) : Prop := s.text ≠ [] ∧ turn lib s = .ok s'

/-- What `tokenize` returns at the end of the text. -/
def result (s : Tokenizer) : List Token := s.tokens ++ s.stack

end Read

/-! ## Keywords -/

section Keywords
variable {keyword text buffer consumed : List Code} {i : Nat}

theorem readKeyword_length (keyword : List Code) (i : Nat) (text buffer : List Code) :
    (readKeyword keyword i text buffer).2.2.length = buffer.length := by
  induction keyword generalizing i text buffer with
  | nil => rfl
  | cons k keyword ih =>
    cases text with
    | nil => rfl
    | cons c text =>
      simp only [readKeyword]
      split
      · exact List.length_set ..
      · rw [ih, List.length_set]

theorem readKeyword_found (keyword : List Code) (i : Nat) (rest buffer : List Code) :
    ∃ buffer', readKeyword keyword i (keyword ++ rest) buffer = (true, rest, buffer') := by
  induction keyword generalizing i buffer with
  | nil => exact ⟨buffer, rfl⟩
  | cons k keyword ih =>
    obtain ⟨buffer', hrest⟩ := ih (i + 1) (buffer.set i k)
    exact ⟨buffer', by simpa [readKeyword] using hrest⟩

/-- A text that is not the keyword is taken back whole; where it ends within the keyword, the
character of the buffer behind it is taken back as well. -/
theorem readKeyword_back (hbuffer : i + keyword.length < buffer.length) (hconsumed : buffer.take i = consumed)
    (hnot : ¬keyword <+: text) :
    ∃ buffer', readKeyword keyword i text buffer =
      (false, consumed ++ text ++ (if text <+: keyword then buffer[i + text.length]?.toList else []), buffer') := by
  induction keyword generalizing i text buffer consumed with
  | nil => exact absurd List.nil_prefix hnot
  | cons k keyword ih =>
    have hi : i < buffer.length := by
      rw [List.length_cons] at hbuffer
      omega
    have htake : ∀ b : List Code, i < b.length → b.take i = consumed → b.take (i + 1) = consumed ++ b[i]?.toList := by
      intro b hb hprefix
      rw [List.take_add_one, hprefix]
    cases text with
    | nil => exact ⟨buffer, by simp [readKeyword, htake buffer hi hconsumed]⟩
    | cons c text =>
      have hset : (buffer.set i c).take (i + 1) = consumed ++ [c] := by
        rw [htake _ (by simpa using hi) (by rw [List.take_set_of_le le_rfl, hconsumed]), List.getElem?_set_self hi]
        rfl
      by_cases heq : k = c
      · subst heq
        rw [List.prefix_cons_inj] at hnot
        obtain ⟨buffer', hrest⟩ := @ih text (buffer.set i k) (consumed ++ [k]) (i + 1) (by
          rw [List.length_cons] at hbuffer
          rw [List.length_set]
          omega) hset hnot
        refine ⟨buffer', ?_⟩
        have hstale : (buffer.set i k)[i + 1 + text.length]? = buffer[i + (k :: text).length]? := by
          rw [List.getElem?_set_ne (by omega), List.length_cons]
          congr 1
          omega
        rw [hstale] at hrest
        simp only [readKeyword, ne_eq, not_true_eq_false, if_false, List.prefix_cons_inj]
        rw [hrest]
        simp
      · have hno : ¬c :: text <+: k :: keyword := fun h => heq (List.cons_prefix_cons.mp h).1.symm
        refine ⟨buffer.set i c, ?_⟩
        simp only [readKeyword, ne_eq, heq, not_false_eq_true, if_true, hset, if_neg hno]
        simp

end Keywords

/-! ## Identifiers -/

section Paths
variable {chars : Characters} {p rest : List Code} {x : Code}

theorem parse_of_readElement {c : Code} {text key : List Code}
    (hstart : chars.isJavaIdentifierStart c = true) (hread : KeyPath.readElement chars (c :: text) = .ok (key, rest)) :
    KeyPath.parse chars (c :: text) =
      (KeyPath.elements chars rest).map fun (keys, rest) => (key :: keys, rest) := by
  rw [KeyPath.parse, KeyPath.elements_cons (by simp [hstart]), hread]
  dsimp only
  cases KeyPath.elements chars rest with
  | error message => rfl
  | ok r => rfl

theorem parse_identifier (hid : KeyPath.IsIdentifier chars p)
    (hstop : ∀ x ∈ rest.head?, chars.isJavaIdentifierPart x = false) {behind : List Code}
    {paths : List (List Code)} (h : KeyPath.parse chars (p ++ rest) = .ok (paths, behind)) :
    ∃ keys, paths = p :: keys := by
  have hkey := KeyPath.readKey_identifier hid hstop
  obtain ⟨⟨c, hc, hstart⟩, -⟩ := hid
  cases p with
  | nil => cases hc
  | cons d p =>
    cases hc
    by_cases hdot : rest = [code '.']
    · have herror : KeyPath.readElement chars (c :: p ++ rest) = .error "Illegal terminator character." := by
        rw [KeyPath.readElement, hkey]
        exact if_pos hdot
      rw [List.cons_append] at h herror
      rw [KeyPath.parse, KeyPath.elements_cons (by simp [hstart]), herror] at h
      cases h
    · have hread : ∃ r, KeyPath.readElement chars (c :: p ++ rest) = .ok (c :: p, r) := by
        rw [KeyPath.readElement, hkey]
        exact ⟨_, (if_neg hdot).trans (if_neg (List.cons_ne_nil c p))⟩
      obtain ⟨r, hread⟩ := hread
      rw [List.cons_append] at h hread
      rw [parse_of_readElement hstart hread] at h
      cases helements : KeyPath.elements chars r with
      | error message =>
        rw [helements] at h
        cases h
      | ok keys =>
        rw [helements] at h
        cases h
        exact ⟨_, rfl⟩

theorem parse_stale_iff (hid : KeyPath.IsIdentifier chars p) (x : Code) :
    (∃ keys behind, KeyPath.parse chars (p ++ [x]) = .ok (p :: keys, behind)) ↔
      chars.isJavaIdentifierPart x = false ∧ x ≠ code '.' ∧ x ≠ code '[' := by
  by_cases hpart : chars.isJavaIdentifierPart x = true
  · refine iff_of_false ?_ (by simp [hpart])
    rintro ⟨keys, behind, h⟩
    have hlong : KeyPath.IsIdentifier chars (p ++ [x]) := by
      obtain ⟨⟨c, hc, hstart⟩, hall⟩ := hid
      refine ⟨⟨c, ?_, hstart⟩, fun y hy => ?_⟩
      · rw [List.head?_append, Option.mem_def.mp hc]
        rfl
      · rcases List.mem_append.mp hy with hy | hy
        · exact hall y hy
        · rwa [List.mem_singleton.mp hy]
    rw [← List.append_nil (p ++ [x])] at h
    have hend : ∀ y ∈ ([] : List Code).head?, chars.isJavaIdentifierPart y = false := by
      intro y hy
      cases hy
    obtain ⟨keys', heq⟩ := parse_identifier hlong hend h
    have := congrArg List.length (List.cons.inj heq).1
    simp at this
  · have hstop : ∀ y ∈ ([x] : List Code).head?, chars.isJavaIdentifierPart y = false := by
      rintro _ ⟨⟩
      simpa using hpart
    have hkey := KeyPath.readKey_identifier hid hstop
    obtain ⟨⟨c, hc, hstart⟩, -⟩ := hid
    cases p with
    | nil => cases hc
    | cons d p =>
      cases hc
      have hnotStart : chars.isJavaIdentifierStart x = false := by
        by_contra h
        exact hpart (chars.part_of_start x (by simpa using h))
      rw [List.cons_append] at hkey ⊢
      by_cases hdot : x = code '.'
      · have herror : KeyPath.readElement chars (c :: (p ++ [x])) = .error "Illegal terminator character." := by
          rw [KeyPath.readElement, hkey]
          exact if_pos (by rw [hdot])
        rw [KeyPath.parse, KeyPath.elements_cons (by simp [hstart]), herror]
        exact iff_of_false (by rintro ⟨_, _, h⟩; cases h) fun h => h.2.1 hdot
      · have hread : KeyPath.readElement chars (c :: (p ++ [x])) = .ok (c :: p, [x]) := by
          rw [KeyPath.readElement, hkey]
          simp [hdot]
        rw [parse_of_readElement hstart hread]
        by_cases hbracket : x = code '['
        · subst hbracket
          rw [KeyPath.elements_cons (by simp)]
          exact iff_of_false (by rintro ⟨_, _, h⟩; cases h) fun h => h.2.2 rfl
        · rw [KeyPath.elements_stop (by simp [hnotStart, hbracket])]
          exact iff_of_true ⟨[], [x], rfl⟩ ⟨by simpa using hpart, hdot, hbracket⟩

end Paths

/-! ## The tokenizer -/

section Turns
variable (lib : Library)

def keywords : List (List Code) := [codes "null", codes "true", codes "false"]

/-- The next token starts with the identifier `p`, which ends in front of `rest` and is the head
of a path that can be read. -/
structure Occurs (s : Tokenizer) (p rest : List Code) : Prop where
  text : s.text.dropWhile lib.isWhitespace = p ++ rest
  identifier : KeyPath.IsIdentifier lib.toCharacters p
  maximal : ∀ x ∈ rest.head?, lib.isJavaIdentifierPart x = false
  path : ∃ r, KeyPath.parse lib.toCharacters (p ++ rest) = .ok r

/-- The token is a variable, and its path begins with the identifier. -/
def ReadWhole (s : Tokenizer) (p : List Code) : Prop :=
  ∃ path s', turn lib s = .ok s' ∧ s'.tokens = s.tokens ++ [.variable (p :: path)]

/-- No keyword is a prefix of the identifier; and if the text ends within a keyword, the next
character of the buffer neither belongs to an identifier nor goes on with a path. -/
def Readable (buffer p rest : List Code) : Prop :=
  ∀ k ∈ keywords, ¬k <+: p ∧ (rest = [] → p <+: k → ∀ x ∈ buffer[p.length]?,
    lib.isJavaIdentifierPart x = false ∧ x ≠ code '.' ∧ x ≠ code '[')

variable {lib} {s s' : Tokenizer} {p rest : List Code}

theorem readWhole_path {c : Code} {text path : List Code} (htext : s.text.dropWhile lib.isWhitespace = c :: text)
    {buffer : List Code} (hread : readToken lib s.unary c text s.pushbackBuffer =
      (readPath lib path).map fun (token, text) => (token, text, buffer)) :
    ReadWhole lib s p ↔ ∃ keys behind, KeyPath.parse lib.toCharacters path = .ok (p :: keys, behind) := by
  unfold ReadWhole turn
  rw [htext]
  dsimp only
  rw [hread, readPath]
  cases hparse : KeyPath.parse lib.toCharacters path with
  | error message => exact iff_of_false (fun ⟨_, _, h, _⟩ => by cases h) fun ⟨_, _, h⟩ => by cases h
  | ok r =>
    obtain ⟨keys, behind⟩ := r
    constructor
    · rintro ⟨path, s', hturn, htokens⟩
      cases hturn
      have hkeys := List.append_cancel_left htokens
      simp only [List.cons.injEq, Token.variable.injEq, and_true] at hkeys
      exact ⟨path, behind, by rw [hkeys]⟩
    · rintro ⟨path, _, h⟩
      cases h
      exact ⟨path, _, rfl, rfl⟩

theorem turn_literal {c : Code} {text : List Code} (htext : s.text.dropWhile lib.isWhitespace = c :: text)
    {value : Literal} {behind buffer : List Code}
    (hread : readToken lib s.unary c text s.pushbackBuffer = .ok (.literal value, behind, buffer)) :
    ∃ s', turn lib s = .ok s' ∧ s'.tokens = s.tokens ++ [.literal value] := by
  unfold turn
  rw [htext]
  dsimp only
  rw [hread]
  exact ⟨_, rfl, rfl⟩

theorem not_readWhole_of_literal {value : Literal}
    (h : ∃ s', turn lib s = .ok s' ∧ s'.tokens = s.tokens ++ [.literal value]) : ¬ReadWhole lib s p := by
  rintro ⟨path, s₁, hturn, htokens⟩
  obtain ⟨s₂, hturn', htokens'⟩ := h
  rw [hturn] at hturn'
  cases hturn'
  rw [htokens] at htokens'
  cases List.append_cancel_left htokens'

/-- The keyword with the first letter of a token, and its value. -/
def keywordOf (c : Code) : Option (List Code × Literal) :=
  if c = code 'n' then some (codes "null", .null)
  else if c = code 't' then some (codes "true", .bool true)
  else if c = code 'f' then some (codes "false", .bool false)
  else none

theorem readToken_start {c : Code} (hstart : lib.isJavaIdentifierStart c = true) (unary : Bool)
    (text buffer : List Code) : readToken lib unary c text buffer = match keywordOf c with
      | some (keyword, value) => readWord lib keyword value (c :: text) buffer
      | none => (readPath lib (c :: text)).map fun (token, text) => (token, text, buffer) := by
  have hpart := lib.part_of_start c hstart
  have hquote : ¬(c = code '"' ∨ c = code '\'') := by
    rintro (rfl | rfl)
    · rw [(lib.punctuation '"' (by decide)).2] at hpart
      exact Bool.false_ne_true hpart
    · rw [(lib.punctuation '\'' (by decide)).2] at hpart
      exact Bool.false_ne_true hpart
  have hdigit : ¬lib.isDigit c = true := by
    rw [lib.digit_of_start c hstart]
    exact Bool.false_ne_true
  unfold readToken keywordOf
  rw [if_neg hquote, if_neg hdigit, if_pos hstart]
  split
  · rfl
  · split
    · rfl
    · split
      · rfl
      · rfl

theorem keywordOf_spec {c : Code} {keyword : List Code} {value : Literal} (h : keywordOf c = some (keyword, value)) :
    keyword ∈ keywords ∧ keyword.head? = some c ∧ keyword.length < 6 ∧
      ∀ x ∈ keyword, lib.isJavaIdentifierPart x = true := by
  have hparts : ∀ l : List Char, (∀ x ∈ l, x ∈ ['a', 'e', 'f', 'l', 'n', 'r', 's', 't', 'u']) →
      ∀ x ∈ l.map code, lib.isJavaIdentifierPart x = true := by
    intro l hl x hx
    obtain ⟨d, hd, rfl⟩ := List.mem_map.mp hx
    exact lib.letters d (hl d hd)
  unfold keywordOf at h
  split at h
  · rename_i hc
    cases h
    exact ⟨by simp [keywords], hc ▸ rfl, by decide, hparts ['n', 'u', 'l', 'l'] (by simp)⟩
  · split at h
    · rename_i hc
      cases h
      exact ⟨by simp [keywords], hc ▸ rfl, by decide, hparts ['t', 'r', 'u', 'e'] (by simp)⟩
    · split at h
      · rename_i hc
        cases h
        exact ⟨by simp [keywords], hc ▸ rfl, by decide, hparts ['f', 'a', 'l', 's', 'e'] (by simp)⟩
      · cases h

theorem keyword_eq {c : Code} {k : List Code} (hk : k ∈ keywords) (hhead : k.head? = some c) :
    ∃ value, keywordOf c = some (k, value) := by
  simp only [keywords, List.mem_cons, List.not_mem_nil, or_false] at hk
  rcases hk with rfl | rfl | rfl
  · cases hhead
    exact ⟨_, rfl⟩
  · cases hhead
    exact ⟨_, rfl⟩
  · cases hhead
    exact ⟨_, rfl⟩

theorem common_head {c : Code} {p k : List Code} (hk : k ∈ keywords) (h : k <+: c :: p ∨ c :: p <+: k) :
    k.head? = some c := by
  cases k with
  | nil => simp [keywords, codes] at hk
  | cons d k =>
    rcases h with h | h
    · rw [(List.cons_prefix_cons.mp h).1]
      rfl
    · rw [(List.cons_prefix_cons.mp h).1]
      rfl

theorem prefix_of_maximal {keyword : List Code} (hparts : ∀ x ∈ keyword, lib.isJavaIdentifierPart x = true)
    (hmaximal : ∀ x ∈ rest.head?, lib.isJavaIdentifierPart x = false) (h : keyword <+: p ++ rest) : keyword <+: p := by
  rcases List.prefix_or_prefix_of_prefix h (List.prefix_append p rest) with hp | ⟨d, rfl⟩
  · exact hp
  · cases d with
    | nil => simp
    | cons x d =>
      obtain ⟨tail, rfl⟩ := (List.prefix_append_right_inj p).mp h
      have hpart := hparts x (by simp)
      rw [hmaximal x rfl] at hpart
      exact absurd hpart Bool.false_ne_true

theorem readWhole_iff (hbuffer : s.pushbackBuffer.length = 6) (h : Occurs lib s p rest) (hword : p ∉ keywords) :
    ReadWhole lib s p ↔ Readable lib s.pushbackBuffer p rest := by
  obtain ⟨⟨paths, behind⟩, hpath⟩ := h.path
  obtain ⟨keys, rfl⟩ := parse_identifier h.identifier h.maximal hpath
  have htext := h.text
  have hid := h.identifier
  obtain ⟨⟨c, hc, hstart⟩, -⟩ := h.identifier
  cases p with
  | nil => cases hc
  | cons d p =>
    cases hc
    rw [List.cons_append] at htext hpath
    have hread := readToken_start hstart s.unary (p ++ rest) s.pushbackBuffer
    cases hkeyword : keywordOf c with
    | none =>
      rw [hkeyword] at hread
      refine iff_of_true ((readWhole_path htext hread).mpr ⟨keys, behind, hpath⟩) fun k hk => ?_
      have hno : ¬(k <+: c :: p ∨ c :: p <+: k) := by
        intro hpre
        obtain ⟨value, hsome⟩ := keyword_eq hk (common_head hk hpre)
        rw [hkeyword] at hsome
        cases hsome
      exact ⟨fun hpre => hno (Or.inl hpre), fun _ hpre => absurd (Or.inr hpre) hno⟩
    | some pair =>
      obtain ⟨keyword, value⟩ := pair
      obtain ⟨hmem, -, hlength, hparts⟩ := @keywordOf_spec lib _ _ _ hkeyword
      rw [hkeyword] at hread
      dsimp only [readWord] at hread
      have hreadable : Readable lib s.pushbackBuffer (c :: p) rest ↔ ¬keyword <+: c :: p ∧
          (rest = [] → c :: p <+: keyword → ∀ x ∈ s.pushbackBuffer[(c :: p).length]?,
            lib.isJavaIdentifierPart x = false ∧ x ≠ code '.' ∧ x ≠ code '[') := by
        constructor
        · exact fun hall => hall keyword hmem
        · intro hone k hk
          by_cases hpre : k <+: c :: p ∨ c :: p <+: k
          · obtain ⟨value', hsome⟩ := keyword_eq hk (common_head hk hpre)
            rw [hkeyword] at hsome
            cases hsome
            exact hone
          · exact ⟨fun h => hpre (Or.inl h), fun _ h => absurd (Or.inr h) hpre⟩
      rw [hreadable]
      by_cases hfound : keyword <+: c :: (p ++ rest)
      · have hprefix : keyword <+: c :: p := prefix_of_maximal hparts h.maximal hfound
        obtain ⟨t, ht⟩ := hfound
        obtain ⟨buffer', hrest⟩ := readKeyword_found keyword 0 t s.pushbackBuffer
        rw [← ht, hrest] at hread
        exact iff_of_false (not_readWhole_of_literal (turn_literal htext hread)) fun hno => hno.1 hprefix
      · have hnot : ¬keyword <+: c :: p := fun hpre => hfound (hpre.trans ⟨rest, rfl⟩)
        obtain ⟨buffer', hback⟩ := @readKeyword_back keyword (c :: (p ++ rest)) s.pushbackBuffer [] 0 (by omega)
          List.take_zero hfound
        rw [hback] at hread
        rw [readWhole_path htext hread, and_iff_right hnot]
        by_cases hend : c :: (p ++ rest) <+: keyword
        · -- the text ends within the keyword
          obtain rfl : rest = [] := by
            cases rest with
            | nil => rfl
            | cons x rest =>
              have hpart := hparts x (hend.subset (by simp))
              rw [h.maximal x rfl] at hpart
              exact absurd hpart Bool.false_ne_true
          rw [List.append_nil] at hend
          have hshort := hend.length_le
          have hinside : (c :: p).length < s.pushbackBuffer.length := by omega
          obtain ⟨x, hx⟩ : ∃ x, s.pushbackBuffer[(c :: p).length]? = some x :=
            ⟨_, List.getElem?_eq_getElem hinside⟩
          have hstale := parse_stale_iff hid x
          simp only [List.append_nil, Nat.zero_add, hx, Option.toList_some, List.nil_append, Option.mem_some_iff,
            forall_eq', hend, forall_const]
          exact hstale
        · rw [if_neg hend]
          refine iff_of_true ⟨keys, behind, by simpa using hpath⟩ fun hnil hpre => absurd ?_ hend
          rw [hnil, List.append_nil]
          exact hpre

theorem keyword_read {value : Literal} {c : Code} (h : Occurs lib s p rest) (hvalue : keywordOf c = some (p, value)) :
    ∃ s', turn lib s = .ok s' ∧ s'.tokens = s.tokens ++ [.literal value] := by
  have htext := h.text
  obtain ⟨-, hhead, -, -⟩ := @keywordOf_spec lib _ _ _ hvalue
  obtain ⟨⟨d, hd, hstart⟩, -⟩ := h.identifier
  cases p with
  | nil => cases hd
  | cons d p =>
    cases hd
    obtain rfl : d = c := Option.some.inj hhead
    have hread := readToken_start hstart s.unary (p ++ rest) s.pushbackBuffer
    obtain ⟨buffer', hfound⟩ := readKeyword_found (d :: p) 0 rest s.pushbackBuffer
    rw [hvalue] at hread
    dsimp only [readWord] at hread
    rw [← List.cons_append, hfound] at hread
    exact turn_literal htext hread

theorem process_keeps {token : Token} (h : process s token = .ok s') :
    s.tokens <+: s'.tokens ∧ s'.pushbackBuffer = s.pushbackBuffer := by
  match token, h with
  | .literal _, h | .variable _, h | .unaryOperator _, h | .binaryOperator _, h =>
    cases h
    exact ⟨List.prefix_append .., rfl⟩
  | .beginGroup, h =>
    cases h
    exact ⟨List.prefix_rfl, rfl⟩
  | .endGroup, h =>
    simp only [process] at h
    split at h
    · cases h
    · cases h
      exact ⟨List.prefix_append .., rfl⟩

theorem readWord_buffer {keyword text buffer : List Code} {value : Literal} {r : Token × List Code × List Code}
    (h : readWord lib keyword value text buffer = .ok r) : r.2.2.length = buffer.length := by
  rw [← readKeyword_length keyword 0 text buffer]
  dsimp only [readWord] at h
  split at h
  · cases h
    rfl
  · revert h
    cases readPath lib (readKeyword keyword 0 text buffer).2.1 with
    | error error => exact nofun
    | ok pair =>
      intro h
      cases h
      rfl

theorem readToken_buffer {unary : Bool} {c : Code} {text buffer : List Code} {r : Token × List Code × List Code}
    (h : readToken lib unary c text buffer = .ok r) : r.2.2.length = buffer.length := by
  have hmap : ∀ {α : Type} (f : α → Token × List Code) (e : Except TokenizeError α),
      (e.map fun a => ((f a).1, (f a).2, buffer)) = .ok r → r.2.2.length = buffer.length := by
    intro α f e he
    cases e with
    | error error => cases he
    | ok a =>
      cases he
      rfl
  unfold readToken at h
  split at h
  · exact readWord_buffer h
  · split at h
    · exact hmap (fun a : List Code × List Code => (.literal (.string a.1), a.2)) _ h
    · split at h
      · exact hmap id _ h
      · split at h
        · exact readWord_buffer h
        · split at h
          · exact readWord_buffer h
          · split at h
            · exact hmap id _ h
            · exact hmap id _ h

theorem turn_keeps (h : turn lib s = .ok s') :
    s.tokens <+: s'.tokens ∧ s'.pushbackBuffer.length = s.pushbackBuffer.length := by
  unfold turn at h
  split at h
  · cases h
    exact ⟨List.prefix_rfl, rfl⟩
  · split at h
    · cases h
    · rename_i hread
      obtain ⟨htokens, hbuffer⟩ := process_keeps h
      exact ⟨htokens, (congrArg List.length hbuffer).trans (readToken_buffer hread)⟩

theorem run_keeps (h : Relation.ReflTransGen (Step lib) s s') :
    s.tokens <+: s'.tokens ∧ s'.pushbackBuffer.length = s.pushbackBuffer.length := by
  induction h with
  | refl => exact ⟨List.prefix_rfl, rfl⟩
  | tail _ hstep ih =>
    obtain ⟨htokens, hbuffer⟩ := turn_keeps hstep.2
    exact ⟨ih.1.trans htokens, hbuffer.trans ih.2⟩

end Turns

section Runs
variable {lib : Library} {text buffer : List Code} {s : Tokenizer} {p rest : List Code}

/-- Wherever the tokenizer comes to an identifier in a text, it reads it whole exactly if it is
readable there; a keyword alone is its literal; and the tokens stay to the end. -/
theorem identifier_read_iff (hbuffer : buffer.length = 6)
    (hrun : Relation.ReflTransGen (Step lib) (start text buffer) s) (h : Occurs lib s p rest) :
    (p ∉ keywords → (ReadWhole lib s p ↔ Readable lib s.pushbackBuffer p rest)) ∧
      (∀ c value, keywordOf c = some (p, value) →
        ∃ s', turn lib s = .ok s' ∧ s'.tokens = s.tokens ++ [.literal value]) ∧
      ∀ s', Relation.ReflTransGen (Step lib) s s' → s.tokens <+: s'.result :=
  ⟨fun hword => readWhole_iff ((run_keeps hrun).2.trans hbuffer) h hword, fun _ _ hvalue => keyword_read h hvalue,
    fun _ hrest => (run_keeps hrest).1.trans (List.prefix_append ..)⟩

/-- For texts without numbers and without escapes of four digits. -/
def latin : Library where
  toCharacters := KeyPath.latin
  parseHex _ := none
  isLong _ := false
  isDouble _ := false

/-- `new char[PUSHBACK_BUFFER_SIZE]`. -/
def newBuffer : List Code := List.replicate 6 0

theorem occurs_nullable : Occurs latin (start (codes "nullable") newBuffer) (codes "nullable") [] :=
  ⟨by decide, ⟨⟨_, rfl, by decide⟩, by decide⟩, nofun, ⟨([codes "nullable"], []), by decide +kernel⟩⟩

theorem occurs_n : Occurs latin (start (codes "n") newBuffer) (codes "n") [] :=
  ⟨by decide, ⟨⟨_, rfl, by decide⟩, by decide⟩, nofun, ⟨([codes "n"], []), by decide +kernel⟩⟩

/-- `nullable` is read as `null` and `able`, and `n` at the end of the text with a character of the
buffer. -/
theorem identifiers_not_read :
    (Occurs latin (start (codes "nullable") newBuffer) (codes "nullable") [] ∧ codes "nullable" ∉ keywords ∧
        ¬ReadWhole latin (start (codes "nullable") newBuffer) (codes "nullable") ∧
        ∃ s, turn latin (start (codes "nullable") newBuffer) = .ok s ∧ s.tokens = [.literal .null] ∧
          s.text = codes "able") ∧
      Occurs latin (start (codes "n") newBuffer) (codes "n") [] ∧ codes "n" ∉ keywords ∧
        ¬ReadWhole latin (start (codes "n") newBuffer) (codes "n") ∧
        ∃ s, turn latin (start (codes "n") newBuffer) = .ok s ∧ s.tokens = [.variable [[code 'n', 0]]] := by
  refine ⟨⟨occurs_nullable, by decide, ?_, _, rfl, rfl, rfl⟩, occurs_n, by decide, ?_,
    ⟨[], false, [.variable [[code 'n', 0]]], [], [code 'n', 0, 0, 0, 0, 0]⟩, by decide +kernel, rfl⟩
  · rw [readWhole_iff rfl occurs_nullable (by decide)]
    exact fun h => (h (codes "null") (by decide)).1 (by decide)
  · rw [readWhole_iff rfl occurs_n (by decide)]
    intro h
    have hstale := (h (codes "null") (by decide)).2 rfl (by decide) 0 rfl
    exact absurd hstale.1 (by decide)

/-- `name` starts like `null`, and its second character is pushed back. -/
theorem identifier_read_path :
    (codes "name" ∉ keywords → (ReadWhole latin (start (codes "name.x") newBuffer) (codes "name") ↔
        Readable latin newBuffer (codes "name") (codes ".x"))) ∧
      (∀ c value, keywordOf c = some (codes "name", value) →
        ∃ s', turn latin (start (codes "name.x") newBuffer) = .ok s' ∧ s'.tokens = [] ++ [.literal value]) ∧
      ∀ s', Relation.ReflTransGen (Step latin) (start (codes "name.x") newBuffer) s' → [] <+: s'.result :=
  identifier_read_iff rfl .refl
    ⟨by decide, ⟨⟨_, rfl, by decide⟩, by decide⟩, by decide, ⟨([codes "name", codes "x"], []), by decide +kernel⟩⟩

end Runs

end Tokenizer
end OpenJfx.Fxml
