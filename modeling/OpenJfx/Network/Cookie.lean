import Mathlib

/-! # `Cookie` and `PublicSuffixes`

Texts are lists of characters.  The character tables of the platform are a parameter: all
that is known of them is what they do with ASCII characters.  So are the rules of the public
suffix list and the parser of dates. -/
set_option autoImplicit false
namespace OpenJfx.Network

abbrev Text := List Char

/-- ASCII without upper-case letters. -/
def IsLower (text : Text) : Prop := ∀ c ∈ text, c.toNat < 128 ∧ c.isUpper = false

instance (text : Text) : Decidable (IsLower text) := 
  @List.decidableBAll Char (fun c => c.toNat < 128 ∧ c.isUpper = false) (fun _ => inferInstance) text

/-- `lowerCase` is `String.toLowerCase`, `digit` is `Character.digit`. -/
structure Characters where
  toUpperCase : Char → Char
  toLowerCase : Char → Char
  digit : Char → Option Nat
  lowerCase : Text → Text
  toUpperCase_ascii : ∀ c, c.toNat < 128 → toUpperCase c = c.toUpper
  toLowerCase_ascii : ∀ c, c.toNat < 128 → toLowerCase c = c.toLower
  lowerCase_lower : ∀ text, IsLower text → lowerCase text = text

namespace Characters
variable (tables : Characters)

def equalsIgnoreCase (a b : Text) : Bool :=
  a.length = b.length && (a.zip b).all fun pair =>
    pair.1 = pair.2 || tables.toUpperCase pair.1 = tables.toUpperCase pair.2 ||
      tables.toLowerCase (tables.toUpperCase pair.1) = tables.toLowerCase (tables.toUpperCase pair.2)

theorem toLower_toUpper_ascii : ∀ n < 128, (Char.ofNat n).isUpper = false →
    (Char.ofNat n).toUpper.toLower = Char.ofNat n ∧ (Char.ofNat n).toUpper.toNat < 128 := by
  decide

theorem toLower_toUpper {c : Char} (h : c.toNat < 128) (hlower : c.isUpper = false) :
    c.toUpper.toLower = c ∧ c.toUpper.toNat < 128 := by
  have hofNat : Char.ofNat c.toNat = c := Char.ofNat_toNat c
  have := toLower_toUpper_ascii c.toNat h
  rw [hofNat] at this
  exact this hlower

variable {tables}

theorem equalsIgnoreCase_lower {a b : Text} (ha : IsLower a) (hb : IsLower b)
    (h : tables.equalsIgnoreCase a b = true) : a = b := by
  rw [equalsIgnoreCase, Bool.and_eq_true, decide_eq_true_eq, List.all_eq_true] at h
  obtain ⟨hlength, hall⟩ := h
  refine List.ext_getElem hlength fun i hi hj => ?_
  have hpair : (a[i], b[i]) ∈ a.zip b := by
    have hlt : i < (a.zip b).length := by
      rw [List.length_zip]
      exact Nat.lt_min.mpr ⟨hi, hj⟩
    have hget := List.getElem_mem hlt
    rw [List.getElem_zip] at hget
    exact hget
  obtain ⟨hascii, hlower⟩ := ha a[i] (List.getElem_mem hi)
  obtain ⟨hascii', hlower'⟩ := hb b[i] (List.getElem_mem hj)
  obtain ⟨hback, hupper⟩ := toLower_toUpper hascii hlower
  obtain ⟨hback', hupper'⟩ := toLower_toUpper hascii' hlower'
  have hcases := hall _ hpair
  dsimp only at hcases
  rw [tables.toUpperCase_ascii _ hascii, tables.toUpperCase_ascii _ hascii', tables.toLowerCase_ascii _ hupper,
    tables.toLowerCase_ascii _ hupper', hback, hback', Bool.or_eq_true, Bool.or_eq_true, decide_eq_true_eq,
    decide_eq_true_eq] at hcases
  rcases hcases with (hsame | hsame) | hsame
  · exact hsame
  · rw [← hback, hsame, hback']
  · exact hsame

/-- Tables that know ASCII only. -/
def ascii : Characters where
  toUpperCase := Char.toUpper
  toLowerCase := Char.toLower
  digit := fun c => if c.isDigit then some (c.toNat - '0'.toNat) else none
  lowerCase := List.map Char.toLower
  toUpperCase_ascii := fun _ _ => rfl
  toLowerCase_ascii := fun _ _ => rfl
  lowerCase_lower := by
    intro text h
    have hmap : text.map Char.toLower = text.map id := by
      refine List.map_congr_left fun c hc => ?_
      have hlower := (h c hc).2
      rw [Char.isUpper, decide_eq_false_iff_not] at hlower
      rw [Char.toLower, dif_neg hlower]
      rfl
    rw [hmap, List.map_id]

end Characters

/-- What comes behind the first point. -/
def afterPoint (domain : Text) : Text := (domain.dropWhile (· ≠ '.')).drop 1

inductive Rule where
  | simple
  | wildcard
  | exception
deriving DecidableEq, Repr

/-- `RULES` are given as a function. -/
def isPublicSuffix (rules : Text → Option Rule) (domain : Text) : Bool :=
  if domain.length = 0 then false
  else match rules domain with
    | some .exception => false
    | some .simple => true
    | some .wildcard => true
    | none => rules (afterPoint domain) = some .wildcard

structure ExtendedTime where
  baseTime : Int
  subtime : Int
deriving DecidableEq, Repr

namespace ExtendedTime

def incrementSubtime (time : ExtendedTime) : ExtendedTime := { time with subtime := time.subtime + 1 }

/-- The difference of the base times is cut down to an `int`. -/
def compareTo (time other : ExtendedTime) : Int :=
  let d := (time.baseTime - other.baseTime).bmod (2 ^ 32)
  if d ≠ 0 then d else (time.subtime - other.subtime).bmod (2 ^ 32)

end ExtendedTime

/-- A cookie that has a domain and a path. -/
structure Cookie where
  name : Text
  value : Text
  expiryTime : Int
  domain : Text
  path : Text
  creationTime : ExtendedTime
  lastAccessTime : Int
  persistent : Bool
  hostOnly : Bool
  secureOnly : Bool
  httpOnly : Bool
deriving DecidableEq, Repr

/-- What `equals` compares. -/
structure CookieKey where
  name : Text
  domain : Text
  path : Text
deriving DecidableEq, Repr

namespace Cookie

def key (cookie : Cookie) : CookieKey := ⟨cookie.name, cookie.domain, cookie.path⟩

def hasExpired (currentTime : Int) (cookie : Cookie) : Bool := currentTime > cookie.expiryTime

def isOctet (group : Text) : Bool :=
  1 ≤ group.length && group.length ≤ 3 && group.all Char.isDigit &&
    group.foldl (fun n c => 10 * n + (c.toNat - '0'.toNat)) 0 ≤ 255

def isIpAddress (hostname : Text) : Bool :=
  let groups := hostname.splitOn '.'
  groups.length = 4 && groups.all isOctet

def domainMatches (domain cookieDomain : Text) : Bool :=
  cookieDomain.isSuffixOf domain &&
    (domain.length = cookieDomain.length ||
      domain[domain.length - cookieDomain.length - 1]? = some '.' && !isIpAddress domain)

def pathMatches (path : Option Text) (cookiePath : Text) : Bool := match path with
  | none => false
  | some path =>
      cookiePath.isPrefixOf path &&
        (path.length = cookiePath.length || ['/'].isSuffixOf cookiePath || path[cookiePath.length]? = some '/')

def defaultPath (path : Option Text) : Text := match path with
  | none => ['/']
  | some path =>
      if ['/'].isPrefixOf path then
        let path := ((path.reverse.dropWhile (· ≠ '/')).drop 1).reverse
        if path.length = 0 then ['/'] else path
      else ['/']

/-- The host equals the domain, or is in it and is no IP address. -/
def Under (host domain : Text) : Prop := host = domain ∨ (∃ front, host = front ++ '.' :: domain) ∧ isIpAddress host = false

theorem domainMatches_iff {host domain : Text} : domainMatches host domain = true ↔ Under host domain := by
  rw [domainMatches, Bool.and_eq_true, List.isSuffixOf_iff_suffix, Bool.or_eq_true, Bool.and_eq_true, decide_eq_true_eq,
    decide_eq_true_eq, Bool.not_eq_true']
  constructor
  · intro h
    obtain ⟨⟨front, hfront⟩, hrest⟩ := h
    rcases List.eq_nil_or_concat front with hnil | ⟨before, c, hconcat⟩
    · rw [← hfront, hnil, List.nil_append]
      exact Or.inl rfl
    · rw [List.concat_eq_append] at hconcat
      rcases hrest with hlength | ⟨hpoint, hip⟩
      · rw [← hfront, hconcat, List.length_append, List.length_append] at hlength
        exact absurd hlength (by rw [List.length_singleton]; omega)
      · refine Or.inr ⟨⟨before, ?_⟩, hip⟩
        have hhost : host = before ++ c :: domain := by rw [← hfront, hconcat, List.append_assoc, List.singleton_append]
        have hindex : host.length - domain.length - 1 = before.length := by
          rw [hhost, List.length_append, List.length_cons]
          omega
        rw [hindex, hhost, List.getElem?_append_right (Nat.le_refl _), Nat.sub_self, List.getElem?_cons_zero,
          Option.some_inj] at hpoint
        rw [hhost, hpoint]
  · intro h
    rcases h with hsame | ⟨⟨front, hfront⟩, hip⟩
    · rw [hsame]
      exact ⟨List.suffix_refl _, Or.inl rfl⟩
    · have hindex : host.length - domain.length - 1 = front.length := by
        rw [hfront, List.length_append, List.length_cons]
        omega
      refine ⟨⟨front ++ ['.'], by rw [hfront, List.append_assoc, List.singleton_append]⟩, Or.inr ⟨?_, hip⟩⟩
      rw [hindex, hfront, List.getElem?_append_right (Nat.le_refl _), Nat.sub_self, List.getElem?_cons_zero]

/-! ## `parse` -/

def trim (text : Text) : Text := ((text.dropWhile (· ≤ ' ')).reverse.dropWhile (· ≤ ' ')).reverse

/-- `split(regex, 2)` for one character. -/
def splitFirst (separator : Char) (text : Text) : Text × Option Text :=
  match text.dropWhile (· ≠ separator) with
  | [] => (text, none)
  | _ :: rest => (text.takeWhile (· ≠ separator), some rest)

def parseLong (tables : Characters) (text : Text) : Option Int :=
  let digits : Text → Option Nat := fun digits =>
    if digits.length = 0 then none
    else digits.foldl (fun n c => n.bind fun n => (tables.digit c).map fun d => 10 * n + d) (some 0)
  let value : Option Int := match text with
    | '-' :: rest => (digits rest).map fun n => -(n : Int)
    | '+' :: rest => (digits rest).map fun n => (n : Int)
    | text => (digits text).map fun n => (n : Int)
  value.filter fun value => -2 ^ 63 ≤ value ∧ value < 2 ^ 63

def maxValue : Int := 2 ^ 63 - 1

def parseExpires (parseDate : Text → Option Int) (attributeValue : Text) : Option Int :=
  (parseDate attributeValue).map fun time => max time 0

def parseMaxAge (tables : Characters) (currentTime : Int) (attributeValue : Text) : Option Int :=
  (parseLong tables attributeValue).map fun maxAge =>
    if maxAge ≤ 0 then 0
    else if maxAge > (maxValue - currentTime).tdiv 1000 then maxValue
    else currentTime + maxAge * 1000

def parseDomain (tables : Characters) (attributeValue : Text) : Option Text := match attributeValue with
  | [] => none
  | '.' :: rest => some (tables.lowerCase rest)
  | attributeValue => some (tables.lowerCase attributeValue)

def parsePath (attributeValue : Text) : Option Text :=
  if ['/'].isPrefixOf attributeValue then some attributeValue else none

/-- The attributes read so far. -/
structure Attributes where
  expires : Option Int
  maxAge : Option Int
  domain : Option Text
  path : Option Text
  secure : Bool
  httpOnly : Bool

/-- What `parse` makes of a header, before `CookieManager.put` has set the domain and the path. -/
structure Parsed where
  name : Text
  value : Text
  expiryTime : Int
  domain : Text
  path : Option Text
  creationTime : ExtendedTime
  persistent : Bool
  secureOnly : Bool
  httpOnly : Bool
deriving DecidableEq, Repr

def readAttribute (tables : Characters) (parseDate : Text → Option Int) (currentTime : ExtendedTime)
    (attributes : Attributes) (item : Text) : Attributes :=
  let terms := splitFirst '=' item
  let attrName := trim terms.1
  let attrValue := trim (terms.2.getD [])
  if tables.equalsIgnoreCase "Expires".toList attrName then
    match parseExpires parseDate attrValue with
    | some expires => { attributes with expires := some expires }
    | none => attributes
  else if tables.equalsIgnoreCase "Max-Age".toList attrName then
    match parseMaxAge tables currentTime.baseTime attrValue with
    | some maxAge => { attributes with maxAge := some maxAge }
    | none => attributes
  else if tables.equalsIgnoreCase "Domain".toList attrName then
    match parseDomain tables attrValue with
    | some domain => { attributes with domain := some domain }
    | none => attributes
  else if tables.equalsIgnoreCase "Path".toList attrName then { attributes with path := parsePath attrValue }
  else if tables.equalsIgnoreCase "Secure".toList attrName then { attributes with secure := true }
  else if tables.equalsIgnoreCase "HttpOnly".toList attrName then { attributes with httpOnly := true }
  else attributes

def parse (tables : Characters) (parseDate : Text → Option Int) (setCookieString : Text) (currentTime : ExtendedTime) :
    Option Parsed :=
  match setCookieString.splitOn ';' with
  | [] => none
  | first :: items => match splitFirst '=' first with
      | (_, none) => none
      | (name, some value) =>
          if (trim name).length = 0 then none
          else
            let attributes := items.foldl (readAttribute tables parseDate currentTime) ⟨none, none, none, none, false, false⟩
            some {
              name := trim name
              value := trim value
              expiryTime := match attributes.maxAge, attributes.expires with
                | some maxAge, _ => maxAge
                | none, some expires => expires
                | none, none => maxValue
              domain := attributes.domain.getD []
              path := attributes.path
              creationTime := currentTime
              persistent := attributes.maxAge.isSome || attributes.expires.isSome
              secureOnly := attributes.secure
              httpOnly := attributes.httpOnly }

end Cookie
end OpenJfx.Network
