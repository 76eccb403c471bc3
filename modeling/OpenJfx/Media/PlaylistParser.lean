import Mathlib.Data.List.DropRight
import Mathlib.Tactic.Common

/-! # `PlaylistParser`

A line is its list of characters.  `parseDouble` and `parseInt` are Java's: `none` stands for the exception. -/
set_option autoImplicit false
namespace OpenJfx.Media

abbrev Line := List Char

namespace PlaylistParser

def startsWith (line : Line) (text : String) : Bool := text.toList.isPrefixOf line

/-- `String.split` for one character: the empty parts at the end are left out, unless there is one part only. -/
def split (separator : Char) (line : Line) : List Line :=
  if separator ∈ line then (line.splitOn separator).rdropWhile List.isEmpty else [line]

/-- `s1[1]`, where `s1` has two parts and the second one is not empty. -/
def field (line : Line) : Option Line :=
  match split ':' line with
  | [_, value] => if value = [] then none else some value
  | _ => none

/-- The branches of `parseLine`. -/
inductive Branch where
  | ignored | extinf | targetDuration | mediaSequence | streamInf | endList | discontinuity | location
deriving DecidableEq, Repr

def branch (line : Line) : Branch :=
  if line = [] ∨ (startsWith line "#" ∧ ¬ startsWith line "#EXT") then .ignored
  else if startsWith line "#EXTINF" then .extinf
  else if startsWith line "#EXT-X-TARGETDURATION" then .targetDuration
  else if startsWith line "#EXT-X-MEDIA-SEQUENCE" then .mediaSequence
  else if startsWith line "#EXT-X-STREAM-INF" then .streamInf
  else if startsWith line "#EXT-X-ENDLIST" then .endList
  else if startsWith line "#EXT-X-DISCONTINUITY" then .discontinuity
  else .location

end PlaylistParser

structure PlaylistParser (D : Type) where
  isFirstLine : Bool
  isLineMediaFileURI : Bool
  isEndList : Bool
  isLinePlaylistURI : Bool
  isVariantPlaylist : Bool
  isDiscontinuity : Bool
  targetDuration : Int
  sequenceNumber : Int
  dataListString : List Line
  dataListInteger : List Int
  dataListDouble : List D
  dataListBoolean : List Bool
deriving DecidableEq, Repr

namespace PlaylistParser
section Parsing
variable {D : Type} (parseDouble : Line → Option D) (parseInt : Line → Option Int)

def new : PlaylistParser D := ⟨true, false, false, false, false, false, 0, 0, [], [], [], []⟩

def trim (line : Line) : Line := ((line.dropWhile (· ≤ ' ')).reverse.dropWhile (· ≤ ' ')).reverse

/-- The loop over the attributes of `#EXT-X-STREAM-INF`. -/
def bandwidth : List Line → Int → Option Int
  | [], bitrate => some bitrate
  | part :: rest, bitrate =>
      if startsWith (trim part) "BANDWIDTH" then
        match split '=' (trim part) with
        | [_, value] =>
            if value = [] then bandwidth rest bitrate
            else match parseInt value with
              | none => none
              | some bitrate => bandwidth rest bitrate
        | _ => bandwidth rest bitrate
      else bandwidth rest bitrate

/-- The result and the state; `none` when a number cannot be read. -/
def parseLine (line : Line) (p : PlaylistParser D) : Option (Bool × PlaylistParser D) :=
  if p.isFirstLine then
    if line ≠ "#EXTM3U".toList then some (false, p) else some (true, { p with isFirstLine := false })
  else match branch line with
    | .ignored => some (true, p)
    | .extinf => match (field line).bind fun value => (split ',' value).head? with
        | none => some (true, { p with isLineMediaFileURI := true })
        | some duration => match parseDouble duration with
            | none => none
            | some d =>
                some (true, { p with isLineMediaFileURI := true, dataListDouble := p.dataListDouble ++ [d] })
    | .targetDuration => match field line with
        | none => some (true, p)
        | some value => (parseInt value).map fun n => (true, { p with targetDuration := n })
    | .mediaSequence => match field line with
        | none => some (true, p)
        | some value => (parseInt value).map fun n => (true, { p with sequenceNumber := n })
    | .streamInf => match bandwidth parseInt ((field line).elim [] (split ',')) 0 with
        | none => none
        | some bitrate =>
            if bitrate < 1 then some (false, { p with isVariantPlaylist := true })
            else some (true, { p with
              isVariantPlaylist := true
              dataListInteger := p.dataListInteger ++ [bitrate]
              isLinePlaylistURI := true })
    | .endList => some (true, { p with isEndList := true })
    | .discontinuity => some (true, { p with isDiscontinuity := true })
    | .location =>
        if p.isLinePlaylistURI then
          some (true, { p with isLinePlaylistURI := false, dataListString := p.dataListString ++ [line] })
        else if p.isLineMediaFileURI then
          some (true, { p with
            isLineMediaFileURI := false
            dataListString := p.dataListString ++ [line]
            dataListBoolean := p.dataListBoolean ++ [p.isDiscontinuity]
            isDiscontinuity := false })
        else some (true, p)

def parseLines : List Line → PlaylistParser D → Option (PlaylistParser D)
  | [], p => some p
  | line :: rest, p => (parseLine parseDouble parseInt line p).bind fun result => parseLines rest result.2

/-! ## Media playlists -/

structure Segment where
  before : List Line
  number : Line
  title : Option Line
  between : List Line
  uri : Line
deriving DecidableEq, Repr

def Segment.suffix (s : Segment) : Line := s.title.elim [] fun title => ',' :: title

def Segment.extinf (s : Segment) : Line := "#EXTINF".toList ++ ':' :: (s.number ++ s.suffix)

def Segment.lines (s : Segment) : List Line := s.before ++ s.extinf :: (s.between ++ [s.uri])

def Segment.others (s : Segment) : List Line := s.before ++ s.between

def discontinuityTag : Line := "#EXT-X-DISCONTINUITY".toList

/-- Whether the tag stands between the URI and the previous one. -/
def Segment.isDiscontinuity (s : Segment) : Bool := decide (discontinuityTag ∈ s.others)

def text (segments : List Segment) (after : List Line) : List Line :=
  "#EXTM3U".toList :: (segments.flatMap Segment.lines ++ after)

/-- A blank line, a comment or a tag other than `#EXTINF` and the one of variant playlists. -/
def Other (line : Line) : Prop :=
  (line = [] ∨ startsWith line "#" = true) ∧ startsWith line "#EXTINF" = false ∧
    startsWith line "#EXT-X-STREAM-INF" = false

structure Segment.Formed (s : Segment) : Prop where
  others : ∀ line ∈ s.others, Other line
  number_ne : s.number ≠ []
  number_colon : ':' ∉ s.number
  number_comma : ',' ∉ s.number
  number_parses : (parseDouble s.number).isSome
  uri_ne : s.uri ≠ []
  uri_hash : startsWith s.uri "#" = false

/-- The lists have the URIs, the numbers and the discontinuities of the segments. -/
def Together (segments : List Segment) (after : List Line) : Prop :=
  ∃ p, parseLines parseDouble parseInt (text segments after) new = some p ∧
    p.dataListString = segments.map Segment.uri ∧
    p.dataListDouble.map some = segments.map (fun s => parseDouble s.number) ∧
    p.dataListBoolean = segments.map Segment.isDiscontinuity

/-- The tag has a number that cannot be read. -/
def Fails (line : Line) : Prop :=
  (branch line = .targetDuration ∨ branch line = .mediaSequence) ∧ field line ≠ none ∧ (field line).bind parseInt = none

instance (line : Line) : Decidable (Fails parseInt line) := inferInstanceAs (Decidable (_ ∧ _))

/-- The title has no colon, except at its end. -/
def Segment.TitlePlain (s : Segment) : Prop := ∀ title ∈ s.title, ':' ∉ title.rdropWhile (· == ':')

/-- No tag between the number and the URI is unknown to the parser, no other tag is taken for the discontinuity, and
the title has no colon, except at its end. -/
structure Segment.Good (s : Segment) : Prop where
  reads : ∀ line ∈ s.others, ¬ Fails parseInt line
  known : ∀ line ∈ s.between, branch line ≠ .location
  marked : (∃ line ∈ s.others, branch line = .discontinuity) → discontinuityTag ∈ s.others
  title_plain : s.TitlePlain

end Parsing

/-! ## Splitting a line -/

theorem rdropWhile_append_of_not {α : Type} {p : α → Bool} {front : List α} (back : List α)
    (h : ∀ x ∈ front, p x = false) : (front ++ back).rdropWhile p = front ++ back.rdropWhile p := by
  induction back using List.reverseRecOn with
  | nil =>
    rw [List.append_nil, List.rdropWhile_nil, List.append_nil, List.rdropWhile_eq_self_iff]
    intro hne
    simp [h _ (List.getLast_mem hne)]
  | append_singleton back x ih =>
    rw [← List.append_assoc, List.rdropWhile_concat, List.rdropWhile_concat, ih]
    split
    · rfl
    · rw [List.append_assoc]

theorem beq_false_of_not_mem {c : Char} {line : Line} (h : c ∉ line) : ∀ x ∈ line, (x == c) = false := by
  intro x hx
  rw [beq_eq_false_iff_ne]
  rintro rfl
  exact h hx

theorem splitOn_concat {separator x : Char} (hx : x ≠ separator) (line : Line) :
    ∃ front last, (line ++ [x]).splitOn separator = front ++ [last ++ [x]] ∧ (separator ∈ line ↔ front ≠ []) := by
  induction line with
  | nil => exact ⟨[], [], List.splitOnP_eq_singleton (by simp [hx]), by simp⟩
  | cons y line ih =>
    obtain ⟨front, last, hsplit, hmem⟩ := ih
    rw [List.splitOn] at hsplit ⊢
    by_cases hy : y = separator
    · refine ⟨[] :: front, last, ?_, by simp [hy]⟩
      rw [List.cons_append, List.splitOnP_cons_eq_if_modifyHead, hsplit]
      simp [hy]
    · cases front with
      | nil =>
        refine ⟨[], y :: last, ?_, by simp [hmem, Ne.symm hy]⟩
        rw [List.cons_append, List.splitOnP_cons_eq_if_modifyHead, hsplit]
        simp [hy]
      | cons part front =>
        refine ⟨(y :: part) :: front, last, ?_, by simp [hmem]⟩
        rw [List.cons_append, List.splitOnP_cons_eq_if_modifyHead, hsplit]
        simp [hy]

theorem splitOn_stripped {separator : Char} {line : Line} (hne : line.rdropWhile (· == separator) ≠ []) :
    (line.splitOn separator).rdropWhile List.isEmpty = (line.rdropWhile (· == separator)).splitOn separator := by
  induction line using List.reverseRecOn with
  | nil => exact absurd rfl hne
  | append_singleton line x ih =>
    by_cases hx : x = separator
    · have hsplit : (line ++ [x]).splitOn separator = line.splitOn separator ++ [[]] :=
        List.splitOnP_append_cons line [] (by simp [hx])
      rw [List.rdropWhile_concat_pos _ _ _ (by simp [hx])] at hne ⊢
      rw [hsplit, List.rdropWhile_concat_pos _ _ _ rfl]
      exact ih hne
    · rw [List.rdropWhile_concat_neg _ _ _ (by simp [hx])]
      obtain ⟨front, last, hsplit, -⟩ := splitOn_concat hx line
      rw [hsplit, List.rdropWhile_concat_neg _ _ _ (by simp)]

theorem splitOn_two {separator : Char} {line : Line} (hmem : separator ∈ line)
    (hlast : line.rdropWhile (· == separator) = line) : ∃ a b rest, line.splitOn separator = a :: b :: rest := by
  rcases List.eq_nil_or_concat' line with rfl | ⟨front, x, rfl⟩
  · exact absurd hmem List.not_mem_nil
  · have hx : x ≠ separator := by
      rintro rfl
      have hlength := congrArg List.length hlast
      rw [List.rdropWhile_concat_pos _ _ _ (by simp)] at hlength
      have hle := (List.rdropWhile_prefix (· == x) front).length_le
      simp at hlength
      omega
    obtain ⟨parts, last, hsplit, hfront⟩ := splitOn_concat hx front
    have hne := hfront.mp (by simpa [Ne.symm hx] using hmem)
    obtain ⟨part, parts, rfl⟩ := List.exists_cons_of_ne_nil hne
    rw [hsplit]
    cases parts with
    | nil => exact ⟨_, _, [], rfl⟩
    | cons b parts => exact ⟨part, b, parts ++ [last ++ [x]], rfl⟩

theorem field_spec {name rest : Line} (hname : name ≠ []) (hcolon : ':' ∉ name)
    (hrest : rest.rdropWhile (· == ':') ≠ []) :
    field (name ++ ':' :: rest) =
      if ':' ∈ rest.rdropWhile (· == ':') then none else some (rest.rdropWhile (· == ':')) := by
  have hsplit : split ':' (name ++ ':' :: rest) = name :: (rest.rdropWhile (· == ':')).splitOn ':' := by
    have hparts : (name ++ ':' :: rest).splitOn ':' = [name] ++ rest.splitOn ':' := by
      rw [List.splitOn, List.splitOnP_append_cons name rest (by simp),
        List.splitOnP_eq_singleton (beq_false_of_not_mem hcolon)]
      rfl
    rw [split, if_pos (by simp), hparts, rdropWhile_append_of_not _ (by simpa using hname), splitOn_stripped hrest]
    rfl
  have hlast : (rest.rdropWhile (· == ':')).rdropWhile (· == ':') = rest.rdropWhile (· == ':') :=
    List.rdropWhile_idempotent _ _
  rw [field, hsplit]
  generalize rest.rdropWhile (· == ':') = value at *
  by_cases hmem : ':' ∈ value
  · obtain ⟨a, b, parts, hvalue⟩ := splitOn_two hmem hlast
    rw [hvalue, if_pos hmem]
  · have hvalue : value.splitOn ':' = [value] :=
      List.splitOnP_eq_singleton (beq_false_of_not_mem hmem)
    rw [hvalue, if_neg hmem]
    exact if_neg hrest

theorem split_head {number suffix : Line} (hne : number ≠ []) (hcomma : ',' ∉ number)
    (hsuffix : suffix = [] ∨ ∃ rest, suffix = ',' :: rest) : (split ',' (number ++ suffix)).head? = some number := by
  rcases hsuffix with rfl | ⟨rest, rfl⟩
  · rw [List.append_nil, split, if_neg hcomma]
    rfl
  · have hparts : (number ++ ',' :: rest).splitOn ',' = [number] ++ rest.splitOn ',' := by
      rw [List.splitOn, List.splitOnP_append_cons number rest (by simp),
        List.splitOnP_eq_singleton (beq_false_of_not_mem hcomma)]
      rfl
    rw [split, if_pos (by simp), hparts, rdropWhile_append_of_not _ (by simpa using hne)]
    rfl

section Parsing
variable {D : Type} {parseDouble : Line → Option D} {parseInt : Line → Option Int}

theorem extinf_records {s : Segment} (hformed : s.Formed parseDouble) :
    (s.TitlePlain → ((field s.extinf).bind fun value => (split ',' value).head?) = some s.number) ∧
    (¬ s.TitlePlain → ((field s.extinf).bind fun value => (split ',' value).head?) = none) := by
  have hstrip : (s.number ++ s.suffix).rdropWhile (· == ':') = s.number ++ s.suffix.rdropWhile (· == ':') :=
    rdropWhile_append_of_not _ (beq_false_of_not_mem hformed.number_colon)
  have hne := hformed.number_ne
  have hcolon := hformed.number_colon
  have hfield : field s.extinf = _ :=
    field_spec (by decide) (by decide) (by rw [hstrip]; exact List.append_ne_nil_of_left_ne_nil hne _)
  rw [hfield, hstrip, Segment.TitlePlain, Segment.suffix]
  cases s.title with
  | none =>
    refine ⟨fun _ => ?_, fun h => absurd (by simp) h⟩
    rw [Option.elim_none, List.rdropWhile_nil, if_neg (by simpa using hcolon)]
    exact split_head hne hformed.number_comma (Or.inl rfl)
  | some title =>
    have hcomma : (',' :: title).rdropWhile (· == ':') = ',' :: title.rdropWhile (· == ':') :=
      @rdropWhile_append_of_not Char (· == ':') [','] title (by simp)
    rw [Option.elim_some, hcomma]
    refine ⟨fun h => ?_, fun h => ?_⟩
    · have hmem : ':' ∉ title.rdropWhile (· == ':') := h title rfl
      rw [if_neg (by simp [hmem, hcolon])]
      exact split_head hne hformed.number_comma (Or.inr ⟨_, rfl⟩)
    · have hmem : ':' ∈ title.rdropWhile (· == ':') := by simpa using h
      rw [if_pos (by simp [hmem])]
      rfl

/-! ## Lines between the segments' own ones -/

theorem other_branch {line : Line} (h : Other line) : branch line ≠ .extinf ∧ branch line ≠ .streamInf := by
  obtain ⟨-, hextinf, hstream⟩ := h
  rw [branch]
  split_ifs <;> simp_all

theorem startsWith_append {text start : String} (h : start.toList.isPrefixOf text.toList = true) (rest : Line) :
    startsWith (text.toList ++ rest) start = true :=
  List.isPrefixOf_iff_prefix.mpr ((List.isPrefixOf_iff_prefix.mp h).trans (List.prefix_append _ _))

theorem startsWith_hash {line rest : Line} {start : String} (hstart : start.toList = '#' :: rest)
    (hhash : startsWith line "#" = false) : startsWith line start = false := by
  rw [startsWith, hstart]
  change List.isPrefixOf ['#'] line = false at hhash
  cases line with
  | nil => rfl
  | cons c line =>
    rw [List.isPrefixOf, List.isPrefixOf, Bool.and_true] at hhash
    rw [List.isPrefixOf, hhash, Bool.false_and]

theorem branch_extinf (s : Segment) : branch s.extinf = .extinf := by
  have hne : s.extinf ≠ [] := List.append_ne_nil_of_right_ne_nil _ (List.cons_ne_nil _ _)
  have hext : startsWith s.extinf "#EXT" = true := startsWith_append (by decide) _
  have hextinf : startsWith s.extinf "#EXTINF" = true := startsWith_append (by decide) _
  simp [branch, hne, hext, hextinf]

theorem branch_uri {line : Line} (hne : line ≠ []) (hhash : startsWith line "#" = false) : branch line = .location := by
  have hextinf : startsWith line "#EXTINF" = false := startsWith_hash rfl hhash
  have hduration : startsWith line "#EXT-X-TARGETDURATION" = false := startsWith_hash rfl hhash
  have hsequence : startsWith line "#EXT-X-MEDIA-SEQUENCE" = false := startsWith_hash rfl hhash
  have hstream : startsWith line "#EXT-X-STREAM-INF" = false := startsWith_hash rfl hhash
  have hend : startsWith line "#EXT-X-ENDLIST" = false := startsWith_hash rfl hhash
  have hdiscontinuity : startsWith line "#EXT-X-DISCONTINUITY" = false := startsWith_hash rfl hhash
  simp [branch, hne, hhash, hextinf, hduration, hsequence, hstream, hend, hdiscontinuity]

theorem location_hash {line : Line} (h : Other line) (hbranch : branch line = .location) :
    startsWith line "#" = true := by
  rcases h.1 with rfl | hhash
  · cases hbranch
  · exact hhash

/-- The lists of the segments are as before, and so is whether a URI is expected. -/
structure Noted (discontinuity : Bool) (p p' : PlaylistParser D) : Prop where
  first : p'.isFirstLine = p.isFirstLine
  playlist : p'.isLinePlaylistURI = p.isLinePlaylistURI
  media : p'.isLineMediaFileURI = p.isLineMediaFileURI
  strings : p'.dataListString = p.dataListString
  doubles : p'.dataListDouble = p.dataListDouble
  booleans : p'.dataListBoolean = p.dataListBoolean
  discontinuity : p'.isDiscontinuity = discontinuity

def marks (line : Line) : Bool := decide (branch line = .discontinuity)

theorem parseLine_other {line : Line} {p : PlaylistParser D} (hfirst : p.isFirstLine = false)
    (hplaylist : p.isLinePlaylistURI = false) (hother : Other line) (hreads : ¬ Fails parseInt line)
    (hknown : p.isLineMediaFileURI = true → branch line ≠ .location) :
    ∃ p', parseLine parseDouble parseInt line p = some (true, p') ∧ Noted (p.isDiscontinuity || marks line) p p' := by
  obtain ⟨hextinf, hstream⟩ := other_branch hother
  have hself : Noted (p.isDiscontinuity || false) p p :=
    ⟨rfl, rfl, rfl, rfl, rfl, rfl, (Bool.or_false _).symm⟩
  rw [parseLine, if_neg (by simp [hfirst]), marks]
  cases hbranch : branch line with
  | extinf => exact absurd hbranch hextinf
  | streamInf => exact absurd hbranch hstream
  | ignored => exact ⟨p, rfl, hself⟩
  | endList => exact ⟨_, rfl, hself.1, hself.2, hself.3, hself.4, hself.5, hself.6, hself.7⟩
  | discontinuity => exact ⟨_, rfl, hself.1, hself.2, hself.3, hself.4, hself.5, hself.6, by simp⟩
  | location =>
    have hmedia : p.isLineMediaFileURI = false := by simpa [hbranch] using hknown
    exact ⟨p, by simp [hplaylist, hmedia], hself⟩
  | targetDuration =>
    cases hfield : field line with
    | none => exact ⟨p, rfl, hself⟩
    | some value =>
      cases hvalue : parseInt value with
      | none => exact absurd ⟨Or.inl hbranch, by simp [hfield, hvalue]⟩ hreads
      | some n =>
        refine ⟨{ p with targetDuration := n }, by simp [hvalue], ?_⟩
        exact ⟨hself.1, hself.2, hself.3, hself.4, hself.5, hself.6, hself.7⟩
  | mediaSequence =>
    cases hfield : field line with
    | none => exact ⟨p, rfl, hself⟩
    | some value =>
      cases hvalue : parseInt value with
      | none => exact absurd ⟨Or.inr hbranch, by simp [hfield, hvalue]⟩ hreads
      | some n =>
        refine ⟨{ p with sequenceNumber := n }, by simp [hvalue], ?_⟩
        exact ⟨hself.1, hself.2, hself.3, hself.4, hself.5, hself.6, hself.7⟩

theorem parseLine_fails {line : Line} {p : PlaylistParser D} (hfirst : p.isFirstLine = false)
    (hfails : Fails parseInt line) : parseLine parseDouble parseInt line p = none := by
  obtain ⟨hbranch, hsome, hnone⟩ := hfails
  obtain ⟨value, hfield⟩ := Option.ne_none_iff_exists'.mp hsome
  rw [hfield, Option.bind_some] at hnone
  rw [parseLine, if_neg (by simp [hfirst])]
  rcases hbranch with hbranch | hbranch
  · simp [hbranch, hfield, hnone]
  · simp [hbranch, hfield, hnone]

/-- The lists of a segment's attributes only grow, and a line adds at most one number. -/
structure Grown (numbers : Nat) (p p' : PlaylistParser D) : Prop where
  first : p'.isFirstLine = false
  strings : p.dataListString <+: p'.dataListString
  booleans : p.dataListBoolean <+: p'.dataListBoolean
  doubles : p'.dataListDouble.length ≤ p.dataListDouble.length + numbers

theorem parseLine_grown {line : Line} {p : PlaylistParser D} {result : Bool × PlaylistParser D}
    (hfirst : p.isFirstLine = false) (h : parseLine parseDouble parseInt line p = some result) :
    Grown (if branch line = .extinf then 1 else 0) p result.2 := by
  rw [parseLine, if_neg (by simp [hfirst])] at h
  have hsame : ∀ n, Grown n p p := fun n => ⟨hfirst, List.prefix_rfl, List.prefix_rfl, by omega⟩
  split at h <;> rename_i hbranch <;> rw [hbranch]
  · cases h
    exact hsame _
  · split at h
    · cases h
      exact ⟨hfirst, List.prefix_rfl, List.prefix_rfl, by simp⟩
    · split at h
      · cases h
      · cases h
        exact ⟨hfirst, List.prefix_rfl, List.prefix_rfl, by simp⟩
  · split at h
    · cases h
      exact hsame _
    · obtain ⟨n, -, rfl⟩ := Option.map_eq_some_iff.mp h
      exact ⟨hfirst, List.prefix_rfl, List.prefix_rfl, by simp⟩
  · split at h
    · cases h
      exact hsame _
    · obtain ⟨n, -, rfl⟩ := Option.map_eq_some_iff.mp h
      exact ⟨hfirst, List.prefix_rfl, List.prefix_rfl, by simp⟩
  · split at h
    · cases h
    · split at h
      · cases h
        exact ⟨hfirst, List.prefix_rfl, List.prefix_rfl, by simp⟩
      · cases h
        exact ⟨hfirst, List.prefix_rfl, List.prefix_rfl, by simp⟩
  · cases h
    exact ⟨hfirst, List.prefix_rfl, List.prefix_rfl, by simp⟩
  · cases h
    exact ⟨hfirst, List.prefix_rfl, List.prefix_rfl, by simp⟩
  · split at h
    · cases h
      exact ⟨hfirst, List.prefix_append _ _, List.prefix_rfl, by simp⟩
    · split at h
      · cases h
        exact ⟨hfirst, List.prefix_append _ _, List.prefix_append _ _, by simp⟩
      · cases h
        exact hsame _

/-! ## Runs over lines -/

theorem parseLines_append (front back : List Line) (p : PlaylistParser D) :
    parseLines parseDouble parseInt (front ++ back) p =
      (parseLines parseDouble parseInt front p).bind (parseLines parseDouble parseInt back) := by
  induction front generalizing p with
  | nil => rfl
  | cons line front ih =>
    rw [List.cons_append, parseLines, parseLines]
    cases parseLine parseDouble parseInt line p with
    | none => rfl
    | some result => exact ih result.2

theorem parseLines_grown {lines : List Line} {p p' : PlaylistParser D} (hfirst : p.isFirstLine = false)
    (h : parseLines parseDouble parseInt lines p = some p') :
    Grown (lines.countP fun line => decide (branch line = .extinf)) p p' := by
  induction lines generalizing p with
  | nil =>
    cases h
    exact ⟨hfirst, List.prefix_rfl, List.prefix_rfl, by simp⟩
  | cons line lines ih =>
    obtain ⟨result, hline, hlines⟩ := Option.bind_eq_some_iff.mp h
    have hone := parseLine_grown hfirst hline
    have hmore := ih hone.first hlines
    refine ⟨hmore.first, hone.strings.trans hmore.strings, hone.booleans.trans hmore.booleans, ?_⟩
    have h1 := hone.doubles
    have h2 := hmore.doubles
    rw [List.countP_cons]
    simp only [decide_eq_true_eq]
    omega

theorem parseLines_reads {lines : List Line} {p p' : PlaylistParser D} (hfirst : p.isFirstLine = false)
    (h : parseLines parseDouble parseInt lines p = some p') : ∀ line ∈ lines, ¬ Fails parseInt line := by
  induction lines generalizing p with
  | nil => exact fun _ hline => absurd hline List.not_mem_nil
  | cons first lines ih =>
    obtain ⟨result, hline, hlines⟩ := Option.bind_eq_some_iff.mp h
    rw [List.forall_mem_cons]
    refine ⟨fun hfails => ?_, ih (parseLine_grown hfirst hline).first hlines⟩
    rw [parseLine_fails hfirst hfails] at hline
    cases hline

theorem parseLines_others {lines : List Line} {p : PlaylistParser D} (hfirst : p.isFirstLine = false)
    (hplaylist : p.isLinePlaylistURI = false) (hothers : ∀ line ∈ lines, Other line)
    (hreads : ∀ line ∈ lines, ¬ Fails parseInt line)
    (hknown : p.isLineMediaFileURI = true → ∀ line ∈ lines, branch line ≠ .location) :
    ∃ p', parseLines parseDouble parseInt lines p = some p' ∧ Noted (p.isDiscontinuity || lines.any marks) p p' := by
  induction lines generalizing p with
  | nil => exact ⟨p, rfl, rfl, rfl, rfl, rfl, rfl, rfl, (Bool.or_false _).symm⟩
  | cons line lines ih =>
    rw [List.forall_mem_cons] at hothers hreads
    obtain ⟨p₁, hline, h₁⟩ := @parseLine_other D parseDouble parseInt line p hfirst hplaylist hothers.1 hreads.1
      fun h => hknown h line (List.mem_cons_self ..)
    obtain ⟨p₂, hlines, h₂⟩ := @ih p₁ (h₁.first.trans hfirst) (h₁.playlist.trans hplaylist) hothers.2 hreads.2
      fun h x hx => hknown (h₁.media.symm.trans h) x (List.mem_cons_of_mem _ hx)
    refine ⟨p₂, by rw [parseLines, hline]; exact hlines, h₂.first.trans h₁.first, h₂.playlist.trans h₁.playlist,
      h₂.media.trans h₁.media, h₂.strings.trans h₁.strings, h₂.doubles.trans h₁.doubles,
      h₂.booleans.trans h₁.booleans, ?_⟩
    rw [h₂.discontinuity, h₁.discontinuity, List.any_cons, Bool.or_assoc]

/-- A tag that the parser does not know is stored in place of the URI. -/
theorem parseLines_stores {lines : List Line} {p p' : PlaylistParser D} (hfirst : p.isFirstLine = false)
    (hplaylist : p.isLinePlaylistURI = false) (hmedia : p.isLineMediaFileURI = true)
    (hothers : ∀ line ∈ lines, Other line) (hunknown : ∃ line ∈ lines, branch line = .location)
    (h : parseLines parseDouble parseInt lines p = some p') :
    ∃ tag, startsWith tag "#" = true ∧ p.dataListString ++ [tag] <+: p'.dataListString := by
  induction lines generalizing p with
  | nil => simp at hunknown
  | cons line lines ih =>
    rw [List.forall_mem_cons] at hothers
    obtain ⟨result, hline, hlines⟩ := Option.bind_eq_some_iff.mp h
    by_cases hbranch : branch line = .location
    · rw [parseLine, hfirst, hbranch] at hline
      simp only [Bool.false_eq_true, if_false, hplaylist, hmedia, if_true] at hline
      cases hline
      have hrest := @parseLines_grown D parseDouble parseInt lines _ p' rfl hlines
      exact ⟨line, location_hash hothers.1 hbranch, hrest.strings⟩
    · have hreads := parseLines_reads hfirst h line (List.mem_cons_self ..)
      obtain ⟨p₁, hnoted, h₁⟩ :=
        @parseLine_other D parseDouble parseInt line p hfirst hplaylist hothers.1 hreads fun _ => hbranch
      obtain rfl : result = (true, p₁) := Option.some.inj (hline.symm.trans hnoted)
      rw [← h₁.strings]
      exact ih (h₁.first.trans hfirst) (h₁.playlist.trans hplaylist) (h₁.media.trans hmedia) hothers.2
        (by simpa [hbranch] using hunknown) hlines

/-! ## Segments -/

/-- Nothing is left over from the segment before. -/
structure Ready (p : PlaylistParser D) : Prop where
  first : p.isFirstLine = false
  playlist : p.isLinePlaylistURI = false
  media : p.isLineMediaFileURI = false
  discontinuity : p.isDiscontinuity = false

theorem parseLine_extinf {s : Segment} (hformed : s.Formed parseDouble) {p : PlaylistParser D}
    (hfirst : p.isFirstLine = false) :
    ∃ ds, parseLine parseDouble parseInt s.extinf p =
        some (true, { p with isLineMediaFileURI := true, dataListDouble := p.dataListDouble ++ ds }) ∧
      (s.TitlePlain → ds.map some = [parseDouble s.number]) ∧ (¬ s.TitlePlain → ds = []) := by
  obtain ⟨hplain, hcolon⟩ := extinf_records hformed
  rw [parseLine, if_neg (by simp [hfirst]), branch_extinf]
  by_cases htitle : s.TitlePlain
  · obtain ⟨d, hd⟩ := Option.isSome_iff_exists.mp hformed.number_parses
    refine ⟨[d], ?_, fun _ => by simp [hd], fun h => absurd htitle h⟩
    simp [hplain htitle, hd]
  · refine ⟨[], ?_, fun h => absurd h htitle, fun _ => rfl⟩
    simp [hcolon htitle]

theorem parseLine_uri {line : Line} (hne : line ≠ []) (hhash : startsWith line "#" = false) {p : PlaylistParser D}
    (hfirst : p.isFirstLine = false) (hplaylist : p.isLinePlaylistURI = false) (hmedia : p.isLineMediaFileURI = true) :
    parseLine parseDouble parseInt line p = some (true, { p with
      isLineMediaFileURI := false
      dataListString := p.dataListString ++ [line]
      dataListBoolean := p.dataListBoolean ++ [p.isDiscontinuity]
      isDiscontinuity := false }) := by
  rw [parseLine, if_neg (by simp [hfirst]), branch_uri hne hhash]
  simp [hplaylist, hmedia]

theorem segment_head {s : Segment} (hformed : s.Formed parseDouble) {p : PlaylistParser D} (hready : Ready p)
    (hreads : ∀ line ∈ s.before, ¬ Fails parseInt line) :
    ∃ p' ds, parseLines parseDouble parseInt (s.before ++ [s.extinf]) p = some p' ∧
      Noted (s.before.any marks) { p with isLineMediaFileURI := true, dataListDouble := p.dataListDouble ++ ds } p' ∧
      (s.TitlePlain → ds.map some = [parseDouble s.number]) ∧ (¬ s.TitlePlain → ds = []) := by
  obtain ⟨p₁, hbefore, h₁⟩ := @parseLines_others D parseDouble parseInt s.before p hready.first hready.playlist
    (List.forall_mem_append.mp hformed.others).1 hreads fun h => absurd (hready.media.symm.trans h) (by decide)
  obtain ⟨ds, hextinf, hds⟩ := @parseLine_extinf D parseDouble parseInt s hformed p₁ (h₁.first.trans hready.first)
  refine ⟨{ p₁ with isLineMediaFileURI := true, dataListDouble := p₁.dataListDouble ++ ds }, ds, ?_, ?_, hds⟩
  · rw [parseLines_append, hbefore, Option.bind_some, parseLines, hextinf]
    rfl
  · refine ⟨h₁.first, h₁.playlist, rfl, h₁.strings, ?_, h₁.booleans, ?_⟩
    · dsimp only
      rw [h₁.doubles]
    · rw [h₁.discontinuity, hready.discontinuity, Bool.false_or]

theorem lines_eq (s : Segment) : s.lines = (s.before ++ [s.extinf]) ++ (s.between ++ [s.uri]) := by
  simp [Segment.lines]

theorem segment_spec {s : Segment} (hformed : s.Formed parseDouble) {p : PlaylistParser D} (hready : Ready p)
    (hreads : ∀ line ∈ s.others, ¬ Fails parseInt line) (hknown : ∀ line ∈ s.between, branch line ≠ .location) :
    ∃ p' ds, parseLines parseDouble parseInt s.lines p = some p' ∧ Ready p' ∧
      p'.dataListString = p.dataListString ++ [s.uri] ∧ p'.dataListDouble = p.dataListDouble ++ ds ∧
      p'.dataListBoolean = p.dataListBoolean ++ [s.others.any marks] ∧
      (s.TitlePlain → ds.map some = [parseDouble s.number]) ∧ (¬ s.TitlePlain → ds = []) := by
  obtain ⟨hreads₁, hreads₂⟩ := List.forall_mem_append.mp hreads
  obtain ⟨p₁, ds, hhead, h₁, hds⟩ := segment_head hformed hready hreads₁
  have hfirst := h₁.first.trans hready.first
  have hplaylist := h₁.playlist.trans hready.playlist
  obtain ⟨p₂, hbetween, h₂⟩ := @parseLines_others D parseDouble parseInt s.between p₁ hfirst hplaylist
    (List.forall_mem_append.mp hformed.others).2 hreads₂ fun _ => hknown
  refine ⟨{ p₂ with
    isLineMediaFileURI := false
    dataListString := p₂.dataListString ++ [s.uri]
    dataListBoolean := p₂.dataListBoolean ++ [p₂.isDiscontinuity]
    isDiscontinuity := false }, ds, ?_, ?_, ?_, ?_, ?_, hds⟩
  · rw [lines_eq, parseLines_append, hhead, Option.bind_some, parseLines_append, hbetween, Option.bind_some, parseLines,
      parseLine_uri hformed.uri_ne hformed.uri_hash (h₂.first.trans hfirst) (h₂.playlist.trans hplaylist)
      (h₂.media.trans h₁.media)]
    rfl
  · exact ⟨h₂.first.trans hfirst, h₂.playlist.trans hplaylist, rfl, rfl⟩
  · dsimp only
    rw [h₂.strings, h₁.strings]
  · exact h₂.doubles.trans h₁.doubles
  · dsimp only
    rw [h₂.booleans, h₁.booleans, h₂.discontinuity, h₁.discontinuity, Segment.others, List.any_append]

theorem marks_others {s : Segment} (hmarked : (∃ line ∈ s.others, branch line = .discontinuity) → discontinuityTag ∈ s.others) :
    s.others.any marks = s.isDiscontinuity := by
  rw [Segment.isDiscontinuity, Bool.eq_iff_iff, List.any_eq_true, decide_eq_true_iff]
  constructor
  · rintro ⟨line, hline, hmark⟩
    exact hmarked ⟨line, hline, of_decide_eq_true hmark⟩
  · exact fun hmem => ⟨discontinuityTag, hmem, by decide⟩

theorem segment_wrong {s : Segment} (hformed : s.Formed parseDouble) {p p' : PlaylistParser D} (hready : Ready p)
    (hwrong : ¬ s.Good parseInt) (h : parseLines parseDouble parseInt s.lines p = some p') :
    (∃ tag, startsWith tag "#" = true ∧ p.dataListString ++ [tag] <+: p'.dataListString) ∨
      p.dataListBoolean ++ [!s.isDiscontinuity] <+: p'.dataListBoolean ∨ p'.dataListDouble = p.dataListDouble := by
  have hreads : ∀ line ∈ s.others, ¬ Fails parseInt line := by
    have hall := parseLines_reads hready.first h
    rw [Segment.lines, List.forall_mem_append, List.forall_mem_cons, List.forall_mem_append] at hall
    exact List.forall_mem_append.mpr ⟨hall.1, hall.2.2.1⟩
  by_cases hknown : ∀ line ∈ s.between, branch line ≠ .location
  · obtain ⟨q, ds, hq, -, -, hdoubles, hbooleans, -, hempty⟩ := @segment_spec D parseDouble parseInt s hformed p hready hreads hknown
    obtain rfl : q = p' := Option.some.inj (hq.symm.trans h)
    by_cases hmarked : (∃ line ∈ s.others, branch line = .discontinuity) → discontinuityTag ∈ s.others
    · have htitle : ¬ s.TitlePlain := fun htitle => hwrong ⟨hreads, hknown, hmarked, htitle⟩
      rw [hempty htitle, List.append_nil] at hdoubles
      exact Or.inr (Or.inr hdoubles)
    · obtain ⟨⟨line, hline, hmark⟩, htag⟩ := Classical.not_imp.mp hmarked
      have hany : s.others.any marks = true := List.any_eq_true.mpr ⟨line, hline, decide_eq_true hmark⟩
      have hnot : s.isDiscontinuity = false := decide_eq_false htag
      refine Or.inr (Or.inl ?_)
      rw [hbooleans, hany, hnot]
      exact List.prefix_rfl
  · refine Or.inl ?_
    obtain ⟨p₁, ds, hhead, h₁, -⟩ :=
      @segment_head D parseDouble parseInt s hformed p hready (List.forall_mem_append.mp hreads).1
    rw [lines_eq, parseLines_append, hhead, Option.bind_some, parseLines_append] at h
    obtain ⟨q, hbetween, huri⟩ := Option.bind_eq_some_iff.mp h
    have hfirst := h₁.first.trans hready.first
    obtain ⟨tag, htag, hprefix⟩ := parseLines_stores hfirst (h₁.playlist.trans hready.playlist) h₁.media
      (List.forall_mem_append.mp hformed.others).2 (by simpa using hknown) hbetween
    rw [h₁.strings] at hprefix
    exact ⟨tag, htag, hprefix.trans (parseLines_grown (parseLines_grown hfirst hbetween).first huri).strings⟩

/-! ## Playlists -/

/-- The lists of `p'` are those of `p`, continued by the segments' own attributes. -/
def Continues (parseDouble : Line → Option D) (segments : List Segment) (p p' : PlaylistParser D) : Prop :=
  p'.dataListString = p.dataListString ++ segments.map Segment.uri ∧
  p'.dataListDouble.map some = p.dataListDouble.map some ++ segments.map (fun s => parseDouble s.number) ∧
  p'.dataListBoolean = p.dataListBoolean ++ segments.map Segment.isDiscontinuity

theorem segment_continues {s : Segment} (hformed : s.Formed parseDouble) {p : PlaylistParser D} (hready : Ready p)
    (hgood : s.Good parseInt) :
    ∃ p', parseLines parseDouble parseInt s.lines p = some p' ∧ Ready p' ∧
      ∀ segments q, Continues parseDouble (s :: segments) p q ↔ Continues parseDouble segments p' q := by
  obtain ⟨p', ds, hrun, hready', hstrings, hdoubles, hbooleans, hds, -⟩ :=
    segment_spec hformed hready hgood.reads hgood.known
  refine ⟨p', hrun, hready', fun segments q => ?_⟩
  rw [Continues, Continues, hstrings, hdoubles, hbooleans, marks_others hgood.marked, List.map_append,
    hds hgood.title_plain]
  simp

theorem wrong_stays {s : Segment} (hformed : s.Formed parseDouble) {p p' q : PlaylistParser D} (hready : Ready p)
    (hwrong : ¬ s.Good parseInt) (h : parseLines parseDouble parseInt s.lines p = some p') {segments : List Segment}
    {lines : List Line} (hcount : (lines.countP fun line => decide (branch line = .extinf)) = segments.length)
    (hlines : parseLines parseDouble parseInt lines p' = some q) : ¬ Continues parseDouble (s :: segments) p q := by
  rintro ⟨hstrings, hdoubles, hbooleans⟩
  have hgrown := parseLines_grown (parseLines_grown hready.first h).first hlines
  rcases segment_wrong hformed hready hwrong h with ⟨tag, htag, hprefix⟩ | hprefix | hsame
  · have hprefix' := hprefix.trans hgrown.strings
    rw [hstrings, List.prefix_append_right_inj, List.map_cons, List.singleton_prefix_cons_iff] at hprefix'
    rw [hprefix'] at htag
    exact absurd (htag.symm.trans hformed.uri_hash) (by decide)
  · have hprefix' := hprefix.trans hgrown.booleans
    rw [hbooleans, List.prefix_append_right_inj, List.map_cons, List.singleton_prefix_cons_iff] at hprefix'
    simp at hprefix'
  · have hlength := congrArg List.length hdoubles
    have hle := hgrown.doubles
    rw [hcount, hsame] at hle
    simp at hlength
    omega

theorem count_others {lines : List Line} (h : ∀ line ∈ lines, Other line) :
    (lines.countP fun line => decide (branch line = .extinf)) = 0 := by
  rw [List.countP_eq_zero]
  exact fun line hline => by simpa using (other_branch (h line hline)).1

theorem count_extinf {segments : List Segment} {after : List Line} (hformed : ∀ s ∈ segments, s.Formed parseDouble)
    (hafter : ∀ line ∈ after, Other line) :
    ((segments.flatMap Segment.lines ++ after).countP fun line => decide (branch line = .extinf)) = segments.length := by
  induction segments with
  | nil => exact count_others hafter
  | cons s segments ih =>
    rw [List.forall_mem_cons] at hformed
    have hothers := List.forall_mem_append.mp hformed.1.others
    rw [List.flatMap_cons, List.append_assoc, List.countP_append, ih hformed.2, Segment.lines, List.countP_append,
      List.countP_cons, List.countP_append, count_others hothers.1, count_others hothers.2, branch_extinf,
      List.countP_singleton, branch_uri hformed.1.uri_ne hformed.1.uri_hash]
    simp
    omega

theorem parseLines_iff {segments : List Segment} {after : List Line} (hformed : ∀ s ∈ segments, s.Formed parseDouble)
    (hafter : ∀ line ∈ after, Other line) {p : PlaylistParser D} (hready : Ready p) :
    (∃ q, parseLines parseDouble parseInt (segments.flatMap Segment.lines ++ after) p = some q ∧
      Continues parseDouble segments p q) ↔
    (∀ s ∈ segments, s.Good parseInt) ∧ ∀ line ∈ after, ¬ Fails parseInt line := by
  induction segments generalizing p with
  | nil =>
    rw [List.flatMap_nil, List.nil_append]
    constructor
    · rintro ⟨q, hq, -⟩
      exact ⟨fun _ h => absurd h List.not_mem_nil, parseLines_reads hready.first hq⟩
    · rintro ⟨-, hreads⟩
      obtain ⟨q, hq, hnoted⟩ := @parseLines_others D parseDouble parseInt after p hready.first hready.playlist hafter hreads
        fun h => absurd (hready.media.symm.trans h) (by decide)
      refine ⟨q, hq, ?_⟩
      rw [Continues, hnoted.strings, hnoted.doubles, hnoted.booleans]
      simp
  | cons s segments ih =>
    rw [List.forall_mem_cons] at hformed
    rw [List.flatMap_cons, List.append_assoc, parseLines_append, List.forall_mem_cons]
    by_cases hgood : s.Good parseInt
    · obtain ⟨p', hrun, hready', hcontinues⟩ := segment_continues hformed.1 hready hgood
      rw [hrun, Option.bind_some]
      simp only [hcontinues, hgood, true_and]
      exact ih hformed.2 hready'
    · constructor
      · rintro ⟨q, hq, hcontinues⟩
        obtain ⟨p', hrun, hrest⟩ := Option.bind_eq_some_iff.mp hq
        exact absurd hcontinues (wrong_stays hformed.1 hready hgood hrun (count_extinf hformed.2 hafter) hrest)
      · exact fun h => absurd h.1.1 hgood

/-- The attributes stay together exactly where every segment is good and no number of a tag behind the last one fails. -/
theorem together_iff {segments : List Segment} {after : List Line} (hformed : ∀ s ∈ segments, s.Formed parseDouble)
    (hafter : ∀ line ∈ after, Other line) :
    Together parseDouble parseInt segments after ↔
      (∀ s ∈ segments, s.Good parseInt) ∧ ∀ line ∈ after, ¬ Fails parseInt line := by
  have hready : Ready { (new : PlaylistParser D) with isFirstLine := false } := ⟨rfl, rfl, rfl, rfl⟩
  rw [← parseLines_iff hformed hafter hready]
  rfl

/-! ## Examples -/

def readDigits (line : Line) : Option Nat :=
  if line ≠ [] ∧ line.all Char.isDigit then some (line.foldl (fun n c => 10 * n + (c.toNat - '0'.toNat)) 0) else none

def sampleSegment (title : String) (between : List Line) : Segment :=
  ⟨[discontinuityTag], "10".toList, some title.toList, between, "a.ts".toList⟩

theorem sampleSegment_formed {title : String} {between : List Line} (h : ∀ line ∈ between, Other line) :
    (sampleSegment title between).Formed readDigits where
  others := by
    rw [Segment.others, List.forall_mem_append]
    exact ⟨fun line hline => by rw [List.mem_singleton.mp hline]; exact ⟨Or.inr (by decide), by decide, by decide⟩, h⟩
  number_ne := by simp [sampleSegment]
  number_colon := by simp [sampleSegment]
  number_comma := by simp [sampleSegment]
  number_parses := by
    change (readDigits "10".toList).isSome
    decide
  uri_ne := by simp [sampleSegment]
  uri_hash := by
    change startsWith "a.ts".toList "#" = false
    decide

theorem together_iff_one :
    Together readDigits (fun line => (readDigits line).map Int.ofNat) [sampleSegment "a:" []] ["#EXT-X-ENDLIST".toList] := by
  refine (together_iff (fun s hs => ?_) (fun line hline => ?_)).mpr ⟨fun s hs => ?_, fun line hline => ?_⟩
  · rw [List.mem_singleton.mp hs]
    exact sampleSegment_formed fun _ h => absurd h List.not_mem_nil
  · rw [List.mem_singleton.mp hline]
    exact ⟨Or.inr (by decide), by decide, by decide⟩
  · rw [List.mem_singleton.mp hs]
    refine ⟨by decide, by decide, fun _ => by decide, ?_⟩
    rintro title htitle
    obtain rfl : "a:".toList = title := Option.some.inj htitle
    decide
  · rw [List.mem_singleton.mp hline]
    decide

/-- A title with a colon: the number is not recorded. -/
theorem title_colon_dropped :
    ¬ Together readDigits (fun line => (readDigits line).map Int.ofNat) [sampleSegment "a:b" []] [] := by
  rintro ⟨p, hp, -, hdoubles, -⟩
  have hlists : (parseLines readDigits (fun line => (readDigits line).map Int.ofNat)
      (text [sampleSegment "a:b" []] []) new).map PlaylistParser.dataListDouble = some [] := by decide
  rw [hp] at hlists
  rw [Option.some.inj hlists] at hdoubles
  cases hdoubles

end Parsing
end PlaylistParser
end OpenJfx.Media
