import Mathlib.Data.List.Induction
import OpenJfx.Controls.TextAreaContent

/-! # The text area content refines a plain text -/
set_option autoImplicit false
namespace OpenJfx.Controls

open OpenJfx.Lib

namespace TextAreaContent

def endedLength (ps : List Text) : Nat := (ended newline ps).length

@[simp] theorem endedLength_append (as bs : List Text) :
    endedLength (as ++ bs) = endedLength as + endedLength bs := by
  simp [endedLength]

@[simp] theorem endedLength_cons (p : Text) (ps : List Text) :
    endedLength (p :: ps) = p.length + 1 + endedLength ps := by
  simp only [endedLength, ended_cons, List.length_append, List.length_cons]
  omega

@[simp] theorem endedLength_nil : endedLength [] = 0 := rfl

/-! ## The scans -/

theorem locate_spec {as bs cs : List Text} {p : Text} {index : Int} (low : endedLength as ≤ index)
    (high : index ≤ endedLength as + p.length) {k : Nat} {offset : Int}
    (hk : k = (as ++ p :: bs).length) (hoffset : offset = endedLength (as ++ p :: bs)) :
    locate (as ++ p :: (bs ++ cs)) index k offset = .ok (as.length, (endedLength as : Int), p) := by
  subst hk hoffset
  induction bs using List.reverseRecOn generalizing cs with
  | nil =>
    have hget : (as ++ p :: ([] ++ cs))[as.length]? = some p := by simp
    have hlen : (as ++ [p]).length = as.length + 1 := by simp
    rw [hlen]
    simp only [locate, hget]
    have hsub : (endedLength (as ++ [p]) : Int) - (p.length + 1) = endedLength as := by
      simp only [endedLength_append, endedLength_cons, endedLength_nil]
      omega
    rw [hsub, if_neg (by omega)]
  | append_singleton bs b ih =>
    have hsplit : as ++ p :: (bs ++ [b] ++ cs) = as ++ p :: (bs ++ ([b] ++ cs)) := by simp
    have hlen : (as ++ p :: (bs ++ [b])).length = (as ++ p :: bs).length + 1 := by simp; omega
    have hget : (as ++ p :: (bs ++ ([b] ++ cs)))[(as ++ p :: bs).length]? = some b := by
      have : as ++ p :: (bs ++ ([b] ++ cs)) = (as ++ p :: bs) ++ b :: cs := by simp
      rw [this]
      simp
    have hsub : (endedLength (as ++ p :: (bs ++ [b])) : Int) - (b.length + 1)
        = endedLength (as ++ p :: bs) := by
      simp only [endedLength_append, endedLength_cons, endedLength_nil]
      omega
    rw [hlen, hsplit]
    simp only [locate, hget]
    have hbefore : index < (endedLength (as ++ p :: bs) : Int) := by
      simp only [endedLength_append, endedLength_cons]
      omega
    rw [hsub, if_pos hbefore]
    exact ih

theorem skip_spec {as bs : List Text} {p : Text} {index : Int} (low : endedLength as ≤ index)
    (high : index ≤ endedLength as + p.length) (k : Nat) :
    skip (as ++ p :: bs) k index = (k + as.length, index - endedLength as) := by
  induction as generalizing index k with
  | nil =>
    simp only [endedLength_nil] at low high
    rw [List.nil_append, skip, if_pos (by omega)]
    simp
  | cons a as ih =>
    simp only [endedLength_cons] at low high
    rw [List.cons_append, skip, if_neg (by omega), ih (by omega) (by omega)]
    simp only [endedLength_cons, List.length_cons, Prod.mk.injEq]
    omega

theorem skip_beyond {ps : List Text} {index : Int} (high : endedLength ps ≤ index) (k : Nat) :
    (skip ps k index).1 = k + ps.length := by
  induction ps generalizing index k with
  | nil => rfl
  | cons p ps ih =>
    simp only [endedLength_cons] at high
    rw [skip, if_neg (by omega), ih (by omega), List.length_cons]
    omega

theorem read_spec {c : TextAreaContent} {n : Nat} {i : Int} (short : i + n ≤ c.contentLength) :
    ∀ (as bs : List Text) (x y : Text) (k : Nat) (offset : Int),
      c.paragraphs = as ++ (x ++ y) :: bs → k = as.length → offset = x.length →
      n ≤ y.length + endedLength bs →
      read c n i k offset = .ok ((y ++ newline :: ended newline bs).take n) := by
  induction n generalizing i with
  | zero =>
    intro as bs x y k offset _ _ _ _
    simp [read]
  | succ n ih =>
    intro as bs x y k offset hps hk hoffset enough
    have hget : c.paragraphs[k]? = some (x ++ y) := by rw [hps, hk]; simp
    simp only [read, hget]
    cases y with
    | nil =>
      cases bs with
      | nil => simp at enough
      | cons b bs =>
        simp only [List.length_nil, endedLength_cons, Nat.zero_add] at enough
        rw [if_pos ⟨by simp [hoffset], by omega⟩, if_pos (by rw [hps, hk]; simp)]
        have hrest := ih (i := i + 1) (by omega) (as ++ [x]) bs [] b (k + 1) 0 (by rw [hps]; simp)
          (by simp [hk]) rfl (by omega)
        rw [hrest]
        simp
    | cons u y =>
      have hchar : StringBuilder.charAt (x ++ u :: y) offset = .ok u :=
        StringBuilder.charAt_split hoffset
      simp only [List.length_cons] at enough
      rw [if_neg (by simp only [List.length_append, List.length_cons]; omega)]
      simp only [hchar]
      have hrest := ih (i := i + 1) (by omega) as bs (x ++ [u]) y k (offset + 1) (by rw [hps]; simp) hk
        (by simp [hoffset]) (by omega)
      rw [hrest]
      simp

/-! ## The refinement -/

def Clean (ps : List Text) : Prop := ∀ p ∈ ps, newline ∉ p

@[simp] theorem clean_nil : Clean [] := by simp [Clean]

@[simp] theorem clean_append (as bs : List Text) : Clean (as ++ bs) ↔ Clean as ∧ Clean bs :=
  List.forall_mem_append

@[simp] theorem clean_cons (p : Text) (ps : List Text) : Clean (p :: ps) ↔ newline ∉ p ∧ Clean ps :=
  List.forall_mem_cons

/-- The paragraphs are the lines of `t`. -/
structure Refines (c : TextAreaContent) (t : Text) : Prop where
  flat : ended newline c.paragraphs = t ++ [newline]
  length : c.contentLength = t.length
  clean : Clean c.paragraphs

section Refines
variable {c : TextAreaContent} {t : Text}

theorem refines_create : Refines create [] := ⟨rfl, rfl, by simp [create]⟩

theorem Refines.endedLength_eq (h : Refines c t) : endedLength c.paragraphs = t.length + 1 := by
  rw [endedLength, h.flat]
  simp

theorem Refines.exists_position (h : Refines c t) {index : Nat} (inside : index ≤ t.length) :
    ∃ as x y bs, c.paragraphs = as ++ (x ++ y) :: bs ∧ index = endedLength as + x.length ∧
      t.take index = ended newline as ++ x ∧ t.drop index ++ [newline] = y ++ newline :: ended newline bs := by
  have hlen := h.endedLength_eq
  obtain ⟨as, p, bs, hps, low, high⟩ :=
    @exists_line _ newline c.paragraphs index (by change _ < endedLength _; omega)
  change endedLength as ≤ index at low
  change index ≤ endedLength as + p.length at high
  obtain ⟨x, y, rfl, hx⟩ : ∃ x y, p = x ++ y ∧ x.length = index - endedLength as :=
    ⟨p.take (index - endedLength as), p.drop (index - endedLength as), (List.take_append_drop _ p).symm,
      by rw [List.length_take]; omega⟩
  have hflat := h.flat
  rw [hps] at hflat
  simp only [ended_append, ended_cons, List.append_assoc] at hflat
  have hindex : index = (ended newline as ++ x).length := by
    rw [List.length_append]
    change index = endedLength as + x.length
    omega
  have hsplit : (ended newline as ++ x) ++ (y ++ newline :: ended newline bs) = t ++ [newline] := by
    simpa using hflat
  refine ⟨as, x, y, bs, hps, by omega, ?_, ?_⟩
  · have htake := congrArg (List.take index) hsplit
    rw [List.take_left' hindex.symm, List.take_append_of_le_length inside] at htake
    exact htake.symm
  · have hdrop := congrArg (List.drop index) hsplit
    rw [List.drop_left' hindex.symm, List.drop_append_of_le_length inside] at hdrop
    exact hdrop.symm

theorem splitLines_spec (text : Text) (lines : List Text) (line : Text)
    (clean : Clean (lines ++ [line])) :
    ended newline ((splitLines text lines line).1 ++ [(splitLines text lines line).2])
        = ended newline lines ++ line ++ text ++ [newline] ∧
      Clean ((splitLines text lines line).1 ++ [(splitLines text lines line).2]) := by
  induction text generalizing lines line with
  | nil => exact ⟨by simp [splitLines], clean⟩
  | cons c rest ih =>
    rw [splitLines]
    split
    next isNewline =>
      obtain ⟨hflat, hclean⟩ := ih (lines ++ [line]) [] (by simpa using clean)
      refine ⟨?_, hclean⟩
      rw [hflat, isNewline]
      simp
    next other =>
      have clean' : Clean (lines ++ [line ++ [c]]) := by
        simp only [clean_append, clean_cons, clean_nil, and_true, List.mem_append, List.mem_singleton,
          not_or] at clean ⊢
        exact ⟨clean.1, clean.2, fun h => other h.symm⟩
      obtain ⟨hflat, hclean⟩ := ih lines (line ++ [c]) clean'
      refine ⟨?_, hclean⟩
      rw [hflat]
      simp

theorem insertLines_spec {as bs lines : List Text} {x y line text : Text} {start : Int}
    (hstart : start = x.length) (hlines : ended newline (lines ++ [line]) = text ++ [newline])
    (clean : Clean (as ++ (x ++ y) :: bs)) (cleanLines : Clean (lines ++ [line])) :
    ∃ ps, insertLines (as ++ (x ++ y) :: bs) as.length (x ++ y) start lines line = .ok ps ∧
      ended newline ps = ended newline as ++ x ++ text ++ (y ++ newline :: ended newline bs) ∧
      Clean ps := by
  simp only [clean_append, clean_cons, clean_nil, List.mem_append, not_or] at clean cleanLines
  cases lines with
  | nil =>
    have hline : line = text := by simpa using hlines
    have hinsert := StringBuilder.insert_split (b := y) line hstart
    refine ⟨as ++ (x ++ line ++ y) :: bs, ?_, ?_, ?_⟩
    · simp only [insertLines, hinsert]
      simp
    · simp [hline]
    · simp [clean, cleanLines]
  | cons first middle =>
    have htrailing : StringBuilder.subSequence (x ++ y) start (x ++ y).length = .ok y := by
      have := @StringBuilder.subSequence_split _ x y [] start (x ++ y).length hstart (by simp)
      simpa using this
    have hdelete : StringBuilder.delete (x ++ y) start (x ++ y).length = .ok x := by
      have := @StringBuilder.delete_split _ x y [] start (x ++ y).length hstart (by simp)
      simpa using this
    have hinsert : StringBuilder.insert x start first = .ok (x ++ first) := by
      have := @StringBuilder.insert_split _ x [] start first hstart
      simpa using this
    simp only [List.cons_append, ended_cons, ended_append, ended_nil] at hlines
    refine ⟨as ++ (x ++ first) :: (middle ++ (line ++ y) :: bs), ?_, ?_, ?_⟩
    · have hset : (as ++ (x ++ y) :: bs).set as.length (x ++ first) = (as ++ [x ++ first]) ++ bs := by
        simp
      have hlen : as.length + 1 = (as ++ [x ++ first]).length := by simp
      simp only [insertLines, htrailing, hdelete, hinsert, addAll, hset]
      rw [hlen, List.take_left' rfl, List.drop_left' rfl]
      simp
    · have htext : first ++ newline :: (ended newline middle ++ line) = text := by
        have : (first ++ newline :: (ended newline middle ++ line)) ++ [newline] = text ++ [newline] := by
          simpa using hlines
        exact List.append_cancel_right this
      rw [← htext]
      simp
    · simp only [clean_cons] at cleanLines
      simp [clean, cleanLines]

theorem Refines.insert (h : Refines c t) {index : Nat} (inside : index ≤ t.length) (text : Text) :
    ∃ c', c.insert index text = .ok c' ∧
      Refines c' (t.take index ++ filterInput text false false ++ t.drop index) := by
  have hlen := h.length
  unfold TextAreaContent.insert
  rw [if_neg (by omega)]
  dsimp only
  obtain ⟨filtered, hfiltered⟩ : ∃ filtered, filtered = filterInput text false false := ⟨_, rfl⟩
  rw [← hfiltered]
  by_cases some : 0 < filtered.length
  · rw [if_pos some]
    obtain ⟨as, x, y, bs, hps, hindex, htake, hdrop⟩ := h.exists_position inside
    have hlocate : locate c.paragraphs index c.paragraphs.length (c.contentLength + 1)
        = .ok (as.length, (endedLength as : Int), x ++ y) := by
      have hspec := @locate_spec as bs [] (x ++ y) index (by omega)
        (by rw [List.length_append]; omega) c.paragraphs.length (c.contentLength + 1) (by rw [hps])
        (by rw [← hps, h.endedLength_eq]; omega)
      rwa [List.append_nil, ← hps] at hspec
    obtain ⟨hlines, hclean⟩ := splitLines_spec filtered [] [] (by simp)
    simp only [ended_nil, List.nil_append] at hlines
    obtain ⟨ps, hinsert, hflat, hcleanPs⟩ := @insertLines_spec as bs _ x y _ filtered
      ((index : Int) - endedLength as) (by omega) hlines (by rw [← hps]; exact h.clean) hclean
    rw [hlocate]
    dsimp only
    rw [hps, hinsert]
    refine ⟨_, rfl, ?_, ?_, hcleanPs⟩
    · rw [hflat, ← hdrop, htake]
      simp
    · show c.contentLength + filtered.length = _
      simp only [List.length_append, List.length_take, List.length_drop]
      omega
  · rw [if_neg some]
    have : filtered = [] := List.eq_nil_of_length_eq_zero (by omega)
    exact ⟨c, rfl, by rw [this]; simpa using h⟩

theorem Refines.exists_range (h : Refines c t) {start stop : Nat} (order : start ≤ stop)
    (inside : stop ≤ t.length) :
    (∃ (as : List Text) (x d y : Text) (bs : List Text), c.paragraphs = as ++ (x ++ (d ++ y)) :: bs ∧ start = endedLength as + x.length ∧
      stop = start + d.length ∧ t.take start ++ t.drop stop ++ [newline]
        = ended newline as ++ (x ++ y) ++ newline :: ended newline bs) ∨
    ∃ (as : List Text) (x z : Text) (mid : List Text) (u y : Text) (bs : List Text), c.paragraphs = as ++ (x ++ z) :: (mid ++ (u ++ y) :: bs) ∧
      start = endedLength as + x.length ∧ stop = endedLength (as ++ (x ++ z) :: mid) + u.length ∧
      t.take start ++ t.drop stop ++ [newline]
        = ended newline as ++ (x ++ y) ++ newline :: ended newline bs := by
  obtain ⟨cs, u, y, bs, hps, hstop, htake, hdrop⟩ := h.exists_position inside
  have htakeStart : t.take start = (ended newline cs ++ u).take start := by
    rw [← htake, List.take_take, Nat.min_eq_left order]
  by_cases same : endedLength cs ≤ start
  · left
    obtain ⟨x, d, rfl, hx⟩ : ∃ x d, u = x ++ d ∧ x.length = start - endedLength cs :=
      ⟨u.take (start - endedLength cs), u.drop (start - endedLength cs), (List.take_append_drop _ u).symm,
        by rw [List.length_take]; omega⟩
    rw [List.length_append] at hstop
    refine ⟨cs, x, d, y, bs, by rw [hps]; simp, by omega, by omega, ?_⟩
    have hstart : start = (ended newline cs ++ x).length := by
      rw [List.length_append]
      change start = endedLength cs + x.length
      omega
    have hsplit : ended newline cs ++ (x ++ d) = (ended newline cs ++ x) ++ d := by simp
    rw [List.append_assoc, hdrop, htakeStart, hsplit, List.take_left' hstart.symm]
    simp
  · right
    obtain ⟨as, p, mid, rfl, low, high⟩ :=
      @exists_line _ newline cs start (by change _ < endedLength _; omega)
    change endedLength as ≤ start at low
    change start ≤ endedLength as + p.length at high
    obtain ⟨x, z, rfl, hx⟩ : ∃ x z, p = x ++ z ∧ x.length = start - endedLength as :=
      ⟨p.take (start - endedLength as), p.drop (start - endedLength as), (List.take_append_drop _ p).symm,
        by rw [List.length_take]; omega⟩
    refine ⟨as, x, z, mid, u, y, bs, by rw [hps]; simp, by omega, hstop, ?_⟩
    have hstart : start = (ended newline as ++ x).length := by
      rw [List.length_append]
      change start = endedLength as + x.length
      omega
    have hsplit : ended newline (as ++ (x ++ z) :: mid) ++ u
        = (ended newline as ++ x) ++ (z ++ newline :: (ended newline mid ++ u)) := by simp
    rw [List.append_assoc, hdrop, htakeStart, hsplit, List.take_left' hstart.symm]
    simp

theorem deleteBetween_same {as bs : List Text} {x d y : Text} {start stop : Int}
    (hstart : start = endedLength as + x.length) (hstop : stop = start + d.length) :
    deleteBetween (as ++ (x ++ (d ++ y)) :: bs) start stop (as.length, (endedLength as : Int), x ++ (d ++ y))
      (as.length, (endedLength as : Int), x ++ (d ++ y)) = .ok (as ++ (x ++ y) :: bs) := by
  have hdelete := @StringBuilder.delete_split _ x d y (start - endedLength as) (stop - endedLength as)
    (by omega) (by omega)
  simp only [deleteBetween, if_true, hdelete]
  simp

theorem deleteBetween_spanning {as mid bs : List Text} {x z u y : Text} {start stop : Int}
    (hstart : start = endedLength as + x.length)
    (hstop : stop = endedLength (as ++ (x ++ z) :: mid) + u.length) :
    deleteBetween (as ++ (x ++ z) :: (mid ++ (u ++ y) :: bs)) start stop
      (as.length, (endedLength as : Int), x ++ z)
      ((as ++ (x ++ z) :: mid).length, (endedLength (as ++ (x ++ z) :: mid) : Int), u ++ y)
      = .ok (as ++ (x ++ y) :: bs) := by
  have hlead := @StringBuilder.subSequence_split _ [] x z 0 (start - endedLength as) (by simp)
    (by simp; omega)
  have htrail := @StringBuilder.delete_split _ [] u y 0
    ((start + (stop - start)) - endedLength (as ++ (x ++ z) :: mid)) (by simp) (by rw [List.length_nil]; omega)
  have hinsert := @StringBuilder.insert_split _ [] y 0 x (by simp)
  simp only [List.nil_append] at hlead htrail hinsert
  have hne : ¬as.length = (as ++ (x ++ z) :: mid).length := by simp
  have hset : (as ++ (x ++ z) :: (mid ++ (u ++ y) :: bs)).set (as ++ (x ++ z) :: mid).length y
      = (as ++ (x ++ z) :: mid) ++ y :: bs := by
    have : as ++ (x ++ z) :: (mid ++ (u ++ y) :: bs) = (as ++ (x ++ z) :: mid) ++ (u ++ y) :: bs := by simp
    rw [this, List.set_append_right _ _ le_rfl]
    simp
  have htake : ((as ++ (x ++ z) :: mid) ++ y :: bs).take as.length = as := by simp
  have hdrop : ((as ++ (x ++ z) :: mid) ++ y :: bs).drop (as ++ (x ++ z) :: mid).length = y :: bs :=
    List.drop_left' rfl
  have hpos : 0 < (as ++ (x ++ z) :: mid).length - as.length := by
    simp only [List.length_append, List.length_cons]
    omega
  simp only [deleteBetween, if_neg hne, hlead, htrail, hset, if_pos hpos, htake, hdrop, hinsert]
  simp

theorem Refines.delete (h : Refines c t) {start stop : Nat} (order : start ≤ stop) (inside : stop ≤ t.length) :
    ∃ c', c.delete start stop = .ok c' ∧ Refines c' (t.take start ++ t.drop stop) := by
  have hlen := h.length
  unfold TextAreaContent.delete
  rw [if_neg (by omega), if_neg (by omega)]
  dsimp only
  by_cases some : (0 : Int) < stop - start
  · rw [if_pos some]
    have hclean := h.clean
    have hended := h.endedLength_eq
    have hlength : c.contentLength - ((stop : Int) - start) = (t.take start ++ t.drop stop).length := by
      simp only [List.length_append, List.length_take, List.length_drop]
      omega
    rcases h.exists_range order inside with
      ⟨as, x, d, y, bs, hps, hstart, hstop, hflat⟩ | ⟨as, x, z, mid, u, y, bs, hps, hstart, hstop, hflat⟩
    · have htrailing := @locate_spec as bs [] (x ++ (d ++ y)) stop (by omega)
        (by simp only [List.length_append]; omega) c.paragraphs.length (c.contentLength + 1) (by rw [hps])
        (by rw [← hps, hended]; omega)
      have hleading := @locate_spec as [] bs (x ++ (d ++ y)) start (by omega)
        (by simp only [List.length_append]; omega) (as.length + 1)
        (endedLength as + ((x ++ (d ++ y)).length + 1)) (by simp)
        (by simp only [endedLength_append, endedLength_cons, endedLength_nil]; omega)
      rw [List.append_nil, ← hps] at htrailing
      rw [List.nil_append, ← hps] at hleading
      have hdelete := @deleteBetween_same as bs x d y start stop (by omega) (by omega)
      rw [← hps] at hdelete
      rw [htrailing]
      dsimp only
      rw [hleading]
      dsimp only
      rw [hdelete]
      refine ⟨_, rfl, by rw [hflat]; simp, hlength, ?_⟩
      rw [hps] at hclean
      simp only [clean_append, clean_cons, List.mem_append, not_or] at hclean ⊢
      exact ⟨hclean.1, ⟨hclean.2.1.1, hclean.2.1.2.2⟩, hclean.2.2⟩
    · have hps' : c.paragraphs = (as ++ (x ++ z) :: mid) ++ (u ++ y) :: bs := by rw [hps]; simp
      have htrailing := @locate_spec (as ++ (x ++ z) :: mid) bs [] (u ++ y) stop (by omega)
        (by rw [List.length_append]; omega) c.paragraphs.length (c.contentLength + 1) (by rw [hps'])
        (by rw [← hps', hended]; omega)
      have hleading := @locate_spec as (mid ++ [u ++ y]) bs (x ++ z) start (by omega)
        (by rw [List.length_append]; omega) ((as ++ (x ++ z) :: mid).length + 1)
        (endedLength (as ++ (x ++ z) :: mid) + ((u ++ y).length + 1)) (by simp; omega)
        (by simp only [endedLength_append, endedLength_cons, endedLength_nil]; omega)
      have hps'' : as ++ (x ++ z) :: (mid ++ [u ++ y] ++ bs) = c.paragraphs := by rw [hps]; simp
      rw [List.append_nil, ← hps'] at htrailing
      rw [hps''] at hleading
      have hdelete := @deleteBetween_spanning as mid bs x z u y start stop (by omega) (by omega)
      rw [← hps] at hdelete
      rw [htrailing]
      dsimp only
      rw [hleading]
      dsimp only
      rw [hdelete]
      refine ⟨_, rfl, by rw [hflat]; simp, hlength, ?_⟩
      rw [hps] at hclean
      simp only [clean_append, clean_cons, List.mem_append, not_or] at hclean ⊢
      exact ⟨hclean.1, ⟨hclean.2.1.1, hclean.2.2.2.1.2⟩, hclean.2.2.2.2⟩
  · rw [if_neg some]
    have : start = stop := by omega
    exact ⟨c, rfl, by rw [this, List.take_append_drop]; exact h⟩

theorem Refines.get (h : Refines c t) {start stop : Nat} (order : start ≤ stop) (inside : stop ≤ t.length) :
    c.get start stop = .ok ((t.drop start).take (stop - start)) := by
  have hlen := h.length
  obtain ⟨as, x, y, bs, hps, hindex, htake, hdrop⟩ := h.exists_position (le_trans order inside)
  have hskip : skip c.paragraphs 0 start = (as.length, (x.length : Int)) := by
    rw [hps, skip_spec (by omega) (by rw [List.length_append]; omega)]
    simp only [Nat.zero_add, Prod.mk.injEq, true_and]
    omega
  have hrest : t.length - start = y.length + endedLength bs := by
    have := congrArg List.length hdrop
    simp only [List.length_append, List.length_drop, List.length_cons, List.length_nil] at this
    change _ = y.length + (endedLength bs + 1) at this
    omega
  have hto : ((stop : Int) - start).toNat = stop - start := by omega
  unfold TextAreaContent.get
  dsimp only
  rw [if_neg (by omega), hskip]
  dsimp only
  rw [if_pos (by rw [hps]; simp), hto,
    read_spec (by omega) as bs x y as.length x.length hps rfl rfl (by omega), ← hdrop]
  rw [List.take_append_of_le_length (by rw [List.length_drop]; omega)]

/-! ## Runs -/

inductive Edit where
  | insert (index : Nat) (text : Text)
  | delete (start stop : Nat)
deriving DecidableEq, Repr

def step : Edit → TextAreaContent → Outcome Exn TextAreaContent
  | .insert index text, c => Outcome.ofExcept c id (c.insert index text)
  | .delete start stop, c => Outcome.ofExcept c id (c.delete start stop)

def plain : Edit → Text → Text
  | .insert index text, t => t.take index ++ filterInput text false false ++ t.drop index
  | .delete start stop, t => t.take start ++ t.drop stop

def Legal : Edit → Text → Prop
  | .insert index _, t => index ≤ t.length
  | .delete start stop, t => start ≤ stop ∧ stop ≤ t.length

instance : ∀ (e : Edit) (t : Text), Decidable (Legal e t)
  | .insert index _, t => inferInstanceAs (Decidable (index ≤ t.length))
  | .delete start stop, t => inferInstanceAs (Decidable (start ≤ stop ∧ stop ≤ t.length))

theorem Refines.step (h : Refines c t) {e : Edit} (legal : Legal e t) :
    ∃ c', TextAreaContent.step e c = .done c' ∧ Refines c' (plain e t) := by
  cases e with
  | insert index text =>
    obtain ⟨c', hinsert, refines⟩ := h.insert legal text
    exact ⟨c', by simp only [TextAreaContent.step, hinsert, Outcome.ofExcept_ok, id], refines⟩
  | delete start stop =>
    obtain ⟨c', hdelete, refines⟩ := h.delete legal.1 legal.2
    exact ⟨c', by simp only [TextAreaContent.step, hdelete, Outcome.ofExcept_ok, id], refines⟩

theorem Refines.run {edits : List Edit} (h : Refines c t) (legal : Guarded Legal plain edits t) :
    ∃ c', Outcome.run TextAreaContent.step edits c = .done c' ∧ Refines c' (exec plain edits t) := by
  induction edits generalizing c t with
  | nil => exact ⟨c, rfl, h⟩
  | cons e rest ih =>
    obtain ⟨c1, hstep, refines⟩ := h.step legal.1
    obtain ⟨c2, hrun, refines2⟩ := ih refines legal.2
    exact ⟨c2, by simp [hstep, hrun], refines2⟩

/-- The content refines the plain text in every run of legal changes. -/
theorem content_refines_plain_text (edits : List Edit) (legal : Guarded Legal plain edits []) :
    ∃ c, Outcome.run TextAreaContent.step edits create = .done c ∧
      [newline].intercalate c.paragraphs = exec plain edits [] ∧
      c.contentLength = (exec plain edits []).length ∧
      (∀ p ∈ c.paragraphs, newline ∉ p) ∧ c.paragraphs ≠ [] ∧
      ∀ start stop : Nat, start ≤ stop → stop ≤ (exec plain edits []).length →
        c.get start stop = .ok (((exec plain edits []).drop start).take (stop - start)) := by
  obtain ⟨c, hrun, refines⟩ := refines_create.run legal
  have hne : c.paragraphs ≠ [] := by
    intro hnil
    have := refines.flat
    rw [hnil] at this
    simp at this
  have hflat := refines.flat
  rw [ended_eq_intercalate newline hne] at hflat
  exact ⟨c, hrun, List.append_cancel_right hflat, refines.length, refines.clean, hne,
    fun start stop order inside => refines.get order inside⟩

/-- Lines are inserted, one into the middle of another, and a range from one
newline to the next is deleted. -/
theorem content_refines_plain_text_lines :
    ∃ c, Outcome.run TextAreaContent.step [.insert 0 [10, 97, 98, 10, 10, 99], .insert 2 [120, 10, 7, 121],
        .delete 0 4] create = .done c ∧
      [newline].intercalate c.paragraphs = [121, 98, 10, 10, 99] ∧ c.contentLength = 5 ∧
      (∀ p ∈ c.paragraphs, newline ∉ p) ∧ c.paragraphs ≠ [] ∧
      ∀ start stop : Nat, start ≤ stop → stop ≤ 5 →
        c.get start stop = .ok ((([121, 98, 10, 10, 99] : Text).drop start).take (stop - start)) :=
  content_refines_plain_text [.insert 0 [10, 97, 98, 10, 10, 99], .insert 2 [120, 10, 7, 121], .delete 0 4]
    (by decide +kernel)

end Refines

end TextAreaContent
end OpenJfx.Controls
