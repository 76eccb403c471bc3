import OpenJfx.Controls.TextAreaRefinement

/-! # `TextInputControl.Content`

The content of a text field or of a text area, as a control uses it.  A change
says whether it was one: then the listeners of the content are told, if the
caller asked for it. -/
set_option autoImplicit false
namespace OpenJfx.Controls

open OpenJfx.Lib

inductive Content where
  | field (characters : Text)
  | area (content : TextAreaContent)
deriving DecidableEq, Repr

namespace Content

/-- `filterInput` with the flags of the content. -/
def filter (text : Text) : Content → Text
  | .field _ => filterInput text true true
  | .area _ => filterInput text false false

def length : Content → Int
  | .field characters => characters.length
  | .area content => content.contentLength

/-- `get(int, int)`. -/
def get (start stop : Int) : Content → Except Exn Text
  | .field characters => StringBuilder.subSequence characters start stop
  | .area content => content.get start stop

/-- `get()`, which reads all characters; the whole range of a text area can
always be read (`Holds.value`). -/
def value : Content → Text
  | .field characters => characters
  | .area content => (content.get 0 content.contentLength).toOption.getD []

def insert (index : Int) (text : Text) (c : Content) : Except Exn (Content × Bool) :=
  match c with
  | .field characters =>
      let text := filterInput text true true
      if text ≠ [] then (StringBuilder.insert characters index text).map (fun cs => (.field cs, true))
      else .ok (c, false)
  | .area content =>
      (content.insert index text).map (fun content => (.area content, decide (filterInput text false false ≠ [])))

def delete (start stop : Int) (c : Content) : Except Exn (Content × Bool) :=
  match c with
  | .field characters =>
      if start < stop then (StringBuilder.delete characters start stop).map (fun cs => (.field cs, true))
      else .ok (c, false)
  | .area content => (content.delete start stop).map (fun content => (.area content, decide (start < stop)))

/-! ## The text of a content -/

def Holds : Content → Text → Prop
  | .field characters, t => characters = t
  | .area content, t => TextAreaContent.Refines content t

section Holds
variable {c : Content} {t : Text}

theorem Holds.value (h : Holds c t) : c.value = t := by
  cases c with
  | field characters => exact h
  | area content =>
    have hget := TextAreaContent.Refines.get h (Nat.zero_le t.length) le_rfl
    have hlength := TextAreaContent.Refines.length h
    show (content.get 0 content.contentLength).toOption.getD [] = t
    rw [hlength, show (0 : Int) = ((0 : Nat) : Int) from rfl, hget]
    simp [Except.toOption]

theorem Holds.length (h : Holds c t) : c.length = t.length := by
  cases c with
  | field characters => exact congrArg _ (congrArg _ h)
  | area content => exact TextAreaContent.Refines.length h

theorem Holds.get (h : Holds c t) {start stop : Nat} (order : start ≤ stop) (inside : stop ≤ t.length) :
    c.get start stop = .ok ((t.drop start).take (stop - start)) := by
  cases c with
  | field characters =>
    have same : characters = t := h
    subst same
    show StringBuilder.subSequence characters start stop = _
    rw [StringBuilder.subSequence, if_neg (by omega), Int.toNat_natCast, Int.toNat_natCast, List.take_drop]
    congr 2
    congr 1
    omega
  | area content => exact TextAreaContent.Refines.get h order inside

theorem Holds.get_beyond (h : Holds c t) {index : Int} (beyond : t.length < index) :
    ∃ x, c.get index index = .error x := by
  cases c with
  | field characters =>
    have same : characters = t := h
    subst same
    refine ⟨.indexOutOfBounds, ?_⟩
    show StringBuilder.subSequence characters index index = _
    rw [StringBuilder.subSequence, if_pos (by omega)]
  | area content =>
    have hended := TextAreaContent.Refines.endedLength_eq h
    have hskip := TextAreaContent.skip_beyond (show TextAreaContent.endedLength content.paragraphs ≤ index by omega) 0
    refine ⟨.indexOutOfBounds, ?_⟩
    show content.get index index = _
    unfold TextAreaContent.get
    dsimp only
    rw [if_neg (by omega), hskip, if_neg (by omega)]

theorem Holds.insert (h : Holds c t) {index : Nat} (inside : index ≤ t.length) (text : Text) :
    ∃ c', c.insert index text = .ok (c', decide (c.filter text ≠ [])) ∧
      Holds c' (t.take index ++ c.filter text ++ t.drop index) ∧ ∀ x, c'.filter x = c.filter x := by
  cases c with
  | field characters =>
    have same : characters = t := h
    subst same
    unfold Content.insert Content.filter
    dsimp only
    refine ⟨.field (characters.take index ++ filterInput text true true ++ characters.drop index), ?_, rfl,
      fun x => rfl⟩
    by_cases hempty : filterInput text true true = []
    · rw [if_neg (by simp [hempty])]
      simp [hempty]
    · rw [if_pos hempty, StringBuilder.insert, if_neg (by omega)]
      simp [hempty, Except.map]
  | area content =>
    obtain ⟨content', hinsert, refines⟩ := TextAreaContent.Refines.insert h inside text
    unfold Content.insert
    dsimp only
    rw [hinsert]
    exact ⟨_, rfl, refines, fun x => rfl⟩

theorem Holds.delete (h : Holds c t) {start stop : Nat} (order : start ≤ stop) (inside : stop ≤ t.length) :
    ∃ c', c.delete start stop = .ok (c', decide (start < stop)) ∧ Holds c' (t.take start ++ t.drop stop) ∧
      ∀ x, c'.filter x = c.filter x := by
  cases c with
  | field characters =>
    have same : characters = t := h
    subst same
    unfold Content.delete
    refine ⟨.field (characters.take start ++ characters.drop stop), ?_, rfl, fun x => rfl⟩
    dsimp only
    by_cases some : start < stop
    · have hmin : min (stop : Int) characters.length = stop := by omega
      rw [if_pos (by omega), StringBuilder.delete, hmin, if_neg (by omega)]
      simp [some, Except.map]
    · have hnone : start = stop := by omega
      rw [if_neg (by omega)]
      simp [hnone]
  | area content =>
    obtain ⟨content', hdelete, refines⟩ := TextAreaContent.Refines.delete h order inside
    unfold Content.delete
    dsimp only
    rw [hdelete]
    exact ⟨.area content', by simp [Except.map], refines, fun x => rfl⟩

end Holds

/-! ## Arguments of every kind -/

section Kept
variable {c c' : Content} {t : Text} {start stop : Int} {text : Text} {told : Bool}

theorem insert_holds (h : Holds c t) (hinsert : c.insert start text = .ok (c', told)) : ∃ t', Holds c' t' := by
  cases c with
  | field characters =>
    unfold Content.insert at hinsert
    dsimp only at hinsert
    by_cases hempty : filterInput text true true = []
    · rw [if_neg (by simp [hempty])] at hinsert
      cases hinsert
      exact ⟨_, rfl⟩
    · rw [if_pos hempty] at hinsert
      cases hcall : StringBuilder.insert characters start (filterInput text true true) with
      | error x => rw [hcall] at hinsert; cases hinsert
      | ok cs => rw [hcall] at hinsert; cases hinsert; exact ⟨cs, rfl⟩
  | area content =>
    by_cases outside : start < 0 ∨ content.contentLength < start
    · unfold Content.insert TextAreaContent.insert at hinsert
      dsimp only at hinsert
      rw [if_pos outside] at hinsert
      cases hinsert
    · have hlength := TextAreaContent.Refines.length h
      obtain ⟨n, rfl⟩ : ∃ n : Nat, start = n := ⟨start.toNat, by omega⟩
      obtain ⟨c'', hcall, holds, -⟩ := h.insert (by omega : n ≤ t.length) text
      rw [hcall] at hinsert
      cases hinsert
      exact ⟨_, holds⟩

theorem delete_holds (h : Holds c t) (hdelete : c.delete start stop = .ok (c', told)) : ∃ t', Holds c' t' := by
  cases c with
  | field characters =>
    unfold Content.delete at hdelete
    dsimp only at hdelete
    by_cases some : start < stop
    · rw [if_pos some] at hdelete
      cases hcall : StringBuilder.delete characters start stop with
      | error x => rw [hcall] at hdelete; cases hdelete
      | ok cs => rw [hcall] at hdelete; cases hdelete; exact ⟨cs, rfl⟩
    · rw [if_neg some] at hdelete
      cases hdelete
      exact ⟨_, rfl⟩
  | area content =>
    by_cases order : stop < start
    · unfold Content.delete TextAreaContent.delete at hdelete
      dsimp only at hdelete
      rw [if_pos order] at hdelete
      cases hdelete
    · by_cases outside : start < 0 ∨ content.contentLength < stop
      · unfold Content.delete TextAreaContent.delete at hdelete
        dsimp only at hdelete
        rw [if_neg order, if_pos outside] at hdelete
        cases hdelete
      · have hlength := TextAreaContent.Refines.length h
        obtain ⟨n, rfl⟩ : ∃ n : Nat, start = n := ⟨start.toNat, by omega⟩
        obtain ⟨m, rfl⟩ : ∃ m : Nat, stop = m := ⟨stop.toNat, by omega⟩
        obtain ⟨c'', hcall, holds, -⟩ := h.delete (by omega : n ≤ m) (by omega)
        rw [hcall] at hdelete
        cases hdelete
        exact ⟨_, holds⟩

theorem insert_nil (hinsert : c.insert start [] = .ok (c', told)) : c' = c ∧ told = false := by
  cases c with
  | field characters =>
    have hfilter : filterInput [] true true = [] := rfl
    simp only [Content.insert, hfilter, ne_eq, not_true_eq_false, if_false] at hinsert
    cases hinsert
    exact ⟨rfl, rfl⟩
  | area content =>
    have hfilter : filterInput [] false false = [] := rfl
    unfold Content.insert TextAreaContent.insert at hinsert
    dsimp only at hinsert
    by_cases outside : start < 0 ∨ content.contentLength < start
    · rw [if_pos outside] at hinsert
      cases hinsert
    · rw [if_neg outside, hfilter, if_neg (by simp)] at hinsert
      cases hinsert
      exact ⟨rfl, rfl⟩

theorem delete_empty (hdelete : c.delete start start = .ok (c', told)) : c' = c ∧ told = false := by
  cases c with
  | field characters =>
    unfold Content.delete at hdelete
    dsimp only at hdelete
    rw [if_neg (by omega)] at hdelete
    cases hdelete
    exact ⟨rfl, rfl⟩
  | area content =>
    unfold Content.delete TextAreaContent.delete at hdelete
    dsimp only at hdelete
    by_cases outside : start < 0 ∨ content.contentLength < start
    · rw [if_neg (by omega), if_pos outside] at hdelete
      cases hdelete
    · rw [if_neg (by omega), if_neg outside, if_neg (by omega)] at hdelete
      cases hdelete
      exact ⟨rfl, by simp⟩

end Kept

end Content
end OpenJfx.Controls
