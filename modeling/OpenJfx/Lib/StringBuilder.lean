import OpenJfx.Lib.Java
import Mathlib.Data.List.Basic

/-! # `java.lang.StringBuilder`, and lines with their ends

A builder is the list of its characters; the operations check their arguments
as the class does. -/
set_option autoImplicit false
namespace OpenJfx.Lib

namespace StringBuilder
variable {α : Type}

def charAt (s : List α) (index : Int) : Except Exn α :=
  match index with
  | .ofNat i => match s[i]? with
      | some c => .ok c
      | none => .error .indexOutOfBounds
  | .negSucc _ => .error .indexOutOfBounds

def insert (s : List α) (offset : Int) (text : List α) : Except Exn (List α) :=
  if offset < 0 ∨ s.length < offset then .error .indexOutOfBounds
  else .ok (s.take offset.toNat ++ text ++ s.drop offset.toNat)

/-- An end behind the last character means the last character. -/
def delete (s : List α) (start stop : Int) : Except Exn (List α) :=
  let stop := min stop s.length
  if start < 0 ∨ stop < start then .error .indexOutOfBounds
  else .ok (s.take start.toNat ++ s.drop stop.toNat)

def subSequence (s : List α) (start stop : Int) : Except Exn (List α) :=
  if start < 0 ∨ stop < start ∨ s.length < stop then .error .indexOutOfBounds
  else .ok ((s.take stop.toNat).drop start.toNat)

section Split
variable {a b c : List α} {i j : Int}

theorem charAt_split {x : α} (hi : i = a.length) : charAt (a ++ x :: b) i = .ok x := by
  subst hi
  show charAt _ (.ofNat a.length) = _
  simp [charAt]

theorem insert_split (text : List α) (hi : i = a.length) :
    insert (a ++ b) i text = .ok (a ++ text ++ b) := by
  subst hi
  rw [insert, if_neg (by simp only [List.length_append]; omega)]
  simp

theorem delete_split (hi : i = a.length) (hj : j = a.length + b.length) :
    delete (a ++ (b ++ c)) i j = .ok (a ++ c) := by
  have hmin : min j ((a ++ (b ++ c)).length : Int) = j := by
    simp only [List.length_append]
    omega
  have hdrop : (a ++ (b ++ c)).drop (a.length + b.length) = c := by
    rw [← List.drop_drop, List.drop_left' rfl, List.drop_left' rfl]
  have hto : j.toNat = a.length + b.length := by omega
  rw [delete, hmin, if_neg (by omega), hto, hdrop, hi]
  simp

theorem subSequence_split (hi : i = a.length) (hj : j = a.length + b.length) :
    subSequence (a ++ (b ++ c)) i j = .ok b := by
  have hto : j.toNat = a.length + b.length := by omega
  rw [subSequence, if_neg (by simp only [List.length_append]; omega), hto, hi]
  rw [← List.append_assoc, List.take_left' (by simp)]
  simp

end Split

end StringBuilder
/-! ## Lines

A list of lines as one text in which every line, the last one included, is
followed by the separator.  Unlike the text joined by separators this is a
homomorphism of lists. -/

section Lines
variable {α : Type} (sep : α)

def ended (ls : List (List α)) : List α := ls.flatMap (fun l => l ++ [sep])

@[simp] theorem ended_nil : ended sep [] = [] := rfl

@[simp] theorem ended_cons (l : List α) (ls : List (List α)) :
    ended sep (l :: ls) = l ++ sep :: ended sep ls := by
  simp [ended]

@[simp] theorem ended_append (as bs : List (List α)) :
    ended sep (as ++ bs) = ended sep as ++ ended sep bs := by
  simp [ended]

theorem ended_eq_intercalate {ls : List (List α)} (h : ls ≠ []) :
    ended sep ls = [sep].intercalate ls ++ [sep] := by
  induction ls with
  | nil => exact absurd rfl h
  | cons l ls ih =>
    cases ls with
    | nil => simp [List.intercalate]
    | cons l' ls =>
      rw [ended_cons, ih (List.cons_ne_nil _ _)]
      simp [List.intercalate]

theorem exists_line {ls : List (List α)} {i : Nat} (h : i < (ended sep ls).length) :
    ∃ (as : List (List α)) (l : List α) (bs : List (List α)), ls = as ++ l :: bs ∧ (ended sep as).length ≤ i ∧ i ≤ (ended sep as).length + l.length := by
  induction ls generalizing i with
  | nil => simp at h
  | cons l ls ih =>
    by_cases here : i ≤ l.length
    · exact ⟨[], l, ls, rfl, by simp, by simpa using here⟩
    · simp only [ended_cons, List.length_append, List.length_cons] at h
      obtain ⟨as, l', bs, rfl, hlow, hhigh⟩ := ih (i := i - (l.length + 1)) (by omega)
      refine ⟨l :: as, l', bs, rfl, ?_, ?_⟩
      · simp only [ended_cons, List.length_append, List.length_cons]
        omega
      · simp only [ended_cons, List.length_append, List.length_cons]
        omega

end Lines

end OpenJfx.Lib
