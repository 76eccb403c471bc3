import OpenJfx.Css.BitSetEquality
import OpenJfx.Lib.Java

/-! # `javafx.css.SimpleSelector`

A simple selector has a type name, an id, style classes, pseudo-classes and an
orientation.  Its two sets are only ever added to, so their arrays have no zero
word at the end.  Style-class and pseudo-class names go into the tables of their
sets when they are first met; a blank name is refused there. -/
set_option autoImplicit false
namespace OpenJfx.Css
open OpenJfx.Lib OpenJfx.Lib.WordSet

inductive NodeOrientation where
  | leftToRight
  | rightToLeft
  | inherit
deriving DecidableEq, Repr

/-- `s.trim().isEmpty()`. -/
def isBlank (s : String) : Bool := s.toList.all (fun c => decide (c.val ≤ 32))

/-- The loop that adds the names of a list to a set, without null and empty ones. -/
def addNames : Registry → List (Option String) → List Long → Except Exn (Registry × List Long)
  | r, [], bits => .ok (r, bits)
  | r, none :: rest, bits => addNames r rest bits
  | r, some t :: rest, bits =>
      if t = "" then addNames r rest bits
      else if isBlank t then .error .illegalArgument
      else addNames (r.register t) rest (BitSet.add (r.register t) false (some t) bits).bits

/-! ## What the loops add -/

theorem addNames_ok_iff {names : List (Option String)} {r : Registry} {bits : List Long} :
    (∃ result, addNames r names bits = .ok result) ↔ ∀ y, some y ∈ names → y ≠ "" → isBlank y = false := by
  induction names generalizing r bits with
  | nil => exact ⟨fun _ _ h => (nomatch h), fun _ => ⟨(r, bits), rfl⟩⟩
  | cons name rest ih =>
    cases name with
    | none =>
      rw [addNames, ih]
      simp
    | some t =>
      rw [addNames]
      split
      · rename_i hempty
        rw [ih]
        constructor
        · intro h y hy hne
          rw [List.mem_cons, Option.some.injEq, hempty] at hy
          exact h y (hy.resolve_left hne) hne
        · exact fun h y hy => h y (List.mem_cons_of_mem _ hy)
      · rename_i hne
        split
        · rename_i hblank
          constructor
          · rintro ⟨result, hresult⟩
            cases hresult
          · intro h
            rw [h t (List.mem_cons_self ..) hne] at hblank
            cases hblank
        · rename_i hblank
          rw [ih]
          constructor
          · intro h y hy hyne
            rw [List.mem_cons, Option.some.injEq] at hy
            rcases hy with rfl | hy
            · exact Bool.eq_false_iff.mpr hblank
            · exact h y hy hyne
          · exact fun h y hy => h y (List.mem_cons_of_mem _ hy)

/-! ## The selector -/

structure SimpleSelector where
  name : String
  styleClassSet : List Long
  pseudoClassState : List Long
  nodeOrientation : NodeOrientation
  id : String
  styleClassesTrimmed : Trimmed styleClassSet
  pseudoClassesTrimmed : Trimmed pseudoClassState
deriving DecidableEq

structure Names where
  styleClasses : Registry
  pseudoClasses : Registry

namespace SimpleSelector

def matchOnName (s : SimpleSelector) : Bool := s.name ≠ "" && s.name ≠ "*"

def matchOnId (s : SimpleSelector) : Bool := s.id ≠ ""

def matchOnStyleClass (s : SimpleSelector) : Bool := decide (BitSet.size s.styleClassSet > 0)

end SimpleSelector

/-! ## Matching -/

/-- What selectors ask of a `Styleable`.  `orientation` holds the orientation and
the effective orientation of a `Node`. -/
structure Styleable where
  id : Option String
  typeSelector : Option String
  styleClass : List (Option String)
  pseudoClassStates : List Long
  orientation : Option (NodeOrientation × NodeOrientation)
deriving DecidableEq, Repr

namespace SimpleSelector

/-- `:dir()` asks for the orientation of a node, or the one it inherits. -/
def orientationMatches (s : SimpleSelector) (styleable : Styleable) : Bool :=
  match styleable.orientation with
  | none => true
  | some (orientation, effective) =>
      if s.nodeOrientation = .inherit then true
      else if orientation = .inherit then decide (effective = s.nodeOrientation)
      else decide (orientation = s.nodeOrientation)

def matchStyleClasses (s : SimpleSelector) (otherStyleClasses : List Long) : Bool :=
  BitSet.containsAll (some s.styleClassSet) otherStyleClasses

/-- The names that a call registers get indices behind those of all selectors, so
calls do not depend on each other. -/
def applies (n : Names) (s : SimpleSelector) (styleable : Styleable) : Except Exn Bool :=
  if !s.orientationMatches styleable then .ok false
  else if s.matchOnId && !decide (styleable.id = some s.id) then .ok false
  else if s.matchOnName && !decide (styleable.typeSelector = some s.name) then .ok false
  else if s.matchOnStyleClass then
    match addNames n.styleClasses styleable.styleClass [] with
    | .error e => .error e
    | .ok (_, otherStyleClassSet) => .ok (s.matchStyleClasses otherStyleClassSet)
  else .ok true

def stateMatches (s : SimpleSelector) (states : Option (List Long)) : Bool :=
  match states with
  | none => false
  | some states => BitSet.containsAll (some s.pseudoClassState) states

theorem applies_returns (n : Names) (s : SimpleSelector) {e : Styleable}
    (h : ∀ y, some y ∈ e.styleClass → y ≠ "" → isBlank y = false) : ∃ b, s.applies n e = .ok b := by
  obtain ⟨⟨r, bits⟩, hok⟩ := (@addNames_ok_iff _ n.styleClasses []).mpr h
  rw [applies, hok]
  split
  · exact ⟨_, rfl⟩
  · split
    · exact ⟨_, rfl⟩
    · split
      · exact ⟨_, rfl⟩
      · split
        · exact ⟨_, rfl⟩
        · exact ⟨_, rfl⟩

end SimpleSelector

end OpenJfx.Css
