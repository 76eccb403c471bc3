import OpenJfx.Css.SimpleSelector

/-! # `javafx.css.CompoundSelector`

A compound selector is matched from its last part to its first one, along the
chain of an element and its ancestors.  `applies` tries every ancestor for a
descendant combinator; `stateMatches` goes on from the nearest ancestor to which
the part applies. -/
set_option autoImplicit false
namespace OpenJfx.Css
open OpenJfx.Lib OpenJfx.Lib.WordSet

inductive Combinator where
  | child
  | descendant
deriving DecidableEq, Repr

structure CompoundSelector where
  selectors : List SimpleSelector
  relationships : List Combinator
deriving DecidableEq

namespace CompoundSelector

/-- The loop over the ancestors of a styleable: `answer` is asked for each chain
that starts at one of them. -/
def anyAncestor (answer : List Styleable → Except Exn Bool) : List Styleable → Except Exn Bool
  | [] => .ok false
  | parent :: rest =>
      match answer (parent :: rest) with
      | .error e => .error e
      | .ok true => .ok true
      | .ok false => anyAncestor answer rest

/-- The recursive `applies` without trigger states; the chain starts with the
styleable. -/
def appliesAt (n : Names) (c : CompoundSelector) : Nat → List Styleable → Except Exn Bool
  | _, [] => .error .nullPointer
  | 0, styleable :: _ =>
      match c.selectors[0]? with
      | none => .error .indexOutOfBounds
      | some s => s.applies n styleable
  | index + 1, styleable :: ancestors =>
      match c.selectors[index + 1]? with
      | none => .error .indexOutOfBounds
      | some s =>
          match s.applies n styleable with
          | .error e => .error e
          | .ok false => .ok false
          | .ok true =>
              match c.relationships[index]? with
              | none => .error .indexOutOfBounds
              | some .child =>
                  match ancestors with
                  | [] => .ok false
                  | parent :: rest => appliesAt n c index (parent :: rest)
              | some .descendant => anyAncestor (fun chain => appliesAt n c index chain) ancestors

/-- `applies(styleable)`; without parts the index is negative. -/
def applies (n : Names) (c : CompoundSelector) (chain : List Styleable) : Except Exn Bool :=
  match c.selectors.length with
  | 0 => .ok false
  | last + 1 => appliesAt n c last chain

/-- The nearest ancestor to which a part applies, with the ancestors behind it. -/
def nearest (applies : Styleable → Except Exn Bool) : List Styleable → Except Exn (List Styleable)
  | [] => .ok []
  | parent :: rest =>
      match applies parent with
      | .error e => .error e
      | .ok true => .ok (parent :: rest)
      | .ok false => nearest applies rest

def stateMatchesAt (n : Names) (c : CompoundSelector) :
    Nat → List Styleable → Option (List Long) → Except Exn Bool
  | 0, _, states =>
      match c.selectors[0]? with
      | none => .error .indexOutOfBounds
      | some s => .ok (s.stateMatches states)
  | index + 1, chain, states =>
      match c.selectors[index + 1]? with
      | none => .error .indexOutOfBounds
      | some s =>
          if !s.stateMatches states then .ok false
          else
            match c.relationships[index]?, c.selectors[index]? with
            | none, _ => .error .indexOutOfBounds
            | some _, none => .error .indexOutOfBounds
            | some .child, some left =>
                match chain.tail with
                | [] => .ok false
                | parent :: rest =>
                    match left.applies n parent with
                    | .error e => .error e
                    | .ok false => .ok false
                    | .ok true => stateMatchesAt n c index (parent :: rest) (some parent.pseudoClassStates)
            | some .descendant, some left =>
                match nearest (left.applies n) chain.tail with
                | .error e => .error e
                | .ok [] => .ok false
                | .ok (parent :: rest) =>
                    stateMatchesAt n c index (parent :: rest) (some parent.pseudoClassStates)

def stateMatches (n : Names) (c : CompoundSelector) (chain : List Styleable) (states : Option (List Long)) :
    Except Exn Bool :=
  match c.selectors.length with
  | 0 => .ok false
  | last + 1 => stateMatchesAt n c last chain states

end CompoundSelector

/-- `javafx.css.Selector`. -/
inductive Selector where
  | simple (s : SimpleSelector)
  | compound (c : CompoundSelector)
deriving DecidableEq

namespace Selector

def simpleSelectors : Selector → List SimpleSelector
  | .simple s => [s]
  | .compound c => c.selectors

end Selector

end OpenJfx.Css
