import Mathlib.Order.Lattice
import Mathlib.Order.Defs.LinearOrder
import Mathlib.Order.MinMax

/-! # `RectBounds`

Coordinates are compared and never computed with, so they come from any linear
order; a rectangle with a `NaN` coordinate is empty in the source and has no
counterpart here.  The two `z` coordinates of a rectangle are always equal. -/
set_option autoImplicit false
namespace OpenJfx.Geometry

structure RectBounds (F : Type) where
  minX : F
  minY : F
  maxX : F
  maxY : F
deriving DecidableEq, Repr

namespace RectBounds
variable {F : Type} [LinearOrder F]

def isEmpty (b : RectBounds F) : Bool := !(decide (b.minX ≤ b.maxX) && decide (b.minY ≤ b.maxY))

def intersects (b other : RectBounds F) : Bool :=
  if other.isEmpty || b.isEmpty then false
  else decide (b.minX ≤ other.maxX) && decide (b.minY ≤ other.maxY) &&
    decide (other.minX ≤ b.maxX) && decide (other.minY ≤ b.maxY)

def unionWith (b other : RectBounds F) : RectBounds F :=
  if other.isEmpty then b
  else if b.isEmpty then other
  else ⟨min b.minX other.minX, min b.minY other.minY, max b.maxX other.maxX, max b.maxY other.maxY⟩

/-- `deriveWithNewBounds`; `blank` is what `makeEmpty` sets. -/
def deriveWithNewBounds (blank other : RectBounds F) : RectBounds F :=
  if other.isEmpty then blank else other

structure Within (a b : RectBounds F) : Prop where
  minX : b.minX ≤ a.minX
  minY : b.minY ≤ a.minY
  maxX : a.maxX ≤ b.maxX
  maxY : a.maxY ≤ b.maxY

theorem Within.refl (a : RectBounds F) : Within a a := ⟨le_rfl, le_rfl, le_rfl, le_rfl⟩

theorem Within.trans {a b c : RectBounds F} (h : Within a b) (h' : Within b c) : Within a c :=
  ⟨h'.1.trans h.1, h'.2.trans h.2, h.3.trans h'.3, h.4.trans h'.4⟩

theorem isEmpty_eq_false {b : RectBounds F} : b.isEmpty = false ↔ b.minX ≤ b.maxX ∧ b.minY ≤ b.maxY := by
  simp [isEmpty]

theorem nonempty_of_within {a b : RectBounds F} (ha : a.isEmpty = false) (h : Within a b) :
    b.isEmpty = false := by
  rw [isEmpty_eq_false] at ha ⊢
  exact ⟨h.1.trans (ha.1.trans h.3), h.2.trans (ha.2.trans h.4)⟩

section Union
variable {a b : RectBounds F}

theorem within_unionWith_left : Within a (a.unionWith b) ∨ a.isEmpty = true := by
  unfold unionWith
  split
  · exact Or.inl (Within.refl a)
  · split
    · right; assumption
    · exact Or.inl ⟨min_le_left _ _, min_le_left _ _, le_max_left _ _, le_max_left _ _⟩

theorem within_unionWith_right : Within b (a.unionWith b) ∨ b.isEmpty = true := by
  unfold unionWith
  split
  · right; assumption
  · split
    · exact Or.inl (Within.refl b)
    · exact Or.inl ⟨min_le_right _ _, min_le_right _ _, le_max_right _ _, le_max_right _ _⟩

theorem union_spec (ha : a.isEmpty = false) (hb : b.isEmpty = false) :
    Within a (a.unionWith b) ∧ Within b (a.unionWith b) ∧ (a.unionWith b).isEmpty = false := by
  have left : Within a (a.unionWith b) := by
    rcases within_unionWith_left (a := a) (b := b) with h | h
    · exact h
    · rw [ha] at h; cases h
  have right : Within b (a.unionWith b) := by
    rcases within_unionWith_right (a := a) (b := b) with h | h
    · exact h
    · rw [hb] at h; cases h
  exact ⟨left, right, nonempty_of_within ha left⟩

end Union

end RectBounds
end OpenJfx.Geometry
