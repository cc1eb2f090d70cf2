/-! Half-open device rectangles.
A rectangle stands for the points `(x, y)` with `x0 ≤ x < x1` and `y0 ≤ y < y1`; corners in
the wrong order make it empty. Edges computed from a size stop at the largest coordinate. -/
namespace Scanline

def coordMin : Int := -2147483648

def coordMax : Int := 2147483647

structure Rect where
  x0 : Int
  y0 : Int
  x1 : Int
  y1 : Int
  deriving DecidableEq, Repr

namespace Rect

def empty : Rect := ⟨0, 0, 0, 0⟩

/-- The widest rectangle that device coordinates can name. -/
def everywhere : Rect := ⟨coordMin, coordMin, coordMax, coordMax⟩

def ofSize (x y : Int) (width height : Nat) : Rect :=
  ⟨x, y, min (x + width) coordMax, min (y + height) coordMax⟩

instance : Membership (Int × Int) Rect where
  mem r p := r.x0 ≤ p.1 ∧ p.1 < r.x1 ∧ r.y0 ≤ p.2 ∧ p.2 < r.y1

instance (p : Int × Int) (r : Rect) : Decidable (p ∈ r) :=
  inferInstanceAs (Decidable (_ ∧ _ ∧ _ ∧ _))

theorem mem_iff {r : Rect} {x y : Int} :
    (x, y) ∈ r ↔ r.x0 ≤ x ∧ x < r.x1 ∧ r.y0 ≤ y ∧ y < r.y1 := Iff.rfl

def IsEmpty (r : Rect) : Prop := r.x1 ≤ r.x0 ∨ r.y1 ≤ r.y0

instance (r : Rect) : Decidable r.IsEmpty := inferInstanceAs (Decidable (_ ∨ _))

def width (r : Rect) : Nat := if r.IsEmpty then 0 else (r.x1 - r.x0).toNat

def height (r : Rect) : Nat := if r.IsEmpty then 0 else (r.y1 - r.y0).toNat

/-- The common part of two rectangles. When there is none, the corners are out of order. -/
def crop (r s : Rect) : Rect :=
  ⟨max r.x0 s.x0, max r.y0 s.y0, min r.x1 s.x1, min r.y1 s.y1⟩

def clip (r s : Rect) : Bool × Rect := (decide (¬ (r.crop s).IsEmpty), r.crop s)

/-- As `crop`, with one value for all empty results. -/
def inter (r s : Rect) : Rect := if (r.crop s).IsEmpty then empty else r.crop s

def Covers (r s : Rect) : Prop :=
  s.IsEmpty ∨ (r.x0 ≤ s.x0 ∧ r.y0 ≤ s.y0 ∧ s.x1 ≤ r.x1 ∧ s.y1 ≤ r.y1)

instance (r s : Rect) : Decidable (r.Covers s) := inferInstanceAs (Decidable (_ ∨ _))

def describe (r : Rect) : String :=
  "IRect \x7b x0: " ++ toString r.x0 ++ ", y0: " ++ toString r.y0 ++
    ", x1: " ++ toString r.x1 ++ ", y1: " ++ toString r.y1 ++ " \x7d"

end Rect

end Scanline
