import Scanline.Painter.Flat
import Scanline.Glyph.Basic
import Scanline.Pixmap.Basic
/-! Glyphs on pixmaps. A pixmap without colour gathers coverage; any other one takes in a
colour by it, with solid spans as fills and coverage as a tint. -/
namespace Scanline

/-- Coverage that meets coverage: the first paint of a column is kept as it is, and later
ones draw it toward full. -/
def deposit (cover old : UInt8) : UInt8 :=
  if old = coverNone then cover else Sample.lerp coverFull old (Weight.ofByte cover)

namespace Span

def mark (s : Span) (row : List UInt8) : Option (List UInt8) :=
  match s with
  | .transparent _ => some row
  | .solid count => if row.length = count then some (List.replicate count coverFull) else none
  | .coverage bytes =>
    if row.length = bytes.length then some (List.zipWith deposit bytes row) else none

def markAll : List Span → List UInt8 → Option (List UInt8)
  | [], row => some row
  | s :: spans, row => do
    let front ← s.mark (row.take s.length)
    let back ← markAll spans (row.drop s.length)
    return front ++ back

def paint (fill tint : FlatPainter) (s : Span) (row : List UInt8) : Option (List UInt8) :=
  match s with
  | .transparent _ => some row
  | .solid count => fill.fill row count
  | .coverage bytes => tint.tint row bytes bytes.length

def paintAll (fill tint : FlatPainter) (size : Nat) :
    List Span → List UInt8 → Option (List UInt8)
  | [], row => some row
  | s :: spans, row => do
    let painted ← s.paint fill tint row
    let back ← paintAll fill tint size spans (painted.drop (s.length * size))
    return painted.take (s.length * size) ++ back

end Span

structure Window where
  width : Nat
  height : Nat
  skipX : Nat
  skipY : Nat
  deriving DecidableEq, Repr

namespace Window

def Fits (w : Window) (g : Glyph) : Prop :=
  w.skipX + w.width ≤ g.width ∧ w.skipY + w.height ≤ g.height

instance (w : Window) (g : Glyph) : Decidable (w.Fits g) := inferInstanceAs (Decidable (_ ∧ _))

/-- One more than the largest size of a region. -/
def sizeModulus : Nat := 4294967296

/-- The device pixels of a window at `(x, y)`, its size taken modulo `sizeModulus`. -/
def region (w : Window) (x y : Int) : Rect :=
  .ofSize x y (w.width % sizeModulus) (w.height % sizeModulus)

end Window

namespace Pixmap

/-- Paints a window of a glyph with its top left corner at `(x, y)`. A pixmap without colour
ignores `color`; elsewhere a colour without opacity paints nothing. -/
def stamp (families : FamilySet) (dst : Pixmap) (glyph : Glyph) (color : List UInt8)
    (x y : Int) (window : Window) : Except Failure Pixmap :=
  let region := window.region x y
  let spans r := (glyph.reader (window.skipY + r) window.skipX window.width).spans
  let edit paint := Failure.orOverrun (dst.editRows? x y window.width window.height paint)
  if ¬ window.Fits glyph then
    .error (.refused (.badGlyph (.window window.width window.height window.skipX window.skipY
      glyph.width glyph.height)))
  else if ¬ dst.bounds.Covers region then
    .error (.refused (.badGlyph (.outside region dst.bounds)))
  else if region.IsEmpty then .ok dst
  else if dst.layout.colors = 0 then edit fun r => Span.markAll (spans r)
  else
    match families.fillPainter dst.layout.shape color,
        families.tintPainter dst.layout.shape color with
    | .error failure, _ | _, .error failure => .error failure
    | .ok fill, .ok tint =>
      if color[dst.layout.colors]? = some 0 then .ok dst
      else edit fun r => Span.paintAll fill tint dst.layout.channels (spans r)

end Pixmap

end Scanline
