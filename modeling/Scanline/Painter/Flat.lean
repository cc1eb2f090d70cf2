import Scanline.Packed
import Scanline.Row
import Scanline.Painter.Select
/-! Painting one colour, either on every pixel or through a coverage row.
The colour is `colors` samples and an alpha byte. A destination with alpha takes in an
opaque colour by the weight of that byte; one without alpha is overwritten or blended. -/
namespace Scanline

structure FlatPainter where
  family : Family
  shape : Shape
  color : List UInt8
  deriving DecidableEq, Repr

namespace FlatPainter

/-- One pixel on its way to the colour. The specialised families treat a pixel as a whole,
and three samples with alpha as one word. -/
def pixel (p : FlatPainter) (m : Mix) (dst : List UInt8) : List UInt8 :=
  match p.family with
  | .alphaOnly | .general => m.apart p.shape.colors p.color 255 dst
  | .gray | .cmyk => m.whole p.shape.colors (p.color.take p.shape.colors) dst
  | .rgb =>
    match p.shape.alpha, p.color with
    | true, r :: g :: b :: _ => (Packed.ofColor r g b).paint m dst
    | _, _ => m.whole p.shape.colors (p.color.take p.shape.colors) dst

/-- An opaque fill of three-sample pixels, four at a time and then the rest one by one.
The row has to hold all of them. -/
def tile (rgb : List UInt8) (count : Nat) (row : List UInt8) : Option (List UInt8) := do
  let tiles := count / 4
  let part ← Row.slice? row 0 (count * 3)
  let front ← Row.mapPaint? 12 tiles (fun _ => rgb ++ rgb ++ rgb ++ rgb) (part.take (tiles * 12))
  let back ← Row.mapPaint? 3 (count - tiles * 4) (fun _ => rgb) (part.drop (tiles * 12))
  return Row.overwrite row 0 (front ++ back)

def fill (p : FlatPainter) (row : List UInt8) (count : Nat) : Option (List UInt8) := do
  let alpha ← p.color[p.shape.colors]?
  if p.shape.alpha then
    Row.mapPaint? p.shape.size count (p.pixel (.toward (Weight.ofByte alpha))) row
  else if alpha = 255 then
    if p.family = .rgb ∧ 8 ≤ count then tile (p.color.take 3) count row
    else Row.mapPaint? p.shape.size count (p.pixel .copy) row
  else Row.mapPaint? p.shape.size count (p.pixel (.lerp (Weight.ofByte alpha))) row

def weight (alpha m : UInt8) : Int :=
  if Weight.ofByte alpha = Weight.full then Weight.ofByte m
  else Weight.scale (Weight.ofByte m) (Weight.ofByte alpha)

def tint (p : FlatPainter) (row mask : List UInt8) (count : Nat) : Option (List UInt8) := do
  let alpha ← p.color[p.shape.colors]?
  Row.zipPaint? p.shape.size (fun m => p.pixel (.toward (weight alpha m))) (mask.take count) row

end FlatPainter

namespace FamilySet

def fillPainter (s : FamilySet) (shape : Shape) (color : List UInt8) :
    Except Failure FlatPainter := do
  let family ← s.selectColor .fill shape.colors color shape.alpha
  return ⟨family, shape, color⟩

def tintPainter (s : FamilySet) (shape : Shape) (color : List UInt8) :
    Except Failure FlatPainter := do
  let family ← s.selectColor .tint shape.colors color shape.alpha
  return ⟨family, shape, color⟩

end FamilySet

end Scanline
