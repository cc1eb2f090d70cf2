import Scanline.Painter.Flat
import Scanline.Painter.Source
/-! Strokes: what is painted on a row, where it starts and how many pixels it has.
A row that does not reach the start of a stroke is a fault, also where the stroke would be
refused. -/
namespace Scanline

inductive Brush where
  | fill (color : List UInt8)
  | tint (color mask : List UInt8)
  | overlay (layer : Opacity) (srcAlpha : Bool) (src : List UInt8)
  | masked (srcAlpha : Bool) (src mask : List UInt8)
  deriving DecidableEq, Repr

structure Stroke where
  families : FamilySet
  shape : Shape
  brush : Brush
  start : Nat
  count : Nat
  deriving DecidableEq, Repr

namespace Stroke

def painter (s : Stroke) : Except Failure (Family × (List UInt8 → Option (List UInt8))) :=
  match s.brush with
  | .fill color => do
    let p ← s.families.fillPainter s.shape color
    return (p.family, fun row => p.fill row s.count)
  | .tint color mask => do
    let p ← s.families.tintPainter s.shape color
    return (p.family, fun row => p.tint row mask s.count)
  | .overlay layer srcAlpha src => do
    let p ← (s.families.overlayPainter s.shape.colors s.shape.alpha srcAlpha).mapError .refused
    return (p.family, fun row => p.overlay layer row src s.count)
  | .masked srcAlpha src mask => do
    let p ← (s.families.maskPainter s.shape.colors s.shape.alpha srcAlpha).mapError .refused
    return (p.family, fun row => p.masked row src mask s.count)

def paint (s : Stroke) (row : List UInt8) : Except Failure (Family × List UInt8) :=
  if row.length < s.start then .error (.faulted .overrun)
  else do
    let (family, paint) ← s.painter
    let painted ← Failure.orOverrun (paint (row.drop s.start))
    return (family, row.take s.start ++ painted)

/-- The row behind a sequence of strokes. A stroke that is refused leaves it as it is, and
behind a fault there is none. -/
def paintAll (row : List UInt8) : List Stroke → Except Fault (List UInt8)
  | [] => .ok row
  | s :: strokes =>
    match s.paint row with
    | .ok (_, out) => paintAll out strokes
    | .error (.refused _) => paintAll row strokes
    | .error (.faulted fault) => .error fault

end Stroke

end Scanline
