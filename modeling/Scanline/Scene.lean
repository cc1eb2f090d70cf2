import Scanline.Pixmap.Overlay
import Scanline.Pixmap.Stamp
/-! Scenes: named pixmaps and glyphs, and steps that draw on one of the pixmaps.
The operands of a step are checked in the order destination, source, mask or glyph. They are
read as they are before the step, so a pixmap can be drawn over itself. -/
namespace Scanline

inductive Drawing where
  | overlay (src : String) (layer : UInt8) (clip : Rect)
  | overlayThrough (src mask : String)
  | stamp (glyph : String) (color : List UInt8) (x y : Int) (window : Window)
  deriving DecidableEq, Repr

structure Step where
  families : FamilySet
  dst : String
  drawing : Drawing
  deriving DecidableEq, Repr

structure Scene where
  pixmaps : String → Pixmap
  glyphs : String → Glyph

namespace Scene

/-- A name outside the lists stands for a pixmap without pixels or a glyph without rows. -/
def ofLists (pixmaps : List (String × Pixmap)) (glyphs : List (String × Glyph)) : Scene where
  pixmaps name := (pixmaps.lookup name).getD ⟨.tight 0 0 0 0 1 false, []⟩
  glyphs name := (glyphs.lookup name).getD ⟨0, 0, [], []⟩

def draw (s : Scene) (step : Step) : Except Failure Pixmap :=
  let dst := s.pixmaps step.dst
  do
    dst.check
    match step.drawing with
    | .overlay src layer clip =>
      (s.pixmaps src).check
      dst.overlay step.families (s.pixmaps src) layer clip
    | .overlayThrough src mask =>
      (s.pixmaps src).check
      (s.pixmaps mask).check
      dst.overlayThrough step.families (s.pixmaps src) (s.pixmaps mask)
    | .stamp glyph color x y window =>
      (s.glyphs glyph).check.mapError .refused
      dst.stamp step.families (s.glyphs glyph) color x y window

def put (s : Scene) (name : String) (p : Pixmap) : Scene :=
  { s with pixmaps := fun other => if other = name then p else s.pixmaps other }

def apply (s : Scene) (step : Step) : Except Failure Scene := do
  let p ← s.draw step
  return s.put step.dst p

def result (s : Scene) (step : Step) : Except Failure Unit := (s.apply step).map fun _ => ()

/-- What the steps of a sequence return, and the scene behind them. It goes on behind a refusal;
a fault is its last result. -/
def run (s : Scene) : List Step → List (Except Failure Unit) × Scene
  | [] => ([], s)
  | step :: steps =>
    match s.apply step with
    | .ok t => ((t.run steps).1.cons (.ok ()), (t.run steps).2)
    | .error (.refused refusal) =>
      ((s.run steps).1.cons (.error (.refused refusal)), (s.run steps).2)
    | .error (.faulted fault) => ([.error (.faulted fault)], s)

end Scene

end Scanline
