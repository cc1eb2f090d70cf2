import Scanline.Mix
import Scanline.Row
import Scanline.Painter.Select
/-! Painting a source row over a destination row, in a layer or through a coverage row.
Both rows have the same count of colour samples; either may have alpha behind them. -/
namespace Scanline

structure SourcePainter where
  family : Family
  colors : Nat
  dstAlpha : Bool
  srcAlpha : Bool
  deriving DecidableEq, Repr

namespace SourcePainter

def dst (p : SourcePainter) : Shape := ⟨p.colors, p.dstAlpha⟩

def src (p : SourcePainter) : Shape := ⟨p.colors, p.srcAlpha⟩

def pixel (p : SourcePainter) (m : Mix) (src dst : List UInt8) : List UInt8 :=
  match p.family with
  | .alphaOnly | .general => m.apart p.colors src ((p.src.alpha? src).getD 255) dst
  | .gray | .rgb | .cmyk => m.whole p.colors src dst

def overlay (p : SourcePainter) (layer : Opacity) (row src : List UInt8) (count : Nat) :
    Option (List UInt8) :=
  if layer = .clear then some row
  else do
    let pixels ← Row.pixels? p.src.size src
    Row.zipPaint? p.dst.size (fun s => p.pixel (.ofLayer layer.alpha (p.src.alpha? s)) s)
      (pixels.take count) row

/-- Composes a pixel for each byte of the mask. Only covered pixels have to be there, and a
source without samples is never used up. -/
def walk (p : SourcePainter) : (mask row src : List UInt8) → Option (List UInt8)
  | [], row, _ => some row
  | m :: mask, row, src =>
    let d := row.take p.dst.size
    let s := src.take p.src.size
    if m = 0 then (p.walk mask (row.drop p.dst.size) (src.drop p.src.size)).map (d ++ ·)
    else if d.length = p.dst.size ∧ s.length = p.src.size then
      (p.walk mask (row.drop p.dst.size) (src.drop p.src.size)).map
        (p.pixel (.ofCoverage m (p.src.alpha? s)) s d ++ ·)
    else none

def masked (p : SourcePainter) (row src mask : List UInt8) (count : Nat) :
    Option (List UInt8) :=
  match p.family with
  | .alphaOnly | .general => do
    let mask ← Row.slice? mask 0 count
    p.walk mask row src
  | .gray | .rgb | .cmyk => do
    let pixels ← Row.pixels? p.src.size src
    Row.zipPaint? p.dst.size
      (fun (s, m) => p.pixel (.ofCoverage m (p.src.alpha? s)) s) ((pixels.zip mask).take count) row

end SourcePainter

namespace FamilySet

def overlayPainter (s : FamilySet) (colors : Nat) (dstAlpha srcAlpha : Bool) :
    Except Refusal SourcePainter := do
  let family ← s.select .overlay colors (dstAlpha && srcAlpha)
  return ⟨family, colors, dstAlpha, srcAlpha⟩

def maskPainter (s : FamilySet) (colors : Nat) (dstAlpha srcAlpha : Bool) :
    Except Refusal SourcePainter := do
  let family ← s.select .masked colors dstAlpha
  return ⟨family, colors, dstAlpha, srcAlpha⟩

end FamilySet

end Scanline
