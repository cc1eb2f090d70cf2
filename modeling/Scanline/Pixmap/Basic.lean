import Scanline.Row
import Scanline.Pixmap.Layout
/-! Pixmaps: a layout and the buffer it describes. -/
namespace Scanline

structure Pixmap where
  layout : Layout
  samples : List UInt8
  deriving DecidableEq, Repr

namespace Pixmap

def check (p : Pixmap) : Except Failure Unit := p.layout.check p.samples.length

def bounds (p : Pixmap) : Rect := p.layout.bounds

def part (p : Pixmap) (start length : Nat) : Except Fault (List UInt8) :=
  match Row.slice? p.samples start length with
  | some bytes => .ok bytes
  | none => .error .overrun

def row (p : Pixmap) (y : Nat) : Except Fault (List UInt8) :=
  if y < p.layout.height then p.part (y * p.layout.stride) p.layout.rowBytes
  else .error (.noRow y p.layout.height)

def pixel (p : Pixmap) (x y : Int) : Except Fault (List UInt8) :=
  match p.layout.offset? x y with
  | some start => p.part start p.layout.channels
  | none => .error .overrun

/-- Puts bytes over the start of a row. Those that do not fit into the row are dropped. -/
def writeRow (p : Pixmap) (y : Nat) (bytes : List UInt8) : Except Fault Pixmap := do
  let _ ← p.row y
  let samples := Row.overwrite p.samples (y * p.layout.stride) (bytes.take p.layout.rowBytes)
  return { p with samples }

def span? (p : Pixmap) (x y : Int) (width : Nat) : Option (List UInt8) := do
  let start ← p.layout.offset? x y
  Row.slice? p.samples start (width * p.layout.channels)

def editSpan? (p : Pixmap) (x y : Int) (width : Nat)
    (paint : List UInt8 → Option (List UInt8)) : Option Pixmap := do
  let start ← p.layout.offset? x y
  let samples ← Row.edit? p.samples start (width * p.layout.channels) paint
  return { p with samples }

/-- Repaints `width` pixels in each of `height` device rows, from the top down. The paint is
told how far below the top it is. -/
def editRows? (p : Pixmap) (x y : Int) (width height : Nat)
    (paint : Nat → List UInt8 → Option (List UInt8)) : Option Pixmap :=
  (List.range height).foldlM (fun p (r : Nat) => p.editSpan? x (y + r) width (paint r)) p

end Pixmap

end Scanline
