import Scanline.Mix
import Scanline.Failure
/-! Where the pixels of a pixmap lie in its buffer.
Rows follow each other from the top, `stride` bytes apart, and a row may be shorter than its
stride. The pixmap has a place in device space, which need not be the origin. -/
namespace Scanline

structure Layout where
  x : Int
  y : Int
  width : Nat
  height : Nat
  channels : Nat
  hasAlpha : Bool
  stride : Nat
  deriving DecidableEq, Repr

namespace Layout

def tight (x y : Int) (width height channels : Nat) (hasAlpha : Bool) : Layout :=
  ⟨x, y, width, height, channels, hasAlpha, width * channels⟩

def colors (l : Layout) : Nat := l.channels - l.hasAlpha.toNat

def shape (l : Layout) : Shape := ⟨l.colors, l.hasAlpha⟩

def bounds (l : Layout) : Rect := .ofSize l.x l.y l.width l.height

def rowBytes (l : Layout) : Nat := l.width * l.channels

/-- The bytes that hold every row; nothing is asked behind the last one. -/
def needed (l : Layout) : Nat :=
  if l.height = 0 then 0 else (l.height - 1) * l.stride + l.rowBytes

/-- The position of a device pixel, of which it is asserted that it lies in the bounds. A build
may leave that assertion out, but here it always counts: outside there is no position, and whoever
needs one faults. -/
def offset? (l : Layout) (x y : Int) : Option Nat :=
  if (x, y) ∈ l.bounds then
    some ((y - l.y).toNat * l.stride + (x - l.x).toNat * l.channels)
  else none

/-- Checks that a buffer of `length` bytes serves the layout. A row or a need past `sizeMax`
is a fault. -/
def check (l : Layout) (length : Nat) : Except Failure Unit :=
  if l.channels = 0 then .error (.refused (.badLayout .noChannels))
  else if sizeMax < l.rowBytes then .error (.faulted .oversize)
  else if l.stride < l.rowBytes then
    .error (.refused (.badLayout (.narrowStride l.stride l.rowBytes)))
  else if sizeMax < l.needed then .error (.faulted .oversize)
  else if length < l.needed then
    .error (.refused (.badLayout (.shortBuffer length l.needed)))
  else .ok ()

end Layout

end Scanline
