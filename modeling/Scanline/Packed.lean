import Scanline.Mix
/-! An opaque three-sample colour in one 32-bit word.
The samples and alpha lie in the word from the low byte up. Every other byte is spread into
a lane of sixteen bits, so that one product blends two samples; what a lane borrows or
carries cancels again modulo the word. -/
namespace Scanline

structure Packed where
  word : UInt32
  rb : UInt32
  ga : UInt32
  deriving DecidableEq, Repr

namespace Packed

def lanes : UInt32 := 0xFF00FF00

def ofBytes (a b c d : UInt8) : UInt32 :=
  a.toUInt32 ||| (b.toUInt32 <<< 8) ||| (c.toUInt32 <<< 16) ||| (d.toUInt32 <<< 24)

def toBytes (word : UInt32) : List UInt8 :=
  [word.toUInt8, (word >>> 8).toUInt8, (word >>> 16).toUInt8, (word >>> 24).toUInt8]

def ofColor (r g b : UInt8) : Packed :=
  let word := ofBytes r g b 255
  ⟨word, word &&& (lanes >>> 8), (word &&& lanes) >>> 8⟩

def lerp (c : Packed) (dst w : UInt32) : UInt32 :=
  let rb := (dst <<< 8) &&& lanes
  let ga := dst &&& lanes
  let rb := rb + (c.rb - (rb >>> 8)) * w
  let ga := ga + (c.ga - (ga >>> 8)) * w
  ((rb &&& lanes) >>> 8) ||| (ga &&& lanes)

def paint (c : Packed) (m : Mix) (dst : List UInt8) : List UInt8 :=
  match m, dst with
  | .copy, _ => toBytes c.word
  | .lerp w, [r, g, b, a] => toBytes (c.lerp (ofBytes r g b a) (UInt32.ofInt w))
  | _, _ => dst

end Packed

end Scanline
