/-! Fixed-point weights and the arithmetic of samples.
A byte of opacity becomes a weight between 0 and 256, so that 255 is an exact unit.
Every product is floored, also below zero, and a finished sample keeps its low eight bits. -/
namespace Scanline

namespace Weight

def full : Int := 256

/-- Bytes from 128 on gain one, which takes 255 to 256. -/
def ofByte (a : UInt8) : Int := (a.toNat + a.toNat / 128 : Nat)

def scale (x w : Int) : Int := x * w / 256

def lerp (src dst w : Int) : Int := dst + scale (src - dst) w

def sum (a wa b wb : Int) : Int := scale a wa + scale b wb

/-- The exact value of a premultiplied source on the share `t` of what lies below it. -/
def overlay (src dst t : Int) : Int := src + scale dst t

end Weight

namespace Sample

def lerp (src dst : UInt8) (w : Int) : UInt8 :=
  UInt8.ofInt (Weight.lerp src.toNat dst.toNat w)

def sum (a : UInt8) (wa : Int) (b : UInt8) (wb : Int) : UInt8 :=
  UInt8.ofInt (Weight.sum a.toNat wa b.toNat wb)

def overlay (src dst : UInt8) (t : Int) : UInt8 :=
  UInt8.ofInt (Weight.overlay src.toNat dst.toNat t)

end Sample

/-- The opacity of a whole layer, split where its weight is 0 or full. -/
inductive Opacity where
  | clear
  | partway (a : UInt8)
  | solid
  deriving DecidableEq, Repr

namespace Opacity

def ofByte (a : UInt8) : Opacity :=
  if a = 0 then .clear else if a = 255 then .solid else .partway a

def weight : Opacity → Int
  | .clear => 0
  | .partway a => Weight.ofByte a
  | .solid => Weight.full

def alpha : Opacity → UInt8
  | .clear => 0
  | .partway a => a
  | .solid => 255

def name : Opacity → String
  | .clear => "transparent"
  | .partway _ => "partial"
  | .solid => "opaque"

end Opacity

end Scanline
