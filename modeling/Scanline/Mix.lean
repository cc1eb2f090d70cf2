import Scanline.Weight
/-! How one pixel takes in another.
A `Mix` is the same for all samples of a pixel. It is chosen from what weighs the source:
the opacity of a layer, the coverage of a mask or a plain weight. -/
namespace Scanline

inductive Mix where
  | keep
  | copy
  | lerp (w : Int)
  | overlay (t : Int)
  | sum (source below : Int)
  deriving DecidableEq, Repr

namespace Mix

def sample : Mix → UInt8 → UInt8 → UInt8
  | .keep, _, dst => dst
  | .copy, src, _ => src
  | .lerp w, src, dst => Sample.lerp src dst w
  | .overlay t, src, dst => Sample.overlay src dst t
  | .sum source below, src, dst => Sample.sum src source dst below

def toward (w : Int) : Mix :=
  if w = 0 then .keep else if w = Weight.full then .copy else .lerp w

/-- A source pixel in a layer of opacity `layer`. A solid layer composes premultiplied
samples; any other layer is a blend toward the source. -/
def ofLayer (layer : UInt8) (srcAlpha : Option UInt8) : Mix :=
  if Weight.ofByte layer = Weight.full then
    let e := srcAlpha.elim Weight.full Weight.ofByte
    if e = 0 then .keep else if Weight.full - e = 0 then .copy else .overlay (Weight.full - e)
  else
    let w := srcAlpha.elim (layer.toNat : Int) fun a => Weight.scale a.toNat (Weight.ofByte layer)
    if w = 0 then .keep else .lerp w

/-- A source pixel under the coverage `m`. Partial coverage scales a source with alpha, and
what lies below it by the rest of that alpha. -/
def ofCoverage (m : UInt8) (srcAlpha : Option UInt8) : Mix :=
  let w := Weight.ofByte m
  if w = 0 then .keep
  else if w = Weight.full then
    let below := srcAlpha.elim 0 (255 - ·)
    if below = 0 then .copy else .overlay (Weight.ofByte below)
  else
    match srcAlpha with
    | none => .lerp w
    | some a => .sum w (Weight.ofByte (UInt8.ofInt (255 - Weight.scale a.toNat w)))

end Mix

structure Shape where
  colors : Nat
  alpha : Bool
  deriving DecidableEq, Repr

namespace Shape

def size (s : Shape) : Nat := s.colors + s.alpha.toNat

def alpha? (s : Shape) (pixel : List UInt8) : Option UInt8 :=
  if s.alpha then pixel[s.colors]? else none

end Shape

namespace Mix

def apart (m : Mix) (colors : Nat) (src : List UInt8) (alpha : UInt8) (dst : List UInt8) :
    List UInt8 :=
  List.zipWith m.sample (src.take colors) (dst.take colors) ++
    (dst.drop colors).map (m.sample alpha)

def fitted (colors size : Nat) (src : List UInt8) : List UInt8 :=
  if src.length = size then src
  else src.take colors ++ List.replicate (size - colors) 255

def whole (m : Mix) (colors : Nat) (src dst : List UInt8) : List UInt8 :=
  List.zipWith m.sample (fitted colors dst.length src) dst

end Mix

end Scanline
