import Scanline.Family
import Scanline.Failure
/-! Which family paints. A pixel without colour is paintable only where the operands leave
something to paint, and a colour value is its samples and an alpha byte. -/
namespace Scanline

/-- Selects a family; `alphaOnly` tells whether these operands can serve pixels without
colour. -/
def FamilySet.select (s : FamilySet) (kind : PainterKind) (colors : Nat) (alphaOnly : Bool) :
    Except Refusal Family :=
  match s.family? colors with
  | some .alphaOnly => if alphaOnly then .ok .alphaOnly else .error (.unserved kind colors)
  | some family => .ok family
  | none => .error (.unserved kind colors)

/-- As `select`, after the length of the colour value; bytes behind its alpha are ignored. No
colour value can have more than `sizeMax` bytes. -/
def FamilySet.selectColor (s : FamilySet) (kind : PainterKind) (colors : Nat)
    (color : List UInt8) (alphaOnly : Bool) : Except Failure Family :=
  if sizeMax < colors + 1 then .error (.faulted .oversize)
  else if color.length < colors + 1 then
    .error (.refused (.colorLength (colors + 1) color.length))
  else (s.select kind colors alphaOnly).mapError .refused

end Scanline
