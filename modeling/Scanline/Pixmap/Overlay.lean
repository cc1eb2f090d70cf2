import Scanline.Painter.Source
import Scanline.Pixmap.Basic
/-! Pixmaps over pixmaps. The operands meet in device space, and only the pixels that lie in
all of them and in the clip are painted. What the painters cannot serve is refused only
where there is something to paint. -/
namespace Scanline.Pixmap

def overlay (families : FamilySet) (dst src : Pixmap) (layer : UInt8) (clip : Rect) :
    Except Failure Pixmap :=
  let area := (dst.bounds.inter src.bounds).inter clip
  if dst.layout.colors ≠ src.layout.colors then
    .error (.refused (.channelMismatch dst.layout.colors src.layout.colors))
  else if area.IsEmpty then .ok dst
  else
    match families.overlayPainter dst.layout.colors dst.layout.hasAlpha src.layout.hasAlpha with
    | .error refusal => .error (.refused refusal)
    | .ok painter => Failure.orOverrun <|
      dst.editRows? area.x0 area.y0 area.width area.height fun r row => do
        let source ← src.span? area.x0 (area.y0 + r) area.width
        painter.overlay (.ofByte layer) row source area.width

def overlayThrough (families : FamilySet) (dst src mask : Pixmap) : Except Failure Pixmap :=
  let area := (dst.bounds.inter src.bounds).inter mask.bounds
  if dst.layout.channels ≠ src.layout.channels then
    .error (.refused (.channelMismatch dst.layout.channels src.layout.channels))
  else if dst.layout.hasAlpha ≠ src.layout.hasAlpha then
    .error (.refused (.channelMismatch dst.layout.colors src.layout.colors))
  else if mask.layout.channels ≠ 1 then
    .error (.refused (.maskChannels mask.layout.channels))
  else if area.IsEmpty then .ok dst
  else
    match families.maskPainter src.layout.colors dst.layout.hasAlpha src.layout.hasAlpha with
    | .error refusal => .error (.refused refusal)
    | .ok painter => Failure.orOverrun <|
      dst.editRows? area.x0 area.y0 area.width area.height fun r row => do
        let source ← src.span? area.x0 (area.y0 + r) area.width
        let coverage ← mask.span? area.x0 (area.y0 + r) area.width
        painter.masked row source coverage area.width

end Scanline.Pixmap
