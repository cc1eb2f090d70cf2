import Scanline.Rect
/-! The ways a call can end without a result.
A refusal is found before anything is written and says what is wrong with the operands.
A fault is a row or a slice outside its buffer, or a size that no buffer can have; what a
faulting call had painted is lost. -/
namespace Scanline

/-- The largest size of a value or a buffer. -/
def sizeMax : Nat := 18446744073709551615

inductive PainterKind where
  | fill
  | overlay
  | masked
  | tint
  deriving DecidableEq, Repr

def PainterKind.name : PainterKind → String
  | .fill => "solid-color"
  | .overlay => "span-over"
  | .masked => "span-mask"
  | .tint => "span-color"

inductive LayoutFlaw where
  | noChannels
  | narrowStride (stride rowBytes : Nat)
  | shortBuffer (length needed : Nat)
  deriving DecidableEq, Repr

def LayoutFlaw.message : LayoutFlaw → String
  | .noChannels => "pixmap has no channels"
  | .narrowStride stride rowBytes => s!"stride {stride} is less than row size {rowBytes}"
  | .shortBuffer length needed => s!"buffer holds {length} bytes, layout needs {needed}"

inductive GlyphFlaw where
  | rowCount (rows height : Nat)
  | rowOffset (offset length : Nat)
  | window (w h skipX skipY width height : Nat)
  | outside (region bounds : Rect)
  deriving DecidableEq, Repr

def GlyphFlaw.message : GlyphFlaw → String
  | .rowCount rows height => s!"{rows} row offsets for a glyph of height {height}"
  | .rowOffset offset length => s!"row offset {offset} outside a stream of {length} bytes"
  | .window w h skipX skipY width height =>
    s!"window {w}x{h} at ({skipX}, {skipY}) exceeds a {width}x{height} glyph"
  | .outside region bounds =>
    region.describe ++ " is outside the destination " ++ bounds.describe

inductive Refusal where
  | unserved (kind : PainterKind) (colors : Nat)
  | channelMismatch (dst src : Nat)
  | maskChannels (channels : Nat)
  | colorLength (expected actual : Nat)
  | badLayout (flaw : LayoutFlaw)
  | badGlyph (flaw : GlyphFlaw)
  deriving DecidableEq, Repr

def Refusal.message : Refusal → String
  | .unserved kind colors => "no " ++ kind.name ++ s!" painter for {colors} colour channels"
  | .channelMismatch dst src =>
    s!"channel count mismatch: destination has {dst}, source has {src}"
  | .maskChannels channels => s!"mask must have exactly one channel, got {channels}"
  | .colorLength expected actual => s!"colour value needs {expected} bytes, got {actual}"
  | .badLayout flaw => "invalid pixmap layout: " ++ flaw.message
  | .badGlyph flaw => "glyph region out of bounds: " ++ flaw.message

inductive Fault where
  | overrun
  | oversize
  | noRow (row height : Nat)
  deriving DecidableEq, Repr

def Fault.message? : Fault → Option String
  | .overrun | .oversize => none
  | .noRow row height => some s!"row {row} out of bounds (height={height})"

inductive Failure where
  | refused (refusal : Refusal)
  | faulted (fault : Fault)
  deriving DecidableEq, Repr

/-- A paint without a result has overrun its row. -/
def Failure.orOverrun : Option α → Except Failure α
  | some a => .ok a
  | none => .error (.faulted .overrun)

end Scanline
