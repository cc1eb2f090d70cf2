import Scanline.Failure
import Scanline.Glyph.Reader
/-! Glyphs: rows of coded coverage that share one stream of bytes.
A row is given by the position where its runs start, or by nothing when it is empty. -/
namespace Scanline

structure Glyph where
  width : Nat
  height : Nat
  rows : List (Option Nat)
  bytes : List UInt8
  deriving DecidableEq, Repr

namespace Glyph

def check (g : Glyph) : Except Refusal Unit :=
  if g.rows.length ≠ g.height then
    .error (.badGlyph (.rowCount g.rows.length g.height))
  else
    match (g.rows.filterMap id).find? (g.bytes.length ≤ ·) with
    | some offset => .error (.badGlyph (.rowOffset offset g.bytes.length))
    | none => .ok ()

/-- The bytes from the start of a row on; the rows behind it follow its own. -/
def row? (g : Glyph) (y : Nat) : Option (List UInt8) :=
  g.rows[y]?.join.map g.bytes.drop

def reader (g : Glyph) (y skip width : Nat) : RowReader :=
  match g.row? y with
  | some stream => .start stream skip width
  | none => .start [] skip 0

end Glyph

end Scanline
