import Scanline.Glyph.Basic
/-! The columns of a coded row, read straight off the table of runs.
This is what a row means, without headers taken apart, windows, positions or pending runs. -/
namespace Scanline

inductive Column where
  | transparent
  | solid
  | covered (a : UInt8)
  deriving DecidableEq, Repr

namespace Column

def coverage : Column → UInt8
  | .transparent => coverNone
  | .solid => coverFull
  | .covered a => a

/-- All columns of a row, told from the bits of its bytes alone. `high` is what an extend has left
for the length of the next run: a second extend replaces it, and a run uses it up. -/
def ofRow (high : Nat) : List UInt8 → List Column
  | [] => []
  | v :: bytes =>
    if v &&& 3 = 0 then ofRow (v >>> 2).toNat bytes
    else if v &&& 3 = 1 then
      List.replicate ((v >>> 2).toNat + 1 + (high <<< 6)) .transparent ++ ofRow 0 bytes
    else
      let length := (v >>> 3).toNat + 1 + (high <<< 5)
      if v &&& 3 = 2 then
        List.replicate length .solid ++ if v &&& 4 ≠ 0 then [] else ofRow 0 bytes
      else
        (bytes.take length).map .covered ++ if v &&& 4 ≠ 0 then [] else ofRow 0 (bytes.drop length)
termination_by bytes => bytes.length
decreasing_by all_goals simp only [List.length_cons, List.length_drop]; omega

end Column

def Span.columns : Span → List Column
  | .transparent count => List.replicate count .transparent
  | .solid count => List.replicate count .solid
  | .coverage bytes => bytes.map .covered

def Glyph.coverage (g : Glyph) (y x : Nat) : UInt8 :=
  ((g.row? y).bind fun row => (Column.ofRow 0 row)[x]?).elim coverNone Column.coverage

end Scanline
