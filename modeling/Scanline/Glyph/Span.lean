/-! Spans of coverage along a row: none, full, or a byte for each column. -/
namespace Scanline

def coverNone : UInt8 := 0

def coverFull : UInt8 := 255

inductive Span where
  | transparent (count : Nat)
  | solid (count : Nat)
  | coverage (bytes : List UInt8)
  deriving DecidableEq, Repr

namespace Span

def length : Span → Nat
  | .transparent count | .solid count => count
  | .coverage bytes => bytes.length

def isEmpty (s : Span) : Bool := s.length == 0

def totalLength : List Span → Nat
  | [] => 0
  | s :: spans => s.length + totalLength spans

end Span

end Scanline
