import Scanline.Failure
/-! Rows of bytes: parts of them, and walks over their whole pixels.
A walk ends at the last whole pixel; the bytes behind it stay as they are.
Nothing can be walked in pixels of no bytes or of too many, and no part may reach past the
end. -/
namespace Scanline.Row

def slice? (row : List UInt8) (start length : Nat) : Option (List UInt8) :=
  if start + length ≤ row.length then some ((row.drop start).take length) else none

def overwrite (row : List UInt8) (start : Nat) (bytes : List UInt8) : List UInt8 :=
  row.take start ++ bytes ++ row.drop (start + bytes.length)

def edit? (row : List UInt8) (start length : Nat)
    (paint : List UInt8 → Option (List UInt8)) : Option (List UInt8) := do
  let part ← slice? row start length
  let painted ← paint part
  return overwrite row start painted

/-- Pixels of this size can be walked. -/
def Walkable (size : Nat) : Prop := 0 < size ∧ size ≤ sizeMax

instance (size : Nat) : Decidable (Walkable size) := inferInstanceAs (Decidable (_ ∧ _))

def takePixels (size : Nat) : Nat → List UInt8 → List (List UInt8)
  | 0, _ => []
  | count + 1, row => row.take size :: takePixels size count (row.drop size)

def pixels? (size : Nat) (row : List UInt8) : Option (List (List UInt8)) :=
  if Walkable size then some (takePixels size (row.length / size) row) else none

/-- One operand for each pixel, as long as there are operands and whole pixels. -/
def zipPaint (size : Nat) (paint : α → List UInt8 → List UInt8) :
    List α → List UInt8 → List UInt8
  | [], row => row
  | a :: operands, row =>
    if row.length < size then row
    else paint a (row.take size) ++ zipPaint size paint operands (row.drop size)

def zipPaint? (size : Nat) (paint : α → List UInt8 → List UInt8) (operands : List α)
    (row : List UInt8) : Option (List UInt8) :=
  if Walkable size then some (zipPaint size paint operands row) else none

def mapPaint? (size count : Nat) (paint : List UInt8 → List UInt8) (row : List UInt8) :
    Option (List UInt8) :=
  zipPaint? size (fun () => paint) (List.replicate (min count (row.length / size)) ()) row

end Scanline.Row
