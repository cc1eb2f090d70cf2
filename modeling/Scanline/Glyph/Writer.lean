import Scanline.Glyph.Run
/-! Writing spans in the run-length code.
A length less one has its low part in the header of the run. Its high part, unless it is 0,
goes before that into an extend. -/
namespace Scanline

def Header.toByte : Header → UInt8
  | .extend high => UInt8.ofNat (high * 4)
  | .transparent low => UInt8.ofNat (low * 4 + 1)
  | .solid low last => UInt8.ofNat (low * 8 + last.toNat * 4 + 2)
  | .mixed low last => UInt8.ofNat (low * 8 + last.toNat * 4 + 3)

namespace Span

def extend (high : Nat) : List UInt8 :=
  if high = 0 then [] else [(Header.extend high).toByte]

def Writable : Span → Prop
  | .transparent count => 1 ≤ count ∧ count ≤ 4096
  | .solid count => 1 ≤ count ∧ count ≤ 2048
  | .coverage bytes => 1 ≤ bytes.length ∧ bytes.length ≤ 2048

/-- A transparent run has no place for the mark of the last run. -/
def write (last : Bool) : Span → List UInt8
  | .transparent count =>
    extend ((count - 1) / 64) ++ [(Header.transparent ((count - 1) % 64)).toByte]
  | .solid count =>
    extend ((count - 1) / 32) ++ [(Header.solid ((count - 1) % 32) last).toByte]
  | .coverage bytes =>
    extend ((bytes.length - 1) / 32) ++
      [(Header.mixed ((bytes.length - 1) % 32) last).toByte] ++ bytes

def writeAll (last : Bool) : List Span → List UInt8
  | [] => []
  | [s] => s.write last
  | s :: spans => s.write false ++ writeAll last spans

end Span

end Scanline
