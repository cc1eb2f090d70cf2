import Scanline.Glyph.Span
/-! The run-length code of a coverage row.
A row is a sequence of runs, each with a one-byte header. The two low bits tell its kind:

* 0, extend: the upper six bits are the high part of the next run's length;
* 1, transparent: six bits of length less one, columns without coverage;
* 2, solid: five bits of length less one, columns of full coverage;
* 3, mixed: five bits of length less one, and that many bytes of coverage behind the header.

Bit 2 of a solid or mixed header marks the last run of the row. A row whose bytes run out
ends there, and keeps what it has of a mixed run. -/
namespace Scanline

inductive Header where
  | extend (high : Nat)
  | transparent (low : Nat)
  | solid (low : Nat) (last : Bool)
  | mixed (low : Nat) (last : Bool)
  deriving DecidableEq, Repr

def Header.ofByte (v : UInt8) : Header :=
  let v := v.toNat
  if v % 4 = 0 then .extend (v / 4)
  else if v % 4 = 1 then .transparent (v / 4)
  else if v % 4 = 2 then .solid (v / 8) (v / 4 % 2 == 1)
  else .mixed (v / 8) (v / 4 % 2 == 1)

inductive RunKind where
  | transparent
  | solid
  | mixed
  deriving DecidableEq, Repr

/-- A run as it stands in a stream: `start` is the position of its bytes of coverage. -/
structure Run where
  kind : RunKind
  length : Nat
  last : Bool
  start : Nat
  deriving DecidableEq, Repr

namespace Run

/-- Reads the next run of the bytes that stand from position `pos` on, and tells the position
behind it. Of several extends in a row the last one counts. -/
def read? : (bytes : List UInt8) → (pos high : Nat) → Option (Run × Nat)
  | [], _, _ => none
  | v :: bytes, pos, high =>
    match Header.ofByte v with
    | .extend high => read? bytes (pos + 1) high
    | .transparent low => some (⟨.transparent, low + 1 + high * 64, false, pos + 1⟩, pos + 1)
    | .solid low last => some (⟨.solid, low + 1 + high * 32, last, pos + 1⟩, pos + 1)
    | .mixed low last =>
      if bytes.length < low + 1 + high * 32 then
        some (⟨.mixed, bytes.length, true, pos + 1⟩, pos + 1 + bytes.length)
      else
        some (⟨.mixed, low + 1 + high * 32, last, pos + 1⟩, pos + 1 + (low + 1 + high * 32))

theorem read?_bounds {bytes : List UInt8} {pos high next : Nat} {run : Run}
    (h : read? bytes pos high = some (run, next)) : pos < next ∧ next ≤ pos + bytes.length := by
  induction bytes generalizing pos high with
  | nil => simp [read?] at h
  | cons v bytes ih =>
    simp only [read?] at h
    simp only [List.length_cons]
    split at h
    · have := ih h
      omega
    · cases h; omega
    · cases h; omega
    · split at h <;> cases h <;> omega

def drop (run : Run) (count : Nat) : Run :=
  { run with length := run.length - count, start := run.start + count }

def span (run : Run) (stream : List UInt8) (count : Nat) : Span :=
  match run.kind with
  | .transparent => .transparent count
  | .solid => .solid count
  | .mixed => .coverage ((stream.drop run.start).take count)

end Run

end Scanline
