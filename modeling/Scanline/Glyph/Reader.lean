import Scanline.Glyph.Run
/-! Reading a window of one coded row, span by span.
A reader drops the columns before its window, then hands out one span for each run and cuts
the last one to the window. Once it has ended it stays at its end. -/
namespace Scanline

structure RowReader where
  stream : List UInt8
  pos : Nat
  skip : Nat
  remaining : Nat
  pending : Option Run
  ended : Bool
  deriving DecidableEq, Repr

namespace RowReader

def start (stream : List UInt8) (skip width : Nat) : RowReader :=
  ⟨stream, 0, skip, width, none, width == 0⟩

def readRun? (r : RowReader) : Option (Run × Nat) :=
  Run.read? (r.stream.drop r.pos) r.pos 0

theorem readRun?_bounds {r : RowReader} {run : Run} {next : Nat}
    (h : r.readRun? = some (run, next)) : r.pos < next ∧ next ≤ r.stream.length := by
  have := Run.read?_bounds h
  simp only [List.length_drop] at this
  omega

/-- Drops the columns before the window. A run that reaches into the window is cut and kept;
there is no reader left when the row ends before it. -/
def skipColumns? (r : RowReader) : Option RowReader :=
  if r.skip = 0 then some r
  else
    match _h : r.readRun? with
    | none => none
    | some (run, next) =>
      if r.skip < run.length then
        some { r with pos := next, skip := 0, pending := some (run.drop r.skip) }
      else if run.last then none
      else skipColumns? { r with pos := next, skip := r.skip - run.length }
termination_by r.stream.length - r.pos
decreasing_by
  have := readRun?_bounds _h
  omega

def takeRun? (r : RowReader) : Option (Run × RowReader) :=
  match r.pending with
  | some run => some (run, { r with pending := none })
  | none => r.readRun?.map fun (run, next) => (run, { r with pos := next })

def finish (r : RowReader) : RowReader := { r with ended := true }

def next (r : RowReader) : Option Span × RowReader :=
  if r.ended then (none, r)
  else
    match r.skipColumns? with
    | none => (none, r.finish)
    | some r =>
      match r.takeRun? with
      | none => (none, r.finish)
      | some (run, r) =>
        if run.length = 0 then (none, r.finish)
        else
          let count := min run.length r.remaining
          (some (run.span r.stream count),
            { r with remaining := r.remaining - count,
                     ended := run.last || r.remaining - count == 0 })

def budget (r : RowReader) : Nat := if r.ended then 0 else r.remaining + 1

theorem skipColumns?_remaining {r s : RowReader} (h : r.skipColumns? = some s) :
    s.remaining = r.remaining := by
  fun_induction skipColumns? r with
  | case1 => cases h; rfl
  | case2 => cases h
  | case3 => cases h; rfl
  | case4 => cases h
  | case5 r _ run next _ _ _ ih => exact ih h

theorem takeRun?_remaining {r s : RowReader} {run : Run} (h : r.takeRun? = some (run, s)) :
    s.remaining = r.remaining := by
  unfold takeRun? at h
  split at h
  · cases h; rfl
  · obtain ⟨_, _, h⟩ := Option.map_eq_some_iff.1 h
    cases h; rfl

theorem next_budget {r s : RowReader} {span : Span} (h : r.next = (some span, s)) :
    s.budget < r.budget := by
  unfold next at h
  split at h
  · cases h
  rename_i hr
  split at h
  · cases h
  rename_i t ht
  split at h
  · cases h
  rename_i run u hu
  split at h
  · cases h
  rename_i hlen
  have hremaining := (takeRun?_remaining hu).trans (skipColumns?_remaining ht)
  cases h
  simp only [budget, hr, Bool.false_eq_true, ite_false]
  split
  · omega
  · rename_i he
    simp only [Bool.or_eq_true, beq_iff_eq, not_or] at he
    have := he.2
    omega

def spans (r : RowReader) : List Span :=
  match _h : r.next with
  | (none, _) => []
  | (some span, s) => span :: spans s
termination_by r.budget
decreasing_by exact next_budget _h

end RowReader

end Scanline
