import Scanline.Proofs.Glyph.Reader
import Scanline.Proofs.Row
/-! Readers come to an end, whatever the bytes. To tell that no step reaches outside the stream there
is a second reader here that takes nothing for granted: it looks up each byte, checks each
difference and each part, and a failed check is a fault, which is not the end of the row. No fault
is ever met. The checked reader also tells where in the stream its spans are from. -/
namespace Scanline

def difference (a b : Nat) : Except Fault Nat :=
  if b ≤ a then .ok (a - b) else .error .oversize

theorem difference_eq {a b : Nat} (h : b ≤ a) : difference a b = .ok (a - b) := if_pos h

structure Placed where
  start : Nat
  span : Span
  deriving DecidableEq, Repr

namespace Placed

def Within (p : Placed) (stream : List UInt8) : Prop :=
  ∀ bytes, p.span = .coverage bytes → Row.slice? stream p.start bytes.length = some bytes

/-- Of two spans with bytes of coverage, those of the first end before those of the second begin. -/
def Before (p q : Placed) : Prop :=
  ∀ bytes bytes', p.span = .coverage bytes → q.span = .coverage bytes' →
    p.start < q.start ∧ p.start + bytes.length ≤ q.start

end Placed

namespace Run

def readChecked (stream : List UInt8) (pos high : Nat) : Except Fault (Option (Run × Nat)) :=
  match _h : stream[pos]? with
  | none => .ok none
  | some v =>
    match Header.ofByte v with
    | .extend high => readChecked stream (pos + 1) high
    | .transparent low => .ok (some (⟨.transparent, low + 1 + high * 64, false, pos + 1⟩, pos + 1))
    | .solid low last => .ok (some (⟨.solid, low + 1 + high * 32, last, pos + 1⟩, pos + 1))
    | .mixed low last => do
      let available ← difference stream.length (pos + 1)
      if available < low + 1 + high * 32 then
        return some (⟨.mixed, available, true, pos + 1⟩, pos + 1 + available)
      else
        return some (⟨.mixed, low + 1 + high * 32, last, pos + 1⟩, pos + 1 + (low + 1 + high * 32))
termination_by stream.length - pos
decreasing_by
  have := (List.getElem?_eq_some_iff.mp _h).1
  omega

theorem readChecked_eq (stream : List UInt8) (pos high : Nat) :
    readChecked stream pos high = .ok (read? (stream.drop pos) pos high) := by
  fun_induction readChecked stream pos high with
  | case1 pos high hend =>
    rw [List.drop_eq_nil_of_le (List.getElem?_eq_none_iff.mp hend), read?]
  | case2 pos high v hv high' hheader ih =>
    obtain ⟨hlt, rfl⟩ := List.getElem?_eq_some_iff.mp hv
    rw [List.drop_eq_getElem_cons hlt, read?, hheader, ih]
  | case3 pos high v hv low hheader =>
    obtain ⟨hlt, rfl⟩ := List.getElem?_eq_some_iff.mp hv
    rw [List.drop_eq_getElem_cons hlt, read?, hheader]
  | case4 pos high v hv low last hheader =>
    obtain ⟨hlt, rfl⟩ := List.getElem?_eq_some_iff.mp hv
    rw [List.drop_eq_getElem_cons hlt, read?, hheader]
  | case5 pos high v hv low last hheader =>
    obtain ⟨hlt, rfl⟩ := List.getElem?_eq_some_iff.mp hv
    rw [List.drop_eq_getElem_cons hlt, read?, hheader, difference_eq hlt]
    simp only [List.length_drop]
    exact (apply_ite Except.ok _ _ _).symm

/-- The bytes of a run are behind its header, and the next run is behind them. -/
theorem read?_placed {bytes : List UInt8} {pos high next : Nat} {run : Run}
    (h : read? bytes pos high = some (run, next)) :
    pos < run.start ∧ (run.kind = .mixed → run.start + run.length = next) := by
  induction bytes generalizing pos high with
  | nil => cases h
  | cons v bytes ih =>
    simp only [read?] at h
    split at h
    · obtain ⟨hstart, hnext⟩ := ih h
      exact ⟨Nat.lt_of_succ_lt hstart, hnext⟩
    · cases h
      refine ⟨Nat.lt_succ_self pos, fun hkind => ?_⟩
      cases hkind
    · cases h
      refine ⟨Nat.lt_succ_self pos, fun hkind => ?_⟩
      cases hkind
    · split at h <;> cases h <;> exact ⟨Nat.lt_succ_self pos, fun _ => rfl⟩

def spanChecked (run : Run) (stream : List UInt8) (count : Nat) : Except Fault Placed :=
  match run.kind with
  | .transparent => .ok ⟨run.start, .transparent count⟩
  | .solid => .ok ⟨run.start, .solid count⟩
  | .mixed =>
    match Row.slice? stream run.start count with
    | some bytes => .ok ⟨run.start, .coverage bytes⟩
    | none => .error .overrun

variable {run : Run} {stream : List UInt8} {count : Nat}

theorem Sound.spanChecked_eq (h : run.Sound stream) (hcount : count ≤ run.length) :
    run.spanChecked stream count = .ok ⟨run.start, run.span stream count⟩ := by
  unfold spanChecked span
  cases hkind : run.kind with
  | transparent => rfl
  | solid => rfl
  | mixed =>
    have hwithin := h.within hkind
    rw [Row.slice?_eq_part (by omega), Row.part]

theorem Sound.length_span (h : run.Sound stream) (hcount : count ≤ run.length) :
    (run.span stream count).length = count := by
  unfold span
  cases hkind : run.kind with
  | transparent => rfl
  | solid => rfl
  | mixed =>
    have hwithin := h.within hkind
    simp only [Span.length, List.length_take, List.length_drop]
    omega

theorem Sound.coverage {bytes : List UInt8} (h : run.Sound stream) (hcount : count ≤ run.length)
    (hspan : run.span stream count = .coverage bytes) :
    run.kind = .mixed ∧ bytes.length = count ∧ Row.slice? stream run.start count = some bytes := by
  have hlength := h.length_span hcount
  rw [hspan, Span.length] at hlength
  unfold span at hspan
  cases hkind : run.kind with
  | transparent =>
    simp only [hkind] at hspan
    cases hspan
  | solid =>
    simp only [hkind] at hspan
    cases hspan
  | mixed =>
    simp only [hkind] at hspan
    cases hspan
    have hwithin := h.within hkind
    exact ⟨rfl, hlength, Row.slice?_eq_part (by omega)⟩

end Run

namespace RowReader

def skipChecked (r : RowReader) : Except Fault (Option RowReader) :=
  if r.skip = 0 then .ok (some r)
  else
    match _h : Run.readChecked r.stream r.pos 0 with
    | .error fault => .error fault
    | .ok none => .ok none
    | .ok (some (run, next)) =>
      if r.skip < run.length then do
        let length ← difference run.length r.skip
        let kept := { run with length, start := run.start + r.skip }
        return some { r with pos := next, skip := 0, pending := some kept }
      else if run.last then .ok none
      else
        match difference r.skip run.length with
        | .error fault => .error fault
        | .ok skip => skipChecked { r with pos := next, skip }
termination_by r.stream.length - r.pos
decreasing_by
  rw [Run.readChecked_eq] at _h
  have := readRun?_bounds (Except.ok.inj _h)
  omega

def takeChecked (r : RowReader) : Except Fault (Option (Run × RowReader)) :=
  match r.pending with
  | some run => .ok (some (run, { r with pending := none }))
  | none => do
    let found ← Run.readChecked r.stream r.pos 0
    return found.map fun (run, next) => (run, { r with pos := next })

def nextChecked (r : RowReader) : Except Fault (Option Placed × RowReader) :=
  if r.ended then .ok (none, r)
  else do
    match ← r.skipChecked with
    | none => return (none, r.finish)
    | some r =>
      match ← r.takeChecked with
      | none => return (none, r.finish)
      | some (run, r) =>
        if run.length = 0 then return (none, r.finish)
        else
          let count := min run.length r.remaining
          let remaining ← difference r.remaining count
          let placed ← run.spanChecked r.stream count
          return (some placed, { r with remaining, ended := run.last || remaining == 0 })

def after (r : RowReader) : Nat → RowReader
  | 0 => r
  | k + 1 => r.next.2.after k

theorem skipColumns?_of_none {r : RowReader} (hskip : r.skip ≠ 0) (h : r.readRun? = none) :
    r.skipColumns? = none := by
  rw [skipColumns?, if_neg hskip]
  split
  · rfl
  · rename_i hread
    cases h.symm.trans hread

theorem skipColumns?_of_some {r : RowReader} {run : Run} {next : Nat} (hskip : r.skip ≠ 0)
    (h : r.readRun? = some (run, next)) :
    r.skipColumns? =
      if r.skip < run.length then
        some { r with pos := next, skip := 0, pending := some (run.drop r.skip) }
      else if run.last then none
      else skipColumns? { r with pos := next, skip := r.skip - run.length } := by
  rw [skipColumns?, if_neg hskip]
  split
  · rename_i hread
    cases h.symm.trans hread
  · rename_i hread
    cases h.symm.trans hread
    rfl

theorem skipChecked_eq (r : RowReader) : r.skipChecked = .ok r.skipColumns? := by
  fun_induction skipChecked r with
  | case1 r hskip => rw [skipColumns?, if_pos hskip]
  | case2 r hskip fault hread =>
    rw [Run.readChecked_eq] at hread
    cases hread
  | case3 r hskip hread =>
    rw [Run.readChecked_eq] at hread
    rw [skipColumns?_of_none hskip (Except.ok.inj hread)]
  | case4 r hskip run next hread hlt =>
    rw [Run.readChecked_eq] at hread
    rw [skipColumns?_of_some hskip (Except.ok.inj hread), if_pos hlt,
      difference_eq (Nat.le_of_lt hlt)]
    rfl
  | case5 r hskip run next hread hle hlast =>
    rw [Run.readChecked_eq] at hread
    rw [skipColumns?_of_some hskip (Except.ok.inj hread), if_neg hle, if_pos hlast]
  | case6 r hskip run next hread hle hlast fault hless =>
    rw [difference_eq (Nat.le_of_not_lt hle)] at hless
    cases hless
  | case7 r hskip run next hread hle hlast skip hless ih =>
    rw [Run.readChecked_eq] at hread
    rw [difference_eq (Nat.le_of_not_lt hle)] at hless
    cases hless
    rw [skipColumns?_of_some hskip (Except.ok.inj hread), if_neg hle, if_neg hlast, ih]

theorem takeChecked_eq (r : RowReader) : r.takeChecked = .ok r.takeRun? := by
  unfold takeChecked takeRun?
  cases r.pending with
  | some run => rfl
  | none =>
    rw [Run.readChecked_eq]
    rfl

structure Finds (r : RowReader) (run : Run) (next : Nat) : Prop where
  passed : r.pos < next
  within : next ≤ r.stream.length
  start_after : r.pos < run.start
  stop_before : run.kind = .mixed → run.start + run.length ≤ next

theorem finds_of_readRun? {r : RowReader} {run : Run} {next : Nat}
    (h : r.readRun? = some (run, next)) : r.Finds run next := by
  obtain ⟨hpassed, hwithin⟩ := readRun?_bounds h
  obtain ⟨hstart, hstop⟩ := Run.read?_placed h
  exact ⟨hpassed, hwithin, hstart, fun hkind => Nat.le_of_eq (hstop hkind)⟩

theorem finds_of_takeRun? {r t u : RowReader} {run : Run} (hpending : r.pending = none)
    (hskip : r.skipColumns? = some t) (htake : t.takeRun? = some (run, u)) :
    u.stream = r.stream ∧ u.pending = none ∧ r.Finds run u.pos := by
  fun_induction skipColumns? r with
  | case1 r hzero =>
    cases hskip
    simp only [takeRun?, hpending] at htake
    obtain ⟨⟨run', next⟩, hread, hsome⟩ := Option.map_eq_some_iff.mp htake
    cases hsome
    exact ⟨rfl, rfl, finds_of_readRun? hread⟩
  | case2 => cases hskip
  | case3 r hzero kept next hread hlt =>
    cases hskip
    cases htake
    obtain ⟨hpassed, hwithin, hstart, hstop⟩ := finds_of_readRun? hread
    refine ⟨rfl, rfl, hpassed, hwithin, Nat.lt_add_right _ hstart, ?_⟩
    intro hkind
    have := hstop hkind
    simp only [Run.drop]
    omega
  | case4 => cases hskip
  | case5 r hzero passed next hread hle hlast ih =>
    obtain ⟨hstream, hnone, hfinds⟩ := ih hpending hskip
    have hlt := (finds_of_readRun? hread).passed
    exact ⟨hstream, hnone, Nat.lt_trans hlt hfinds.passed, hfinds.within,
      Nat.lt_trans hlt hfinds.start_after, hfinds.stop_before⟩

structure Resting (r : RowReader) : Prop where
  pending : r.pending = none
  pos_le : r.pos ≤ r.stream.length
  remaining : r.ended = false → r.remaining ≠ 0

theorem resting_start (stream : List UInt8) (skip width : Nat) :
    (start stream skip width).Resting := by
  refine ⟨rfl, Nat.zero_le _, ?_⟩
  intro hopen
  exact beq_eq_false_iff_ne.mp hopen

theorem Resting.sound {r : RowReader} (hr : r.Resting) : r.Sound :=
  ⟨fun run h => by simp [hr.pending] at h, fun h => absurd hr.pending h⟩

structure Advance (r : RowReader) (p : Placed) (s : RowReader) : Prop where
  stream : s.stream = r.stream
  passed : r.pos < s.pos
  remaining : p.span.length + s.remaining = r.remaining
  nonempty : 1 ≤ p.span.length
  within : p.Within r.stream
  between : ∀ bytes, p.span = .coverage bytes → r.pos < p.start ∧ p.start + bytes.length ≤ s.pos

/-- A step that gives a span passes all checks, and the next one starts behind it. -/
theorem Resting.step {r s : RowReader} {span : Span} (hr : r.Resting)
    (h : r.next = (some span, s)) :
    ∃ p : Placed, p.span = span ∧ r.nextChecked = .ok (some p, s) ∧ s.Resting ∧ r.Advance p s := by
  obtain ⟨t, run, u, hopen, hskip, htake, hlength, rfl, rfl⟩ := next_cases h
  obtain ⟨ht, htskip, -⟩ := skipColumns?_ahead hr.sound hskip
  obtain ⟨hrun, -, -, -⟩ := takeRun?_ahead ht htskip htake
  obtain ⟨hstream, hpending, hfinds⟩ := finds_of_takeRun? hr.pending hskip htake
  have hremaining := (takeRun?_remaining htake).trans (skipColumns?_remaining hskip)
  have hsome := hr.remaining hopen
  have hcount : min run.length u.remaining ≤ run.length := Nat.min_le_left _ _
  have hcount' : min run.length u.remaining ≤ u.remaining := Nat.min_le_right _ _
  have hspan := hrun.length_span hcount
  refine ⟨⟨run.start, run.span u.stream (min run.length u.remaining)⟩, rfl, ?_, ?_, ?_⟩
  · simp only [nextChecked, hopen, skipChecked_eq, hskip, takeChecked_eq, htake, hlength,
      difference_eq hcount', hrun.spanChecked_eq hcount, bind, Except.bind, pure, Except.pure,
      Bool.false_eq_true, if_false]
  · refine ⟨hpending, hstream ▸ hfinds.within, ?_⟩
    intro hs
    simp only [Bool.or_eq_false_iff, beq_eq_false_iff_ne] at hs
    exact hs.2
  · constructor
    case stream => exact hstream
    case passed => exact hfinds.passed
    case remaining =>
      dsimp only
      omega
    case nonempty =>
      dsimp only
      omega
    case within =>
      intro bytes hbytes
      obtain ⟨-, hlen, hslice⟩ := hrun.coverage hcount hbytes
      rw [hlen, ← hstream]
      exact hslice
    case between =>
      intro bytes hbytes
      obtain ⟨hkind, hlen, -⟩ := hrun.coverage hcount hbytes
      have hstop := hfinds.stop_before hkind
      refine ⟨hfinds.start_after, ?_⟩
      dsimp only
      omega

theorem nextChecked_of_none {r s : RowReader} (h : r.next = (none, s)) :
    r.nextChecked = .ok (none, s) ∧ s.ended = true := by
  by_cases hended : r.ended = true
  · rw [next, if_pos hended] at h
    cases h
    exact ⟨if_pos hended, hended⟩
  rw [next, if_neg hended] at h
  rw [nextChecked, if_neg hended, skipChecked_eq]
  simp only [takeChecked_eq, bind, Except.bind, pure, Except.pure]
  cases hskip : r.skipColumns? with
  | none =>
    rw [hskip] at h
    cases h
    exact ⟨rfl, rfl⟩
  | some t =>
    rw [hskip] at h
    cases htake : t.takeRun? with
    | none =>
      simp only [htake] at h ⊢
      cases h
      exact ⟨rfl, rfl⟩
    | some taken =>
      obtain ⟨run, u⟩ := taken
      simp only [htake] at h ⊢
      by_cases hempty : run.length = 0
      · rw [if_pos hempty] at h ⊢
        cases h
        exact ⟨rfl, rfl⟩
      · rw [if_neg hempty] at h
        cases h

theorem spans_of_none {r s : RowReader} (h : r.next = (none, s)) : r.spans = [] := by
  unfold spans
  split
  · rfl
  · rename_i hnext
    cases h.symm.trans hnext

theorem spans_of_some {r s : RowReader} {span : Span} (h : r.next = (some span, s)) :
    r.spans = span :: s.spans := by
  rw [spans]
  split
  · rename_i hnext
    cases h.symm.trans hnext
  · rename_i hnext
    cases h.symm.trans hnext
    rfl

theorem next_of_ended {r : RowReader} (h : r.ended = true) : r.next = (none, r) := if_pos h

theorem after_of_ended {r : RowReader} (h : r.ended = true) (k : Nat) : r.after k = r := by
  induction k with
  | zero => rfl
  | succ k ih => rw [after, next_of_ended h, ih]

/-- Steps give these spans, in this order, and no more; the checked reader gives them too. They are
parts of the stream behind one another, and together no more than what the window has room for. -/
structure Drains (r : RowReader) (placed : List Placed) : Prop where
  spans : placed.map Placed.span = r.spans
  next : ∀ k, (r.after k).next = (placed[k]?.map Placed.span, r.after (k + 1))
  checked : ∀ k, (r.after k).nextChecked = .ok (placed[k]?, r.after (k + 1))
  count : r.pos + placed.length ≤ r.stream.length
  total : Span.totalLength (placed.map Placed.span) ≤ r.remaining
  nonempty : ∀ p ∈ placed, 1 ≤ p.span.length
  within : ∀ p ∈ placed, p.Within r.stream
  ahead : ∀ p ∈ placed, ∀ bytes, p.span = .coverage bytes → r.pos < p.start
  ordered : placed.Pairwise Placed.Before

theorem Resting.drains_nil {r s : RowReader} (hr : r.Resting) (h : r.next = (none, s)) :
    r.Drains [] := by
  obtain ⟨hchecked, hended⟩ := nextChecked_of_none h
  obtain ⟨hchecked', -⟩ := nextChecked_of_none (next_of_ended hended)
  have hafter : ∀ k, r.after (k + 1) = s := by
    intro k
    rw [after, h, after_of_ended hended]
  constructor
  case spans => rw [spans_of_none h, List.map_nil]
  case next =>
    intro k
    cases k with
    | zero => rw [hafter]; exact h
    | succ k => rw [hafter, hafter]; exact next_of_ended hended
  case checked =>
    intro k
    cases k with
    | zero => rw [hafter]; exact hchecked
    | succ k => rw [hafter, hafter]; exact hchecked'
  case count => exact hr.pos_le
  case total => exact Nat.zero_le _
  case nonempty => exact nofun
  case within => exact nofun
  case ahead => exact nofun
  case ordered => exact List.Pairwise.nil

theorem Drains.cons {r s : RowReader} {p : Placed} {placed : List Placed} (hs : s.Drains placed)
    (h : r.next = (some p.span, s)) (hchecked : r.nextChecked = .ok (some p, s))
    (hp : r.Advance p s) : r.Drains (p :: placed) := by
  have hafter : ∀ k, r.after (k + 1) = s.after k := by
    intro k
    rw [after, h]
  constructor
  case spans => rw [spans_of_some h, List.map_cons, hs.spans]
  case next =>
    intro k
    cases k with
    | zero => rw [hafter]; exact h
    | succ k => rw [hafter, hafter]; exact hs.next k
  case checked =>
    intro k
    cases k with
    | zero => rw [hafter]; exact hchecked
    | succ k => rw [hafter, hafter]; exact hs.checked k
  case count =>
    have hcount := hs.count
    have hpassed := hp.passed
    rw [hp.stream] at hcount
    rw [List.length_cons]
    omega
  case total =>
    have htotal := hs.total
    have hremaining := hp.remaining
    rw [List.map_cons, Span.totalLength]
    omega
  case nonempty => exact List.forall_mem_cons.mpr ⟨hp.nonempty, hs.nonempty⟩
  case within => exact List.forall_mem_cons.mpr ⟨hp.within, hp.stream ▸ hs.within⟩
  case ahead =>
    refine List.forall_mem_cons.mpr ⟨fun bytes hbytes => (hp.between bytes hbytes).1, ?_⟩
    intro q hq bytes hbytes
    exact Nat.lt_trans hp.passed (hs.ahead q hq bytes hbytes)
  case ordered =>
    refine List.pairwise_cons.mpr ⟨?_, hs.ordered⟩
    intro q hq bytes bytes' hbytes hbytes'
    have hstop := (hp.between bytes hbytes).2
    have hstart := hs.ahead q hq bytes' hbytes'
    omega

theorem Resting.drains {r : RowReader} (hr : r.Resting) : ∃ placed, r.Drains placed := by
  fun_induction spans r with
  | case1 r s h => exact ⟨[], hr.drains_nil h⟩
  | case2 r span s h ih =>
    obtain ⟨p, rfl, hchecked, hs, hp⟩ := hr.step h
    obtain ⟨placed, hplaced⟩ := ih hs
    exact ⟨p :: placed, hplaced.cons h hchecked hp⟩

/-- On any bytes and for any window a reader hands out finitely many spans, and then nothing any
more. No step reads, cuts or subtracts out of range. There are no more spans than bytes in the stream,
none is empty, and together they are no longer than the window; their bytes of coverage are parts
of the stream, each behind the one before it. -/
theorem reader_drains (stream : List UInt8) (skip width : Nat) :
    ∃ placed : List Placed, placed.map Placed.span = (start stream skip width).spans ∧
      (∀ k, ((start stream skip width).after k).next =
          (placed[k]?.map Placed.span, (start stream skip width).after (k + 1)) ∧
        ((start stream skip width).after k).nextChecked =
          .ok (placed[k]?, (start stream skip width).after (k + 1))) ∧
      placed.length ≤ stream.length ∧ (∀ p ∈ placed, 1 ≤ p.span.length) ∧
      Span.totalLength (placed.map Placed.span) ≤ width ∧
      (∀ p ∈ placed, p.Within stream) ∧ placed.Pairwise Placed.Before := by
  obtain ⟨placed, h⟩ := (resting_start stream skip width).drains
  have hcount : 0 + placed.length ≤ stream.length := h.count
  refine ⟨placed, h.spans, fun k => ⟨h.next k, h.checked k⟩, ?_, h.nonempty, h.total, h.within,
    h.ordered⟩
  rwa [Nat.zero_add] at hcount

end RowReader

end Scanline
