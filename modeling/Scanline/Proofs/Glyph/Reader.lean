import Scanline.Glyph.Columns
/-! A reader hands out the columns of its window. The columns of a row are told from the bits of its
bytes and a reader tells headers apart by arithmetic; `Header.ofByte_eq` is where the two meet. What
a reader still has to say is written `columns`: the columns behind the kept run, if there is one,
and of the rest of the stream. A step gives the first of them and leaves a reader of the others. -/
namespace Scanline

namespace Header

theorem toNat_and_three (v : UInt8) : (v &&& 3).toNat = v.toNat % 4 := by
  rw [UInt8.toNat_and]
  exact Nat.and_two_pow_sub_one_eq_mod v.toNat 2

theorem and_three_eq_iff (v : UInt8) {tag : UInt8} : v &&& 3 = tag ↔ v.toNat % 4 = tag.toNat := by
  rw [← UInt8.toNat_inj, toNat_and_three]

theorem and_four_ne_zero_iff (v : UInt8) : v &&& 4 ≠ 0 ↔ v.toNat / 4 % 2 = 1 := by
  -- the mask keeps the lowest bit of the quotient and nothing of the remainder
  have hdiv : (v.toNat &&& 4) / 4 = v.toNat / 4 % 2 :=
    (Nat.and_div_two_pow (n := 2)).trans (Nat.and_one_is_mod _)
  have hmod : (v.toNat &&& 4) % 4 = 0 :=
    (Nat.and_mod_two_pow (n := 2)).trans (Nat.and_zero _)
  rw [Ne, ← UInt8.toNat_inj, UInt8.toNat_and]
  simp only [UInt8.reduceToNat]
  omega

/-- A header is what the table of the code says of its bits. -/
theorem ofByte_eq (v : UInt8) :
    ofByte v =
      if v &&& 3 = 0 then .extend (v >>> 2).toNat
      else if v &&& 3 = 1 then .transparent (v >>> 2).toNat
      else if v &&& 3 = 2 then .solid (v >>> 3).toNat (v &&& 4 ≠ 0)
      else .mixed (v >>> 3).toNat (v &&& 4 ≠ 0) := by
  simp only [ofByte, and_three_eq_iff, and_four_ne_zero_iff, UInt8.toNat_shiftRight,
    Nat.shiftRight_eq_div_pow]
  rfl

end Header

namespace Column

variable (high : Nat) (v : UInt8) (bytes : List UInt8)

@[simp] theorem ofRow_nil : ofRow high [] = [] := by
  rw [ofRow]

theorem ofRow_cons :
    ofRow high (v :: bytes) =
      match Header.ofByte v with
      | .extend high => ofRow high bytes
      | .transparent low => List.replicate (low + 1 + high * 64) .transparent ++ ofRow 0 bytes
      | .solid low last =>
        List.replicate (low + 1 + high * 32) .solid ++ if last then [] else ofRow 0 bytes
      | .mixed low last =>
        (bytes.take (low + 1 + high * 32)).map .covered ++
          if last then [] else ofRow 0 (bytes.drop (low + 1 + high * 32)) := by
  rw [ofRow, Header.ofByte_eq, Nat.shiftLeft_eq, Nat.shiftLeft_eq]
  by_cases h₀ : v &&& 3 = 0
  · simp only [if_pos h₀]
  by_cases h₁ : v &&& 3 = 1
  · simp only [if_neg h₀, if_pos h₁]
  by_cases h₂ : v &&& 3 = 2
  · simp only [if_neg h₀, if_neg h₁, if_pos h₂, decide_eq_true_eq]
  · simp only [if_neg h₀, if_neg h₁, if_neg h₂, decide_eq_true_eq]

end Column

namespace Run

/-- A run as it is read: its bytes of coverage are in the stream, and it is empty only where
the stream ends with its header. -/
structure Sound (run : Run) (stream : List UInt8) : Prop where
  within : run.kind = .mixed → run.start + run.length ≤ stream.length
  empty_last : run.length = 0 → run.last = true

def columns (run : Run) (stream : List UInt8) : List Column :=
  (run.span stream run.length).columns

theorem length_columns {run : Run} {stream : List UInt8} (h : run.Sound stream) :
    (run.columns stream).length = run.length := by
  have hwithin := h.within
  unfold columns span
  split
  · simp [Span.columns]
  · simp [Span.columns]
  · rename_i hkind
    simp only [Span.columns, List.length_map, List.length_take, List.length_drop]
    have := hwithin hkind
    omega

theorem columns_drop (run : Run) (stream : List UInt8) (count : Nat) :
    (run.drop count).columns stream = (run.columns stream).drop count := by
  simp only [columns, span, drop]
  split
  · simp [Span.columns]
  · simp [Span.columns]
  · simp only [Span.columns, ← List.map_drop, List.drop_take, List.drop_drop]

theorem Sound.drop {run : Run} {stream : List UInt8} (h : run.Sound stream) {count : Nat}
    (hcount : count < run.length) : (run.drop count).Sound stream := by
  constructor
  · intro hkind
    have hwithin := h.within hkind
    simp only [Run.drop]
    omega
  · intro hempty
    simp only [Run.drop] at hempty
    omega

theorem columns_span (run : Run) (stream : List UInt8) (count : Nat) :
    (run.span stream (min run.length count)).columns = (run.columns stream).take count := by
  unfold columns span
  split
  · simp [Span.columns, Nat.min_comm]
  · simp [Span.columns, Nat.min_comm]
  · simp only [Span.columns, ← List.map_take, List.take_take, Nat.min_comm]

theorem read?_sound {stream bytes : List UInt8} {pos high next : Nat} {run : Run}
    (hbytes : stream.drop pos = bytes) (h : read? bytes pos high = some (run, next)) :
    run.Sound stream := by
  induction bytes generalizing pos high with
  | nil => cases h
  | cons v bytes ih =>
    have hlen := congrArg List.length hbytes
    rw [List.length_drop, List.length_cons] at hlen
    cases hv : Header.ofByte v with
    | extend high' =>
      simp only [read?, hv] at h
      refine ih ?_ h
      rw [← List.drop_drop, hbytes, List.drop_one, List.tail_cons]
    | transparent low =>
      simp only [read?, hv] at h
      cases h
      constructor
      · intro hkind
        cases hkind
      · intro hempty
        dsimp only at hempty
        omega
    | solid low last =>
      simp only [read?, hv] at h
      cases h
      constructor
      · intro hkind
        cases hkind
      · intro hempty
        dsimp only at hempty
        omega
    | mixed low last =>
      simp only [read?, hv] at h
      split at h
      · cases h
        constructor
        · intro _
          dsimp only
          omega
        · intro _
          rfl
      · cases h
        constructor
        · intro _
          dsimp only
          omega
        · intro hempty
          dsimp only at hempty
          omega

theorem ofRow_of_read?_none {bytes : List UInt8} {pos high : Nat}
    (h : read? bytes pos high = none) : Column.ofRow high bytes = [] := by
  induction bytes generalizing pos high with
  | nil => exact Column.ofRow_nil high
  | cons v bytes ih =>
    rw [Column.ofRow_cons]
    cases hv : Header.ofByte v with
    | extend high' =>
      simp only [read?, hv] at h
      exact ih h
    | transparent low => simp [read?, hv] at h
    | solid low last => simp [read?, hv] at h
    | mixed low last =>
      simp only [read?, hv] at h
      split at h <;> cases h

/-- What a row says from here on is its next run and, unless that is its last, the columns
behind it. -/
theorem ofRow_of_read? {stream bytes : List UInt8} {pos high next : Nat} {run : Run}
    (hbytes : stream.drop pos = bytes) (h : read? bytes pos high = some (run, next)) :
    Column.ofRow high bytes =
      run.columns stream ++ if run.last then [] else Column.ofRow 0 (stream.drop next) := by
  induction bytes generalizing pos high with
  | nil => cases h
  | cons v bytes ih =>
    have htail : stream.drop (pos + 1) = bytes := by
      rw [← List.drop_drop, hbytes, List.drop_one, List.tail_cons]
    rw [Column.ofRow_cons]
    cases hv : Header.ofByte v with
    | extend high' =>
      simp only [read?, hv] at h
      exact ih htail h
    | transparent low =>
      simp only [read?, hv] at h
      cases h
      rw [htail]
      rfl
    | solid low last =>
      simp only [read?, hv] at h
      cases h
      rw [htail]
      rfl
    | mixed low last =>
      simp only [read?, hv] at h
      split at h
      · rename_i hshort
        cases h
        have hnone : bytes.drop (low + 1 + high * 32) = [] := List.drop_eq_nil_of_le (by omega)
        simp only [columns, span, Span.columns, htail, hnone, Column.ofRow_nil, ite_self, ite_true,
          List.take_length, List.append_nil]
        rw [List.take_of_length_le (by omega)]
      · cases h
        simp only [columns, span, Span.columns, ← List.drop_drop, htail]

end Run

namespace RowReader

def ahead (r : RowReader) : List Column :=
  match r.pending with
  | some run =>
    run.columns r.stream ++ if run.last then [] else Column.ofRow 0 (r.stream.drop r.pos)
  | none => Column.ofRow 0 (r.stream.drop r.pos)

def columns (r : RowReader) : List Column :=
  if r.ended then [] else (r.ahead.drop r.skip).take r.remaining

/-- A kept run has been skipped into, and nothing is left to skip. -/
structure Sound (r : RowReader) : Prop where
  pending_sound : ∀ run, r.pending = some run → run.Sound r.stream
  pending_skip : r.pending ≠ none → r.skip = 0

theorem start_sound (stream : List UInt8) (skip width : Nat) : (start stream skip width).Sound :=
  ⟨nofun, fun h => absurd rfl h⟩

theorem ahead_of_readRun? {r : RowReader} {run : Run} {next : Nat} (hpending : r.pending = none)
    (h : r.readRun? = some (run, next)) :
    r.ahead = run.columns r.stream ++
      if run.last then [] else Column.ofRow 0 (r.stream.drop next) := by
  rw [ahead, hpending]
  exact Run.ofRow_of_read? rfl h

theorem ahead_of_readRun?_none {r : RowReader} (hpending : r.pending = none)
    (h : r.readRun? = none) : r.ahead = [] := by
  rw [ahead, hpending]
  exact Run.ofRow_of_read?_none h

theorem Sound.pending_none {r : RowReader} (hr : r.Sound) (hskip : r.skip ≠ 0) :
    r.pending = none := by
  cases hp : r.pending with
  | none => rfl
  | some _ => exact absurd (hr.pending_skip (by simp [hp])) hskip

theorem Sound.pass {r : RowReader} (hr : r.Sound) (hskip : r.skip ≠ 0) (next skip : Nat) :
    Sound { r with pos := next, skip } :=
  ⟨hr.pending_sound, fun h => absurd (hr.pending_none hskip) h⟩

theorem ahead_pass {r : RowReader} {run : Run} {next : Nat} (hpending : r.pending = none)
    (hread : r.readRun? = some (run, next)) (hle : run.length ≤ r.skip)
    (hlast : run.last = false) :
    (ahead { r with pos := next, skip := r.skip - run.length }).drop (r.skip - run.length) =
      r.ahead.drop r.skip := by
  have hlen := Run.length_columns (Run.read?_sound rfl hread)
  have hgone : (run.columns r.stream).drop r.skip = [] := List.drop_eq_nil_of_le (hlen ▸ hle)
  rw [ahead_of_readRun? hpending hread, hlast, List.drop_append, hlen, hgone, List.nil_append,
    ahead, hpending]
  rfl

/-- Skipping leaves a sound reader of what is behind the skipped columns. -/
theorem skipColumns?_ahead {r s : RowReader} (hr : r.Sound) (h : r.skipColumns? = some s) :
    s.Sound ∧ s.skip = 0 ∧ s.ahead = r.ahead.drop r.skip := by
  fun_induction skipColumns? r with
  | case1 r hskip =>
    cases h
    exact ⟨hr, hskip, by rw [hskip, List.drop_zero]⟩
  | case2 => cases h
  | case3 r hskip run next hread hlt =>
    cases h
    have hrun := Run.read?_sound rfl hread
    have hle : r.skip ≤ (run.columns r.stream).length := Run.length_columns hrun ▸ Nat.le_of_lt hlt
    refine ⟨⟨?_, fun _ => rfl⟩, rfl, ?_⟩
    · intro kept hkept
      cases hkept
      exact hrun.drop hlt
    · rw [ahead_of_readRun? (hr.pending_none hskip) hread, List.drop_append_of_le_length hle,
        ← Run.columns_drop]
      rfl
  | case4 => cases h
  | case5 r hskip run next hread hle hlast ih =>
    have hpass := ahead_pass (hr.pending_none hskip) hread (Nat.le_of_not_lt hle)
      (Bool.eq_false_iff.mpr hlast)
    obtain ⟨hsound, hdone, hahead⟩ := ih (hr.pass hskip _ _) h
    exact ⟨hsound, hdone, hahead.trans hpass⟩

theorem ahead_of_skipColumns?_none {r : RowReader} (hr : r.Sound) (h : r.skipColumns? = none) :
    r.ahead.drop r.skip = [] := by
  fun_induction skipColumns? r with
  | case1 => cases h
  | case2 r hskip hread => rw [ahead_of_readRun?_none (hr.pending_none hskip) hread, List.drop_nil]
  | case3 => cases h
  | case4 r hskip run next hread hle hlast =>
    have hlen := Run.length_columns (Run.read?_sound rfl hread)
    rw [ahead_of_readRun? (hr.pending_none hskip) hread, if_pos hlast, List.append_nil]
    exact List.drop_eq_nil_of_le (hlen ▸ Nat.le_of_not_lt hle)
  | case5 r hskip run next hread hle hlast ih =>
    have hpass := ahead_pass (hr.pending_none hskip) hread (Nat.le_of_not_lt hle)
      (Bool.eq_false_iff.mpr hlast)
    exact hpass.symm.trans (ih (hr.pass hskip _ _) h)

/-- The run that is taken comes first of what is ahead. -/
theorem takeRun?_ahead {r s : RowReader} {run : Run} (hr : r.Sound) (hskip : r.skip = 0)
    (h : r.takeRun? = some (run, s)) :
    run.Sound s.stream ∧ s.Sound ∧ s.skip = 0 ∧
      r.ahead = run.columns s.stream ++ if run.last then [] else s.ahead := by
  unfold takeRun? at h
  split at h
  · rename_i hkept
    cases h
    refine ⟨hr.pending_sound run hkept, ⟨nofun, fun h => absurd rfl h⟩, hskip, ?_⟩
    rw [ahead, hkept]
    rfl
  · rename_i hpending
    obtain ⟨⟨run', next⟩, hread, hs⟩ := Option.map_eq_some_iff.mp h
    cases hs
    have hsound : Sound { r with pos := next } :=
      ⟨hr.pending_sound, fun h => absurd hpending h⟩
    refine ⟨Run.read?_sound rfl hread, hsound, hskip, ?_⟩
    rw [ahead_of_readRun? hpending hread, ahead, hpending]

theorem ahead_of_takeRun?_none {r : RowReader} (h : r.takeRun? = none) : r.ahead = [] := by
  unfold takeRun? at h
  split at h
  · cases h
  · rename_i hpending
    exact ahead_of_readRun?_none hpending (Option.map_eq_none_iff.mp h)

/-- A step that gives a span has skipped, taken a run and cut it to the window. -/
theorem next_cases {r s : RowReader} {span : Span} (h : r.next = (some span, s)) :
    ∃ t run u, r.ended = false ∧ r.skipColumns? = some t ∧ t.takeRun? = some (run, u) ∧
      run.length ≠ 0 ∧ span = run.span u.stream (min run.length u.remaining) ∧
      s = { u with
        remaining := u.remaining - min run.length u.remaining
        ended := run.last || u.remaining - min run.length u.remaining == 0 } := by
  unfold next at h
  split at h
  · cases h
  rename_i hopen
  split at h
  · cases h
  rename_i t hskip
  split at h
  · cases h
  rename_i run u htake
  split at h
  · cases h
  rename_i hlength
  cases h
  exact ⟨t, run, u, Bool.eq_false_iff.mpr hopen, hskip, htake, hlength, rfl, rfl⟩

/-- A step hands out the first of the columns to come. -/
theorem next_columns {r s : RowReader} {span : Span} (hr : r.Sound)
    (h : r.next = (some span, s)) : s.Sound ∧ r.columns = span.columns ++ s.columns := by
  obtain ⟨t, run, u, hopen, hskip, htake, -, rfl, rfl⟩ := next_cases h
  obtain ⟨ht, htskip, htahead⟩ := skipColumns?_ahead hr hskip
  obtain ⟨hrun, hu, huskip, huahead⟩ := takeRun?_ahead ht htskip htake
  have hremaining := (takeRun?_remaining htake).trans (skipColumns?_remaining hskip)
  refine ⟨⟨hu.pending_sound, hu.pending_skip⟩, ?_⟩
  rw [columns, if_neg (Bool.eq_false_iff.mp hopen), ← htahead, huahead, ← hremaining,
    List.take_append, Run.length_columns hrun, Run.columns_span]
  congr 1
  -- behind the last run, and where the window is full, the next reader has ended
  have hcount : u.remaining - min run.length u.remaining = u.remaining - run.length := by omega
  rw [columns, hcount]
  dsimp only
  cases hlast : run.last with
  | true => rw [if_pos rfl, List.take_nil, Bool.true_or, if_pos rfl]
  | false =>
    rw [if_neg Bool.false_ne_true, Bool.false_or]
    by_cases hfull : u.remaining - run.length = 0
    · rw [hfull, List.take_zero, if_pos BEq.rfl]
    · rw [if_neg (by simpa using hfull), huskip, List.drop_zero]
      rfl

theorem columns_of_next_none {r s : RowReader} (hr : r.Sound) (h : r.next = (none, s)) :
    r.columns = [] := by
  unfold next at h
  split at h
  · rename_i hended
    rw [columns, if_pos hended]
  rename_i hopen
  rw [columns, if_neg hopen]
  split at h
  · rename_i hskip
    rw [ahead_of_skipColumns?_none hr hskip, List.take_nil]
  rename_i t hskip
  obtain ⟨ht, htskip, htahead⟩ := skipColumns?_ahead hr hskip
  rw [← htahead]
  split at h
  · rename_i htake
    rw [ahead_of_takeRun?_none htake, List.take_nil]
  rename_i run u htake
  obtain ⟨hrun, _, _, huahead⟩ := takeRun?_ahead ht htskip htake
  split at h
  · rename_i hempty
    have hnone := List.eq_nil_of_length_eq_zero ((Run.length_columns hrun).trans hempty)
    rw [huahead, hnone, hrun.empty_last hempty, if_pos rfl, List.nil_append, List.take_nil]
  · cases h

/-- The spans of a reader say its columns. -/
theorem columns_spans {r : RowReader} (hr : r.Sound) :
    r.spans.flatMap Span.columns = r.columns := by
  fun_induction spans r with
  | case1 r s h => rw [columns_of_next_none hr h, List.flatMap_nil]
  | case2 r span s h ih =>
    obtain ⟨hs, hcolumns⟩ := next_columns hr h
    rw [List.flatMap_cons, ih hs, hcolumns]

theorem columns_start (stream : List UInt8) (skip width : Nat) :
    (start stream skip width).columns = ((Column.ofRow 0 stream).drop skip).take width := by
  by_cases hwidth : width = 0
  · rw [columns, if_pos (by simpa [start] using hwidth), hwidth, List.take_zero]
  · rw [columns, if_neg (by simpa [start] using hwidth)]
    rfl

/-- Reading a window of a row gives the columns of the row that lie in the window. -/
theorem spans_window (stream : List UInt8) (skip width : Nat) :
    (start stream skip width).spans.flatMap Span.columns =
      ((Column.ofRow 0 stream).drop skip).take width := by
  calc (start stream skip width).spans.flatMap Span.columns
      = (start stream skip width).columns := columns_spans (start_sound stream skip width)
    _ = ((Column.ofRow 0 stream).drop skip).take width := columns_start stream skip width

/-- Two extends, a solid run of 33 columns, two columns without coverage, and a mixed run of four
that ends after two. -/
def ribbon : List UInt8 := [8, 4, 2, 5, 27, 7, 9]

/-- The second extend counts, and only for the solid run; and nothing is read behind a mark. -/
theorem spans_window_ribbon :
    (start ribbon 31 5).spans.flatMap Span.columns =
      [.solid, .solid, .transparent, .transparent, .covered 7] ∧
    (start ribbon 36 5).spans.flatMap Span.columns = [.covered 9] ∧
    (start [6, 1] 0 5).spans.flatMap Span.columns = [.solid] :=
  ⟨(spans_window ribbon 31 5).trans (by cbv), (spans_window ribbon 36 5).trans (by cbv),
    (spans_window [6, 1] 0 5).trans (by cbv)⟩

end RowReader

end Scanline
