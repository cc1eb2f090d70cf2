import Mathlib.Data.Bool.Basic
import Scanline.Glyph.Writer
import Scanline.Proofs.Glyph.Progress
/-! Writing and reading. A written span stands in its row as one run, and bytes of coverage that
look like headers are passed over with it, so a reader that has room for a row hands its spans out
as they were written. Behind the mark of the last run it reads nothing more. -/
namespace Scanline

namespace Header

def Fits : Header → Prop
  | .extend high => high < 64
  | .transparent low => low < 64
  | .solid low _ | .mixed low _ => low < 32

theorem ofByte_toByte {h : Header} (hfits : h.Fits) : ofByte h.toByte = h := by
  cases h with
  | extend high =>
    have hlt : high < 64 := hfits
    have hbyte : (toByte (.extend high)).toNat = high * 4 :=
      UInt8.toNat_ofNat_of_lt' (by simp only [UInt8.size]; omega)
    have hhigh : high * 4 / 4 = high := by omega
    simp only [ofByte, hbyte, hhigh]
    rw [if_pos (by omega)]
  | transparent low =>
    have hlt : low < 64 := hfits
    have hbyte : (toByte (.transparent low)).toNat = low * 4 + 1 :=
      UInt8.toNat_ofNat_of_lt' (by simp only [UInt8.size]; omega)
    have hlow : (low * 4 + 1) / 4 = low := by omega
    simp only [ofByte, hbyte, hlow]
    rw [if_neg (by omega), if_pos (by omega)]
  | solid low last =>
    have hlt : low < 32 := hfits
    have hmark := last.toNat_le
    have hbyte : (toByte (.solid low last)).toNat = low * 8 + last.toNat * 4 + 2 :=
      UInt8.toNat_ofNat_of_lt' (by simp only [UInt8.size]; omega)
    have hlow : (low * 8 + last.toNat * 4 + 2) / 8 = low := by omega
    have hlast : (low * 8 + last.toNat * 4 + 2) / 4 % 2 = last.toNat := by omega
    simp only [ofByte, hbyte, hlow, hlast, Bool.toNat_beq_one]
    rw [if_neg (by omega), if_neg (by omega), if_pos (by omega)]
  | mixed low last =>
    have hlt : low < 32 := hfits
    have hmark := last.toNat_le
    have hbyte : (toByte (.mixed low last)).toNat = low * 8 + last.toNat * 4 + 3 :=
      UInt8.toNat_ofNat_of_lt' (by simp only [UInt8.size]; omega)
    have hlow : (low * 8 + last.toNat * 4 + 3) / 8 = low := by omega
    have hlast : (low * 8 + last.toNat * 4 + 3) / 4 % 2 = last.toNat := by omega
    simp only [ofByte, hbyte, hlow, hlast, Bool.toNat_beq_one]
    rw [if_neg (by omega), if_neg (by omega), if_neg (by omega)]

end Header

namespace Span

instance : (s : Span) → Decidable s.Writable
  | .transparent _ | .solid _ | .coverage _ => inferInstanceAs (Decidable (_ ∧ _))

def marked (last : Bool) : Span → Bool
  | .transparent _ => false
  | .solid _ | .coverage _ => last

def EndMarked (last : Bool) (spans : List Span) : Prop := ∃ s ∈ spans.getLast?, s.marked last = true

@[simp] theorem marked_false (s : Span) : s.marked false = false := by
  cases s <;> rfl

theorem Writable.length_pos {s : Span} (h : s.Writable) : 0 < s.length := by
  cases s <;> exact h.1

theorem writeAll_cons (last : Bool) (s : Span) (spans : List Span) :
    writeAll last (s :: spans) = s.write (last && spans.isEmpty) ++ writeAll last spans := by
  cases spans with
  | nil => rw [writeAll, writeAll, List.append_nil, List.isEmpty_nil, Bool.and_true]
  | cons t spans => rw [writeAll, List.isEmpty_cons, Bool.and_false]; exact nofun

theorem EndMarked.of_cons {last : Bool} {s : Span} {spans : List Span}
    (h : EndMarked last (s :: spans)) (hs : s.marked (last && spans.isEmpty) = false) :
    EndMarked last spans := by
  obtain ⟨t, ht, hmarked⟩ := h
  cases spans with
  | nil =>
    obtain rfl : s = t := Option.some.inj ht
    rw [List.isEmpty_nil, Bool.and_true, hmarked] at hs
    cases hs
  | cons u spans => exact ⟨t, ht, hmarked⟩

end Span

namespace Run

theorem read?_extend {high : Nat} (hhigh : high < 64) (bytes : List UInt8) (pos : Nat) :
    read? (Span.extend high ++ bytes) pos 0 =
      read? bytes (pos + (Span.extend high).length) high := by
  by_cases hzero : high = 0
  · rw [Span.extend, if_pos hzero, hzero]
    rfl
  · have hfits : (Header.extend high).Fits := hhigh
    rw [Span.extend, if_neg hzero, List.singleton_append, read?, Header.ofByte_toByte hfits]
    rfl

/-- A written span is read as one run, whatever follows it. -/
theorem read?_write {s : Span} (hs : s.Writable) (last : Bool) {stream rest : List UInt8}
    {pos : Nat} (hstream : stream.drop pos = s.write last ++ rest) :
    ∃ run, read? (s.write last ++ rest) pos 0 = some (run, pos + (s.write last).length) ∧
      run.length = s.length ∧ run.last = s.marked last ∧ run.span stream s.length = s := by
  cases s with
  | transparent count =>
    obtain ⟨hpos, hmax⟩ := hs
    have hcount : (count - 1) % 64 + 1 + (count - 1) / 64 * 64 = count := by omega
    have hfits : (Header.transparent ((count - 1) % 64)).Fits := Nat.mod_lt _ (by decide)
    refine ⟨⟨.transparent, count, false, pos + (Span.write last (.transparent count)).length⟩, ?_,
      rfl, rfl, rfl⟩
    rw [Span.write, List.append_assoc, read?_extend (by omega), List.singleton_append, read?,
      Header.ofByte_toByte hfits, List.length_append, ← Nat.add_assoc]
    dsimp only
    rw [hcount]
    rfl
  | solid count =>
    obtain ⟨hpos, hmax⟩ := hs
    have hcount : (count - 1) % 32 + 1 + (count - 1) / 32 * 32 = count := by omega
    have hfits : (Header.solid ((count - 1) % 32) last).Fits := Nat.mod_lt _ (by decide)
    refine ⟨⟨.solid, count, last, pos + (Span.write last (.solid count)).length⟩, ?_, rfl, rfl, rfl⟩
    rw [Span.write, List.append_assoc, read?_extend (by omega), List.singleton_append, read?,
      Header.ofByte_toByte hfits, List.length_append, ← Nat.add_assoc]
    dsimp only
    rw [hcount]
    rfl
  | coverage bytes =>
    obtain ⟨hpos, hmax⟩ := hs
    have hcount : (bytes.length - 1) % 32 + 1 + (bytes.length - 1) / 32 * 32 = bytes.length := by
      omega
    have hfits : (Header.mixed ((bytes.length - 1) % 32) last).Fits := Nat.mod_lt _ (by decide)
    have hroom : ¬ (bytes ++ rest).length < bytes.length := by
      rw [List.length_append]
      omega
    have hhead (high : Nat) (header : UInt8) :
        Span.extend high ++ [header] ++ bytes ++ rest =
          Span.extend high ++ header :: (bytes ++ rest) := by
      rw [List.append_assoc, List.append_assoc, List.singleton_append]
    rw [Span.write, hhead] at hstream
    refine ⟨⟨.mixed, bytes.length, last,
      pos + (Span.extend ((bytes.length - 1) / 32)).length + 1⟩, ?_, rfl, rfl, ?_⟩
    · rw [Span.write, hhead, read?_extend (by omega), read?, Header.ofByte_toByte hfits]
      dsimp only
      rw [hcount, if_neg hroom]
      simp only [List.length_append, List.length_singleton, Nat.add_assoc]
    · simp only [span, Span.length, Nat.add_assoc]
      rw [← List.drop_drop, hstream, ← List.drop_drop, List.drop_left, List.drop_one,
        List.tail_cons, List.take_left]

end Run

namespace RowReader

/-- A reader with these bytes ahead of it, that has nothing to skip and no run that it keeps. -/
structure Facing (r : RowReader) (bytes : List UInt8) : Prop where
  pending : r.pending = none
  skip : r.skip = 0
  ahead : r.stream.drop r.pos = bytes
  ended : r.ended = (r.remaining == 0)

theorem facing_start (stream : List UInt8) (width : Nat) : (start stream 0 width).Facing stream :=
  ⟨rfl, rfl, rfl, rfl⟩

variable {r : RowReader} {last : Bool} {rest : List UInt8}

theorem spans_of_ended (h : r.ended = true) : r.spans = [] := spans_of_none (next_of_ended h)

theorem Facing.spans_nil (hr : r.Facing []) : r.spans = [] := by
  cases hended : r.ended with
  | true => exact spans_of_ended hended
  | false =>
    have hskip : r.skipColumns? = some r := by rw [skipColumns?, if_pos hr.skip]
    have htake : r.takeRun? = none := by
      rw [takeRun?, hr.pending, readRun?, hr.ahead]
      rfl
    have hnext : r.next = (none, r.finish) := by
      simp only [next, hended, hskip, htake, Bool.false_eq_true, if_false]
    exact spans_of_none hnext

def behind (r : RowReader) (s : Span) (last : Bool) : RowReader :=
  { r with
    pos := r.pos + (s.write last).length
    remaining := r.remaining - s.length
    ended := s.marked last || r.remaining - s.length == 0 }

/-- A reader that faces a written span, and has room for it, hands it out whole. -/
theorem Facing.next_eq {s : Span} (hr : r.Facing (s.write last ++ rest)) (hs : s.Writable)
    (hroom : s.length ≤ r.remaining) : r.next = (some s, r.behind s last) := by
  have hpos := hs.length_pos
  obtain ⟨run, hread, hlength, hlast, hspan⟩ := Run.read?_write hs last hr.ahead
  have hopen : r.ended = false := by
    rw [hr.ended, beq_eq_false_iff_ne]
    omega
  have hskip : r.skipColumns? = some r := by rw [skipColumns?, if_pos hr.skip]
  have htake : r.takeRun? = some (run, { r with pos := r.pos + (s.write last).length }) := by
    rw [takeRun?, hr.pending, readRun?, hr.ahead, hread]
    rfl
  have hnonempty : run.length ≠ 0 := by omega
  have hcount : min run.length r.remaining = s.length := by omega
  simp only [next, hopen, hskip, htake, hnonempty, hcount, hlast, hspan, Bool.false_eq_true,
    if_false, behind]

theorem Facing.behind {s : Span} (hr : r.Facing (s.write last ++ rest))
    (hmarked : s.marked last = false) : (r.behind s last).Facing rest := by
  refine ⟨hr.pending, hr.skip, ?_, ?_⟩
  · simp only [RowReader.behind]
    rw [← List.drop_drop, hr.ahead, List.drop_left]
  · simp only [RowReader.behind, hmarked, Bool.false_or]

theorem Facing.spans_eq {spans : List Span} (hspans : ∀ s ∈ spans, s.Writable)
    (hrest : rest = [] ∨ Span.EndMarked last spans)
    (hr : r.Facing (Span.writeAll last spans ++ rest))
    (hroom : Span.totalLength spans ≤ r.remaining) : r.spans = spans := by
  induction spans generalizing r with
  | nil =>
    obtain rfl : rest = [] := hrest.resolve_right nofun
    exact hr.spans_nil
  | cons s spans ih =>
    rw [List.forall_mem_cons] at hspans
    rw [Span.totalLength] at hroom
    rw [Span.writeAll_cons, List.append_assoc] at hr
    rw [spans_of_some (hr.next_eq hspans.1 (by omega))]
    congr 1
    cases hmarked : s.marked (last && spans.isEmpty) with
    | true =>
      have hempty : spans = [] := by
        cases spans with
        | nil => rfl
        | cons t spans => simp at hmarked
      rw [hempty, spans_of_ended]
      simp only [RowReader.behind, hempty ▸ hmarked, Bool.true_or]
    | false =>
      refine ih hspans.2 ?_ (hr.behind hmarked) ?_
      · exact hrest.imp_right fun h => h.of_cons hmarked
      · simp only [RowReader.behind]
        omega

/-- Reading a written row gives its spans, one for each run, where the window has room for the row.
Behind the mark of the last run any bytes may follow. -/
theorem reader_inverts_writer {spans : List Span} (hspans : ∀ s ∈ spans, s.Writable)
    {width : Nat} (hwidth : Span.totalLength spans ≤ width) (last : Bool) :
    (start (Span.writeAll last spans) 0 width).spans = spans ∧
    (Span.EndMarked last spans →
      ∀ rest, (start (Span.writeAll last spans ++ rest) 0 width).spans = spans) := by
  constructor
  · have hfacing := facing_start (Span.writeAll last spans ++ []) width
    rw [List.append_nil] at hfacing
    exact Facing.spans_eq hspans (Or.inl rfl) (by rwa [List.append_nil]) hwidth
  · intro hmarked rest
    exact Facing.spans_eq hspans (Or.inr hmarked) (facing_start _ width) hwidth

/-- Coverage that looks like headers, a length with all its bits set, and bytes behind the end. -/
theorem reader_inverts_writer_headers :
    (∀ s ∈ [Span.transparent 65, .coverage [6, 0, 22], .solid 2048], s.Writable) ∧
    Span.totalLength [.transparent 65, .coverage [6, 0, 22], .solid 2048] ≤ 3000 ∧
    Span.EndMarked true [.transparent 65, .coverage [6, 0, 22], .solid 2048] ∧
    Span.writeAll true [.transparent 65, .coverage [6, 0, 22], .solid 2048] =
      [4, 1, 19, 6, 0, 22, 252, 254] ∧
    (start [4, 1, 19, 6, 0, 22, 252, 254] 0 3000).spans =
      [.transparent 65, .coverage [6, 0, 22], .solid 2048] ∧
    (start [4, 1, 19, 6, 0, 22, 252, 254, 7, 22] 0 3000).spans =
      [.transparent 65, .coverage [6, 0, 22], .solid 2048] := by
  have hspans : ∀ s ∈ [Span.transparent 65, .coverage [6, 0, 22], .solid 2048], s.Writable := by
    decide
  have hwidth : Span.totalLength [.transparent 65, .coverage [6, 0, 22], .solid 2048] ≤ 3000 := by
    decide
  have hmarked : Span.EndMarked true [.transparent 65, .coverage [6, 0, 22], .solid 2048] :=
    ⟨.solid 2048, rfl, rfl⟩
  have hbytes : Span.writeAll true [.transparent 65, .coverage [6, 0, 22], .solid 2048] =
      [4, 1, 19, 6, 0, 22, 252, 254] := by decide
  obtain ⟨hread, hfollowed⟩ := reader_inverts_writer hspans hwidth true
  have hrest := hfollowed hmarked [7, 22]
  rw [hbytes] at hread hrest
  exact ⟨hspans, hwidth, hmarked, hbytes, hread, hrest⟩

end RowReader

end Scanline
