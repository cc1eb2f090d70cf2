import Scanline.Pixmap.Stamp
import Scanline.Proofs.Glyph.Reader
import Scanline.Proofs.Painter.Tinted
/-! Spans on a row. Solid spans are fills and coverage is a tint, but a row of pixels only tells
the coverage of its columns: it is painted as by one walk, with a byte of coverage for each
pixel. -/
namespace Scanline

@[simp] theorem ofByte_coverNone : Weight.ofByte coverNone = 0 := rfl

@[simp] theorem ofByte_coverFull : Weight.ofByte coverFull = Weight.full := rfl

@[simp] theorem deposit_none (old : UInt8) : deposit coverNone old = old := by
  by_cases hold : old = coverNone
  · rw [deposit, if_pos hold, hold]
  · simp [deposit, hold]

@[simp] theorem deposit_full (old : UInt8) : deposit coverFull old = coverFull := by
  by_cases hold : old = coverNone
  · rw [deposit, if_pos hold]
  · simp [deposit, hold]

namespace Span

def bytes (s : Span) : List UInt8 := s.columns.map Column.coverage

@[simp] theorem bytes_transparent (count : Nat) :
    (transparent count).bytes = List.replicate count coverNone := List.map_replicate

@[simp] theorem bytes_solid (count : Nat) : (solid count).bytes = List.replicate count coverFull :=
  List.map_replicate

@[simp] theorem bytes_coverage (bytes : List UInt8) : (coverage bytes).bytes = bytes := by
  rw [Span.bytes, columns, List.map_map]
  exact List.map_id _

@[simp] theorem length_bytes (s : Span) : s.bytes.length = s.length := by
  cases s with
  | transparent count => simp [length]
  | solid count => simp [length]
  | coverage bytes => simp [length]

theorem bytes_flatMap (spans : List Span) :
    spans.flatMap bytes = (spans.flatMap columns).map Column.coverage := by
  rw [List.map_flatMap]
  rfl

theorem mark_eq_zipPaint {s : Span} {row : List UInt8} (hrow : row.length = s.length) :
    s.mark row = some (Row.zipPaint 1 (fun c => List.map (deposit c)) s.bytes row) := by
  have hlen := hrow.trans s.length_bytes.symm
  cases s with
  | transparent count =>
    rw [mark, Row.zipPaint_eq_self]
    intro c hc px _
    rw [bytes_transparent] at hc
    rw [List.eq_of_mem_replicate hc, funext deposit_none, List.map_id']
  | solid count =>
    rw [Span.length] at hrow
    rw [mark, if_pos hrow, Row.zipPaint_one _ hlen, bytes_solid]
    congr 1
    have hzip : (List.zipWith deposit (List.replicate count coverFull) row).length = count := by
      rw [List.length_zipWith, List.length_replicate, hrow, Nat.min_self]
    apply List.ext_getElem (by rw [hzip, List.length_replicate])
    intro i hi hi'
    rw [List.getElem_zipWith, List.getElem_replicate, deposit_full]
  | coverage bytes =>
    rw [Span.length] at hrow
    rw [mark, if_pos hrow, Row.zipPaint_one _ hlen, bytes_coverage]

theorem markAll_eq_zipPaint {spans : List Span} {row : List UInt8}
    (hrow : (spans.flatMap bytes).length ≤ row.length) :
    markAll spans row =
      some (Row.zipPaint 1 (fun c => List.map (deposit c)) (spans.flatMap bytes) row) := by
  induction spans generalizing row with
  | nil => rfl
  | cons s spans ih =>
    rw [List.flatMap_cons, List.length_append, length_bytes] at hrow
    have hfront : (row.take s.length).length = s.length := by
      rw [List.length_take]
      omega
    have hback : (spans.flatMap bytes).length ≤ (row.drop s.length).length := by
      rw [List.length_drop]
      omega
    have hfit : s.bytes.length * 1 ≤ row.length := by
      rw [length_bytes]
      omega
    have hcut := Row.zipPaint_append (fun c => List.map (deposit c)) s.bytes
      (spans.flatMap bytes) hfit
    rw [length_bytes, Nat.mul_one] at hcut
    rw [markAll, mark_eq_zipPaint hfront, ih hback, List.flatMap_cons, hcut]
    rfl

variable {p : FlatPainter} {alpha : UInt8}

theorem paint_eq_zipPaint (hrgb : p.family = .rgb → p.shape.colors = 3)
    (hsize : Row.Walkable p.shape.size) (halpha : p.color[p.shape.colors]? = some alpha)
    {s : Span} {row : List UInt8} (hrow : s.length * p.shape.size ≤ row.length) :
    s.paint p p row = some (Row.zipPaint p.shape.size (p.cover alpha) s.bytes row) := by
  cases s with
  | transparent count =>
    rw [paint, Row.zipPaint_eq_self]
    intro c hc px hpx
    rw [bytes_transparent] at hc
    rw [List.eq_of_mem_replicate hc]
    exact FlatPainter.cover_uncovered halpha hpx
  | solid count =>
    rw [Span.length] at hrow
    rw [paint, FlatPainter.fill_eq_cover hrgb hsize halpha hrow, bytes_solid]
    rfl
  | coverage bytes =>
    rw [paint, FlatPainter.tint_eq_cover hrgb hsize halpha, List.take_length, bytes_coverage]

theorem paintAll_eq_zipPaint (hrgb : p.family = .rgb → p.shape.colors = 3)
    (hsize : Row.Walkable p.shape.size) (halpha : p.color[p.shape.colors]? = some alpha)
    {spans : List Span} {row : List UInt8}
    (hrow : (spans.flatMap bytes).length * p.shape.size ≤ row.length) :
    paintAll p p p.shape.size spans row =
      some (Row.zipPaint p.shape.size (p.cover alpha) (spans.flatMap bytes) row) := by
  induction spans generalizing row with
  | nil => rfl
  | cons s spans ih =>
    rw [List.flatMap_cons, List.length_append, length_bytes, Nat.add_mul] at hrow
    have hspan : s.bytes.length * p.shape.size ≤ row.length := by
      rw [length_bytes]
      omega
    have hcover : ∀ c ∈ s.bytes, ∀ dst : List UInt8, dst.length = p.shape.size →
        (p.cover alpha c dst).length = p.shape.size :=
      fun c _ _ hdst => FlatPainter.length_cover halpha c hdst
    have hback : (spans.flatMap bytes).length * p.shape.size ≤
        (row.drop (s.length * p.shape.size)).length := by
      rw [List.length_drop]
      omega
    have hpaint := paint_eq_zipPaint hrgb hsize halpha (by rw [← length_bytes]; exact hspan)
    have htake := Row.take_zipPaint hcover hspan
    have hdrop := Row.drop_zipPaint hcover hspan
    have hcut := Row.zipPaint_append (p.cover alpha) s.bytes (spans.flatMap bytes) hspan
    rw [length_bytes] at htake hdrop hcut
    rw [paintAll, hpaint, Option.bind_eq_bind, Option.bind_some, htake, hdrop, ih hback,
      List.flatMap_cons, hcut]
    rfl

end Span

namespace Glyph

def columns (g : Glyph) (y : Nat) : List Column := (g.row? y).elim [] (Column.ofRow 0)

theorem coverage_eq (g : Glyph) (y x : Nat) :
    g.coverage y x = (g.columns y)[x]?.elim coverNone Column.coverage := by
  rw [coverage, columns]
  cases g.row? y with
  | none => rfl
  | some row => rfl

theorem columns_reader (g : Glyph) (y skip width : Nat) :
    (g.reader y skip width).spans.flatMap Span.columns =
      ((g.columns y).drop skip).take width := by
  rw [reader, columns]
  cases g.row? y with
  | none =>
    dsimp only [Option.elim_none]
    rw [RowReader.columns_spans (RowReader.start_sound _ _ _), RowReader.columns_start,
      List.take_zero, List.drop_nil, List.take_nil]
  | some row =>
    dsimp only [Option.elim_some]
    rw [RowReader.columns_spans (RowReader.start_sound _ _ _), RowReader.columns_start]

def window (g : Glyph) (y skip width : Nat) : List UInt8 :=
  (g.reader y skip width).spans.flatMap Span.bytes

theorem window_eq (g : Glyph) (y skip width : Nat) :
    g.window y skip width = (((g.columns y).drop skip).take width).map Column.coverage := by
  rw [window, Span.bytes_flatMap, columns_reader]

theorem length_window_le (g : Glyph) (y skip width : Nat) :
    (g.window y skip width).length ≤ width := by
  rw [window_eq, List.length_map, List.length_take]
  exact Nat.min_le_left _ _

theorem getElem?_window (g : Glyph) (y skip : Nat) {width i : Nat} (hi : i < width) :
    (g.window y skip width)[i]?.getD coverNone = g.coverage y (skip + i) := by
  rw [window_eq, coverage_eq, List.getElem?_map, List.getElem?_take_of_lt hi,
    List.getElem?_drop]
  cases (g.columns y)[skip + i]? with
  | none => rfl
  | some column => rfl

end Glyph

end Scanline
