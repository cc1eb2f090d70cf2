import Scanline.Proofs.Painter.Masked
import Scanline.Proofs.Painter.Stroke
/-! How far painters get. They paint the pixels that the row and all operands hold and leave what
is behind them. Two painters ask for more: the tiled fill for all of its pixels, and the general
walk for each pixel that its mask covers. -/
namespace Scanline

namespace Row

def Lacks (size : Nat) (row : List UInt8) (i : Nat) : Prop := row.length < (i + 1) * size

instance (size : Nat) (row : List UInt8) (i : Nat) : Decidable (Lacks size row i) :=
  inferInstanceAs (Decidable (_ < _))

variable {size i : Nat} {row : List UInt8}

theorem lacks_zero : Lacks size row 0 ↔ (row.take size).length ≠ size := by
  rw [Lacks, List.length_take]
  omega

theorem lacks_drop : Lacks size (row.drop size) i ↔ Lacks size row (i + 1) := by
  have hle : size ≤ (i + 1) * size := Nat.le_mul_of_pos_left _ i.succ_pos
  rw [Lacks, Lacks, List.length_drop, Nat.succ_mul (i + 1)]
  omega

theorem exists_getElem?_cons {m : UInt8} {mask : List UInt8} {P : Nat → UInt8 → Prop} :
    (∃ i m', (m :: mask)[i]? = some m' ∧ P i m') ↔
      P 0 m ∨ ∃ i m', mask[i]? = some m' ∧ P (i + 1) m' := by
  constructor
  · rintro ⟨i, m', hm, h⟩
    cases i with
    | zero =>
      cases hm
      exact Or.inl h
    | succ i => exact Or.inr ⟨i, m', hm, h⟩
  · rintro (h | ⟨i, m', hm, h⟩)
    · exact ⟨0, m, rfl, h⟩
    · exact ⟨i + 1, m', hm, h⟩

theorem not_lacks {count : Nat} (hrow : count * size ≤ row.length) (hi : i < count) :
    ¬ Lacks size row i :=
  Nat.not_lt.mpr (Nat.le_trans (Nat.mul_le_mul_right size hi) hrow)

end Row

/-- How many pixels of this shape a source row holds. Without samples it is never used up. -/
def Shape.held (shape : Shape) (count : Nat) (src : List UInt8) : Nat :=
  if shape.size = 0 then count else src.length / shape.size

theorem Shape.length_sourcePixels (shape : Shape) (count : Nat) (src : List UInt8) :
    (shape.sourcePixels count src).length = shape.held count src := by
  rw [sourcePixels, held]
  split
  · simp
  · simp

theorem Shape.not_lacks_of_held {shape : Shape} {count i : Nat} {src : List UInt8}
    (h : count ≤ shape.held count src) (hi : i < count) : ¬ Row.Lacks shape.size src i := by
  rw [held] at h
  split at h
  · rename_i hzero
    rw [Row.Lacks, hzero, Nat.mul_zero]
    exact Nat.not_lt_zero _
  · exact Row.not_lacks ((Nat.le_div_iff_mul_le (Nat.pos_of_ne_zero ‹_›)).mp h) hi

def Brush.held (colors count : Nat) : Brush → Nat
  | .fill _ => count
  | .tint _ mask => mask.length
  | .overlay _ srcAlpha src => (Shape.mk colors srcAlpha).held count src
  | .masked srcAlpha src mask => min ((Shape.mk colors srcAlpha).held count src) mask.length

namespace Stroke

def Holds (s : Stroke) (row : List UInt8) : Prop :=
  s.count * s.shape.size ≤ row.length ∧ s.count ≤ s.brush.held s.shape.colors s.count

instance (s : Stroke) (row : List UInt8) : Decidable (s.Holds row) :=
  inferInstanceAs (Decidable (_ ∧ _))

def reach (s : Stroke) (row : List UInt8) : Nat :=
  min (min s.count (s.brush.held s.shape.colors s.count)) (row.length / s.shape.size)

/-- What no painter gets through: an opaque tiled fill that the row does not hold, and, in the
families that walk pixel by pixel, a mask that is too short or covers a pixel that is not there. -/
def Overruns (s : Stroke) (family : Family) (row : List UInt8) : Prop :=
  match s.brush with
  | .fill color => family = .rgb ∧ s.shape.alpha = false ∧ color[s.shape.colors]? = some 255 ∧
      8 ≤ s.count ∧ row.length < 3 * s.count
  | .tint _ _ | .overlay _ _ _ => False
  | .masked srcAlpha src mask => (family = .alphaOnly ∨ family = .general) ∧
      (mask.length < s.count ∨ ∃ i < s.count, ∃ m, mask[i]? = some m ∧ m ≠ 0 ∧
        (Row.Lacks s.shape.size row i ∨ Row.Lacks (Shape.mk s.shape.colors srcAlpha).size src i))

end Stroke

namespace FlatPainter

variable {p : FlatPainter} {alpha : UInt8} {row : List UInt8} {count : Nat}

theorem tile_eq_none {rgb : List UInt8} (hrow : row.length < 3 * count) :
    tile rgb count row = none := by
  cases htile : tile rgb count row with
  | none => rfl
  | some out =>
    have := le_length_of_tile htile
    omega

theorem fill_eq_none_iff (hrgb : p.family = .rgb → p.shape.colors = 3)
    (hsize : Row.Walkable p.shape.size) (halpha : p.color[p.shape.colors]? = some alpha) :
    p.fill row count = none ↔ p.family = .rgb ∧ p.shape.alpha = false ∧ alpha = 255 ∧
      8 ≤ count ∧ row.length < 3 * count := by
  constructor
  · intro h
    by_cases hrow : p.family = .rgb → p.shape.alpha = false → alpha = 255 → 8 ≤ count →
        count * 3 ≤ row.length
    · rw [fill_eq_zipPaint hrgb hsize halpha hrow] at h
      cases h
    · simp only [Classical.not_imp, Nat.not_le, Nat.mul_comm count] at hrow
      exact hrow
  · rintro ⟨hfamily, hdst, hfull, hcount, hrow⟩
    rw [fill, halpha, Option.bind_eq_bind, Option.bind_some, if_neg (Bool.eq_false_iff.mp hdst),
      if_pos hfull, if_pos ⟨hfamily, hcount⟩]
    exact tile_eq_none hrow

end FlatPainter

namespace SourcePainter

variable {p : SourcePainter} {row src mask : List UInt8} {count : Nat}

theorem overlay_ne_none {layer : Opacity}
    (h : layer = .clear ∨ (Row.Walkable p.src.size ∧ Row.Walkable p.dst.size)) :
    p.overlay layer row src count ≠ none := by
  rw [overlay]
  split
  · exact Option.some_ne_none _
  · obtain ⟨hsrc, hdst⟩ := h.resolve_left ‹_›
    rw [Row.pixels?, if_pos hsrc, Option.bind_eq_bind, Option.bind_some, Row.zipPaint?,
      if_pos hdst]
    exact Option.some_ne_none _

/-- The general walk breaks off exactly where the mask covers a pixel that is not there. -/
theorem walk_eq_none_iff : p.walk mask row src = none ↔ ∃ i m, mask[i]? = some m ∧ m ≠ 0 ∧
    (Row.Lacks p.dst.size row i ∨ Row.Lacks p.src.size src i) := by
  induction mask generalizing row src with
  | nil => simp [walk]
  | cons m mask ih =>
    -- pixel 0 is the one at hand, and the others are those of the rows behind it
    have hrest := @ih (row.drop p.dst.size) (src.drop p.src.size)
    simp only [Row.lacks_drop] at hrest
    rw [Row.exists_getElem?_cons, ← hrest, Row.lacks_zero, Row.lacks_zero]
    simp only [walk]
    by_cases hm : m = 0
    · rw [if_pos hm, Option.map_eq_none_iff]
      exact ⟨Or.inr, fun h => h.resolve_left fun hzero => hzero.1 hm⟩
    rw [if_neg hm]
    by_cases hfull : (row.take p.dst.size).length = p.dst.size ∧
        (src.take p.src.size).length = p.src.size
    · rw [if_pos hfull, Option.map_eq_none_iff]
      exact ⟨Or.inr, fun h => h.resolve_left fun hshort =>
        hshort.2.elim (absurd hfull.1) (absurd hfull.2)⟩
    · rw [if_neg hfull]
      exact ⟨fun _ => Or.inl ⟨hm, Classical.not_and_iff_not_or_not.mp hfull⟩, fun _ => rfl⟩

theorem masked_eq_none_iff (hf : p.family = .alphaOnly ∨ p.family = .general) :
    p.masked row src mask count = none ↔ mask.length < count ∨
      ∃ i < count, ∃ m, mask[i]? = some m ∧ m ≠ 0 ∧
        (Row.Lacks p.dst.size row i ∨ Row.Lacks p.src.size src i) := by
  rw [masked_eq_walk hf, Row.slice?, Nat.zero_add, List.drop_zero]
  split
  · rename_i hle
    rw [Option.bind_some, walk_eq_none_iff]
    constructor
    · rintro ⟨i, m, hm, hrest⟩
      obtain ⟨hi, hm⟩ := Row.getElem?_take_eq_some.mp hm
      exact Or.inr ⟨i, hi, m, hm, hrest⟩
    · rintro (hlt | ⟨i, hi, m, hm, hrest⟩)
      · omega
      · exact ⟨i, m, Row.getElem?_take_eq_some.mpr ⟨hi, hm⟩, hrest⟩
  · exact ⟨fun _ => Or.inl (by omega), fun _ => rfl⟩

end SourcePainter

namespace Stroke

def family (s : Stroke) : Except Failure Family :=
  match s.brush with
  | .fill color => s.families.selectColor .fill s.shape.colors color s.shape.alpha
  | .tint color _ => s.families.selectColor .tint s.shape.colors color s.shape.alpha
  | .overlay _ srcAlpha _ =>
    (s.families.select .overlay s.shape.colors (s.shape.alpha && srcAlpha)).mapError .refused
  | .masked _ _ _ => (s.families.select .masked s.shape.colors s.shape.alpha).mapError .refused

def paintIn (s : Stroke) (family : Family) (row : List UInt8) : Option (List UInt8) :=
  match s.brush with
  | .fill color => FlatPainter.fill ⟨family, s.shape, color⟩ row s.count
  | .tint color mask => FlatPainter.tint ⟨family, s.shape, color⟩ row mask s.count
  | .overlay layer srcAlpha src =>
    SourcePainter.overlay ⟨family, s.shape.colors, s.shape.alpha, srcAlpha⟩ layer row src s.count
  | .masked srcAlpha src mask =>
    SourcePainter.masked ⟨family, s.shape.colors, s.shape.alpha, srcAlpha⟩ row src mask s.count

variable {s : Stroke} {f : Family} {paint : List UInt8 → Option (List UInt8)}
  {row out : List UInt8}

theorem painter_eq (s : Stroke) : s.painter = s.family.map fun f => (f, s.paintIn f) := by
  obtain ⟨families, shape, brush, start, count⟩ := s
  cases brush with
  | fill color =>
    simp only [painter, family, FamilySet.fillPainter]
    cases families.selectColor .fill shape.colors color shape.alpha <;> rfl
  | tint color mask =>
    simp only [painter, family, FamilySet.tintPainter]
    cases families.selectColor .tint shape.colors color shape.alpha <;> rfl
  | overlay layer srcAlpha src =>
    simp only [painter, family, FamilySet.overlayPainter]
    cases families.select .overlay shape.colors (shape.alpha && srcAlpha) <;> rfl
  | masked srcAlpha src mask =>
    simp only [painter, family, FamilySet.maskPainter]
    cases families.select .masked shape.colors shape.alpha <;> rfl

theorem painter_eq_ok_iff :
    s.painter = .ok (f, paint) ↔ s.family = .ok f ∧ paint = s.paintIn f := by
  rw [painter_eq]
  constructor
  · intro h
    cases hf : s.family with
    | error failure =>
      rw [hf] at h
      cases h
    | ok g =>
      rw [hf] at h
      cases h
      exact ⟨rfl, rfl⟩
  · rintro ⟨hf, rfl⟩
    rw [hf]
    rfl

theorem paint_eq_ok_iff : s.paint row = .ok (f, out) ↔ s.start ≤ row.length ∧ s.family = .ok f ∧
    ∃ painted, s.paintIn f (row.drop s.start) = some painted ∧
      out = row.take s.start ++ painted := by
  rw [Stroke.paint]
  constructor
  · intro h
    split at h
    · cases h
    obtain ⟨⟨g, paint⟩, hpainter, h⟩ := Failure.ok_of_bind h
    obtain ⟨painted, hpainted, h⟩ := Failure.ok_of_bind h
    cases h
    obtain ⟨hfamily, rfl⟩ := painter_eq_ok_iff.mp hpainter
    exact ⟨by omega, hfamily, painted, Failure.eq_some_of_orOverrun hpainted, rfl⟩
  · rintro ⟨hstart, hfamily, painted, hpainted, rfl⟩
    rw [if_neg (by omega), painter_eq_ok_iff.mpr ⟨hfamily, rfl⟩]
    show (Failure.orOverrun (s.paintIn f (row.drop s.start))).bind _ = _
    rw [hpainted]
    rfl

def Walks (s : Stroke) (family : Family) : Prop :=
  match s.brush with
  | .fill _ | .tint _ _ => True
  | .overlay layer srcAlpha _ => layer ≠ .clear →
      Row.Walkable (Shape.mk s.shape.colors srcAlpha).size ∧ Row.Walkable s.shape.size
  | .masked srcAlpha _ _ => family ≠ .alphaOnly ∧ family ≠ .general →
      Row.Walkable (Shape.mk s.shape.colors srcAlpha).size ∧ Row.Walkable s.shape.size

theorem walks_of_family (hsize : s.shape.colors < sizeMax) (h : s.family = .ok f) : s.Walks f := by
  obtain ⟨families, shape, brush, start, count⟩ := s
  cases brush with
  | fill color => trivial
  | tint color mask => trivial
  | overlay layer srcAlpha src =>
    intro _
    have hselect := Failure.ok_of_mapError h
    have hboth (h : (shape.alpha && srcAlpha) = true) : shape.alpha = true ∧ srcAlpha = true :=
      Bool.and_eq_true_iff.mp h
    exact ⟨FamilySet.walkable_of_select hselect hsize fun h => (hboth h).2,
      FamilySet.walkable_of_select hselect hsize fun h => (hboth h).1⟩
  | masked srcAlpha src mask =>
    intro hf
    have hpos := FamilySet.colors_pos_of_select (Failure.ok_of_mapError h) hf.1
    exact ⟨Shape.walkable hpos hsize srcAlpha, Shape.walkable hpos hsize shape.alpha⟩

theorem walks_of_paintIn (h : s.paintIn f row = some out) : s.Walks f := by
  obtain ⟨families, shape, brush, start, count⟩ := s
  cases brush with
  | fill color => trivial
  | tint color mask => trivial
  | overlay layer srcAlpha src => exact fun hlayer => SourcePainter.walkable_of_overlay hlayer h
  | masked srcAlpha src mask => exact fun hf => SourcePainter.walkable_of_masked hf h

theorem size_pos_of_family (h : s.family = .ok f) : 0 < s.shape.size := by
  obtain ⟨families, shape, brush, start, count⟩ := s
  cases brush with
  | fill color => exact (FamilySet.selectColor_serves h).2.1.1
  | tint color mask => exact (FamilySet.selectColor_serves h).2.1.1
  | overlay layer srcAlpha src =>
    exact FamilySet.size_pos_of_select (Failure.ok_of_mapError h) fun hboth =>
      (Bool.and_eq_true_iff.mp hboth).1
  | masked srcAlpha src mask => exact FamilySet.size_pos_of_select (Failure.ok_of_mapError h) id

theorem paintIn_eq_none_iff (h : s.family = .ok f) (hwalks : s.Walks f) :
    s.paintIn f row = none ↔ s.Overruns f row := by
  obtain ⟨families, shape, brush, start, count⟩ := s
  cases brush with
  | fill color =>
    obtain ⟨hrgb, hsize, alpha, halpha⟩ := FamilySet.selectColor_serves h
    simp only [Overruns, halpha, Option.some.injEq]
    exact FlatPainter.fill_eq_none_iff (p := ⟨f, shape, color⟩) hrgb hsize halpha
  | tint color mask =>
    obtain ⟨hrgb, hsize, alpha, halpha⟩ := FamilySet.selectColor_serves h
    have hpaint := FlatPainter.tint_eq_zipPaint (p := ⟨f, shape, color⟩) hrgb hsize halpha row
      mask count
    exact iff_of_false (fun hnone => nomatch hpaint.symm.trans hnone) id
  | overlay layer srcAlpha src =>
    refine iff_of_false (SourcePainter.overlay_ne_none ?_) id
    exact Classical.or_iff_not_imp_left.mpr hwalks
  | masked srcAlpha src mask =>
    by_cases hf : f = .alphaOnly ∨ f = .general
    · simp only [Overruns, hf, true_and]
      exact SourcePainter.masked_eq_none_iff (p := ⟨f, shape.colors, shape.alpha, srcAlpha⟩) hf
    · have hspecial := not_or.mp hf
      obtain ⟨hsrc, hdst⟩ := hwalks hspecial
      have hpaint := SourcePainter.masked_special (p := ⟨f, shape.colors, shape.alpha, srcAlpha⟩)
        hspecial hsrc hdst row src mask count
      exact iff_of_false (fun hnone => nomatch hpaint.symm.trans hnone) fun hover => hf hover.1

theorem not_overruns_of_holds (h : s.family = .ok f) (hholds : s.Holds row) :
    ¬ s.Overruns f row := by
  obtain ⟨families, shape, brush, start, count⟩ := s
  obtain ⟨hrow, hheld⟩ := hholds
  cases brush with
  | fill color =>
    rintro ⟨hf, hdst, -, -, hshort⟩
    have hthree : shape.size = 3 := by
      rw [Shape.size, (FamilySet.selectColor_serves h).1 hf, hdst]
      rfl
    dsimp only at hrow hshort
    rw [hthree] at hrow
    omega
  | tint color mask => exact id
  | overlay layer srcAlpha src => exact id
  | masked srcAlpha src mask =>
    obtain ⟨hsrc, hmask⟩ := Nat.le_min.mp hheld
    rintro ⟨-, hshort | ⟨i, hi, m, -, -, hlacks⟩⟩
    · exact Nat.not_lt.mpr hmask hshort
    · exact hlacks.elim (Row.not_lacks hrow hi) (Shape.not_lacks_of_held hsrc hi)

theorem length_meetings (s : Stroke) :
    s.meetings.length = min s.count (s.brush.held s.shape.colors s.count) := by
  obtain ⟨families, shape, brush, start, count⟩ := s
  cases brush with
  | fill color => simp [meetings, Brush.held]
  | tint color mask => simp [meetings, Brush.held]
  | overlay layer srcAlpha src => simp [meetings, Brush.held, Shape.length_sourcePixels]
  | masked srcAlpha src mask =>
    simp only [meetings, Brush.held, List.length_map, List.length_take, List.length_zip,
      Shape.length_sourcePixels, Shape.held]
    split
    · omega
    · rfl

theorem Holds.length_meetings (h : s.Holds row) : s.meetings.length = s.count :=
  (Stroke.length_meetings s).trans (Nat.min_eq_left h.2)

/-- A painter that gets through paints the pixels within reach and no other byte. -/
theorem paintIn_reach (h : s.family = .ok f) (hpaint : s.paintIn f row = some out) :
    out.length = row.length ∧
    (∀ i < s.reach row, ∃ m, s.meetings[i]? = some m ∧
      Row.part out (i * s.shape.size) s.shape.size =
        m.paint (Row.part row (i * s.shape.size) s.shape.size)) ∧
    ∀ b, s.reach row * s.shape.size ≤ b → out[b]? = row[b]? := by
  obtain ⟨rfl, hcolor⟩ := painter_meetings (painter_eq_ok_iff.mpr ⟨h, rfl⟩) hpaint
  have hsize := size_pos_of_family h
  have hlength : ∀ m ∈ s.meetings, ∀ px : List UInt8, px.length = s.shape.size →
      (m.paint px).length = s.shape.size := fun m hm _ => Meeting.length_paint (hcolor m hm)
  have hreach : s.reach row = min s.meetings.length (row.length / s.shape.size) := by
    rw [length_meetings, reach]
  rw [hreach]
  refine ⟨Row.length_zipPaint hlength, ?_, fun b => Row.getElem?_zipPaint_behind hlength hsize⟩
  intro i hi
  obtain ⟨hmeets, hwhole⟩ := Nat.lt_min.mp hi
  have hm := List.getElem?_eq_getElem hmeets
  refine ⟨_, hm, ?_⟩
  rw [Row.part_zipPaint_elim hlength hsize ((Nat.le_div_iff_mul_le hsize).mp hwhole), hm]
  rfl

theorem reach_le_count (s : Stroke) (row : List UInt8) : s.reach row ≤ s.count :=
  Nat.le_trans (Nat.min_le_left _ _) (Nat.min_le_left _ _)

/-- A stroke changes no byte before its start or out of its reach. -/
theorem getElem?_paint_outside (h : s.paint row = .ok (f, out)) {b : Nat}
    (hb : b < s.start ∨ s.start + s.reach (row.drop s.start) * s.shape.size ≤ b) :
    out[b]? = row[b]? := by
  obtain ⟨hstart, hfamily, painted, hpainted, rfl⟩ := paint_eq_ok_iff.mp h
  have hlength := List.length_take_of_le hstart
  rcases hb with hb | hb
  · rw [List.getElem?_append_left (by omega), List.getElem?_take_of_lt hb]
  · rw [List.getElem?_append_right (by omega), hlength,
      (paintIn_reach hfamily hpainted).2.2 _ (by omega), List.getElem?_drop,
      Nat.add_sub_cancel' (by omega)]

theorem paint_of_holds (h : s.family = .ok f) (hwalks : s.Walks f) {front back : List UInt8}
    (hfront : front.length = s.start) (hholds : s.Holds back) :
    s.paint (front ++ back) =
      .ok (f, front ++ Row.zipPaint s.shape.size Meeting.paint s.meetings back) := by
  have hsome := mt (paintIn_eq_none_iff h hwalks).mp (not_overruns_of_holds h hholds)
  obtain ⟨painted, hpainted⟩ := Option.ne_none_iff_exists'.mp hsome
  obtain ⟨rfl, -⟩ := painter_meetings (painter_eq_ok_iff.mpr ⟨h, rfl⟩) hpainted
  rw [paint_eq_ok_iff, List.length_append, List.drop_left' hfront, List.take_left' hfront]
  exact ⟨by omega, h, _, hpainted, rfl⟩

theorem exists_paint (hsize : s.shape.colors < sizeMax) (h : s.family = .ok f)
    (hstart : s.start ≤ row.length) (hholds : s.Holds (row.drop s.start)) :
    ∃ out, s.paint row = .ok (f, out) := by
  have hpaint := paint_of_holds h (walks_of_family hsize h) (List.length_take_of_le hstart) hholds
  rw [List.take_append_drop] at hpaint
  exact ⟨_, hpaint⟩

def ends : Stroke := ⟨.generalOnly, ⟨1, true⟩, .masked false [40, 50, 60] [9, 0, 8], 0, 3⟩

end Stroke

end Scanline
