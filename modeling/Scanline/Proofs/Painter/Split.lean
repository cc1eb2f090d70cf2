import Scanline.Proofs.Painter.Reach
/-! Strokes in two parts. The pixels of a stroke can be painted in two strokes and in either
order, wherever the cut is and whichever way each part is painted on its own. -/
namespace Scanline

namespace Row

variable {α : Type} {size : Nat} {f : α → List UInt8 → List UInt8}

theorem takePixels_drop (size count n : Nat) (row : List UInt8) :
    takePixels size (count - n) (row.drop (n * size)) = (takePixels size count row).drop n := by
  induction n generalizing count row with
  | zero => simp
  | succ n ih =>
    cases count with
    | zero => simp [takePixels]
    | succ count =>
      rw [takePixels, List.drop_succ_cons, ← ih, List.drop_drop, Nat.succ_mul, Nat.add_comm size,
        Nat.succ_sub_succ]

theorem zipPaint_append_append {as : List α} {front : List UInt8}
    (hfront : front.length = as.length * size) (bs : List α) (back : List UInt8) :
    zipPaint size f (as ++ bs) (front ++ back) =
      zipPaint size f as front ++ zipPaint size f bs back := by
  have hrow : as.length * size ≤ (front ++ back).length := by
    rw [List.length_append]
    omega
  rw [zipPaint_append f as bs hrow, List.take_left' hfront, List.drop_left' hfront]

end Row

def Shape.behind (shape : Shape) (n : Nat) (src : List UInt8) : List UInt8 :=
  src.drop (n * shape.size)

theorem Shape.sourcePixels_behind (shape : Shape) (count n : Nat) (src : List UInt8) :
    shape.sourcePixels (count - n) (shape.behind n src) =
      (shape.sourcePixels count src).drop n := by
  rw [sourcePixels, sourcePixels, behind]
  split
  · exact List.drop_replicate.symm
  · rw [List.length_drop, Nat.mul_comm, Nat.sub_mul_div, Nat.mul_comm, Row.takePixels_drop]

theorem Shape.sourcePixels_take (shape : Shape) {count n : Nat} (hn : n ≤ count)
    (src : List UInt8) :
    (shape.sourcePixels n src).take n = (shape.sourcePixels count src).take n := by
  rw [sourcePixels, sourcePixels]
  split
  · rw [List.take_replicate, List.take_replicate, Nat.min_self, Nat.min_eq_left hn]
  · rfl

def Brush.advance (colors n : Nat) : Brush → Brush
  | .fill color => .fill color
  | .tint color mask => .tint color (mask.drop n)
  | .overlay layer srcAlpha src =>
    .overlay layer srcAlpha ((Shape.mk colors srcAlpha).behind n src)
  | .masked srcAlpha src mask =>
    .masked srcAlpha ((Shape.mk colors srcAlpha).behind n src) (mask.drop n)

theorem Shape.held_behind (shape : Shape) (count n : Nat) (src : List UInt8) :
    shape.held (count - n) (shape.behind n src) = shape.held count src - n := by
  rw [← length_sourcePixels, sourcePixels_behind, List.length_drop, length_sourcePixels]

theorem Shape.le_held {shape : Shape} {count n : Nat} {src : List UInt8} (hn : n ≤ count)
    (h : count ≤ shape.held count src) : n ≤ shape.held n src := by
  rw [held] at h ⊢
  split
  · exact Nat.le_refl n
  · rw [if_neg ‹_›] at h
    exact Nat.le_trans hn h

theorem Brush.le_held {b : Brush} {colors count n : Nat} (hn : n ≤ count)
    (h : count ≤ b.held colors count) : n ≤ b.held colors n := by
  cases b with
  | fill color => exact Nat.le_refl n
  | tint color mask => exact Nat.le_trans hn h
  | overlay layer srcAlpha src => exact Shape.le_held hn h
  | masked srcAlpha src mask =>
    obtain ⟨hsrc, hmask⟩ := Nat.le_min.mp h
    exact Nat.le_min.mpr ⟨Shape.le_held hn hsrc, Nat.le_trans hn hmask⟩

theorem Brush.le_held_advance {b : Brush} {colors count n : Nat}
    (h : count ≤ b.held colors count) :
    count - n ≤ (b.advance colors n).held colors (count - n) := by
  cases b with
  | fill color => exact Nat.le_refl _
  | tint color mask =>
    simp only [advance, held, List.length_drop] at h ⊢
    omega
  | overlay layer srcAlpha src =>
    simp only [advance, held, Shape.held_behind] at h ⊢
    omega
  | masked srcAlpha src mask =>
    simp only [advance, held, Shape.held_behind, List.length_drop] at h ⊢
    omega

namespace Stroke

def first (s : Stroke) (n : Nat) : Stroke := { s with count := n }

def rest (s : Stroke) (n : Nat) : Stroke :=
  { s with
    brush := s.brush.advance s.shape.colors n
    start := s.start + n * s.shape.size
    count := s.count - n }

variable {s : Stroke} {n : Nat} {f : Family} {row out front back : List UInt8}

theorem family_first (s : Stroke) (n : Nat) : (s.first n).family = s.family := rfl

theorem family_rest (s : Stroke) (n : Nat) : (s.rest n).family = s.family := by
  obtain ⟨families, shape, brush, start, count⟩ := s
  cases brush <;> rfl

theorem walks_rest (h : s.Walks f) : (s.rest n).Walks f := by
  obtain ⟨families, shape, brush, start, count⟩ := s
  cases brush <;> exact h

theorem meetings_split (hn : n ≤ s.count) :
    s.meetings = (s.first n).meetings ++ (s.rest n).meetings := by
  obtain ⟨families, shape, brush, start, count⟩ := s
  obtain ⟨k, rfl⟩ := Nat.exists_eq_add_of_le hn
  -- what is cut off an operand is what the uncut operand brings behind the cut
  cases brush with
  | fill color =>
    simp only [meetings, first, rest, Brush.advance, Nat.add_sub_cancel_left,
      List.replicate_append_replicate]
  | tint color mask =>
    simp only [meetings, first, rest, Brush.advance, Nat.add_sub_cancel_left, List.take_add,
      List.map_append]
  | overlay layer srcAlpha src =>
    have hrest := (Shape.mk shape.colors srcAlpha).sourcePixels_behind (n + k) n src
    rw [Nat.add_sub_cancel_left] at hrest
    simp only [meetings, first, rest, Brush.advance, Nat.add_sub_cancel_left, hrest, List.take_add,
      List.map_append, Shape.sourcePixels_take _ (Nat.le_add_right n k)]
  | masked srcAlpha src mask =>
    have hrest := (Shape.mk shape.colors srcAlpha).sourcePixels_behind mask.length n src
    simp only [meetings, first, rest, Brush.advance, Nat.add_sub_cancel_left, List.length_drop,
      hrest, List.zip_eq_zipWith, ← List.drop_zipWith, List.take_add, List.map_append]

theorem Holds.first (h : s.Holds row) (hn : n ≤ s.count) : (s.first n).Holds row :=
  ⟨Nat.le_trans (Nat.mul_le_mul_right _ hn) h.1, Brush.le_held hn h.2⟩

theorem Holds.rest (h : s.Holds (front ++ back)) (hfront : front.length = n * s.shape.size) :
    (s.rest n).Holds back := by
  refine ⟨?_, Brush.le_held_advance h.2⟩
  have hrow := h.1
  rw [List.length_append, hfront] at hrow
  simp only [Stroke.rest, Nat.sub_mul]
  omega

theorem Holds.congr (h : s.Holds row) (hlength : out.length = row.length) : s.Holds out :=
  ⟨hlength ▸ h.1, h.2⟩

section Parts

variable {before : List UInt8} (h : s.family = .ok f) (hwalks : s.Walks f)
  (hholds : s.Holds (front ++ back)) (hbefore : before.length = s.start)
  (hfront : front.length = n * s.shape.size)
include h hwalks hholds hbefore hfront

theorem paint_first (hn : n ≤ s.count) : (s.first n).paint (before ++ (front ++ back)) =
    .ok (f, before ++
      (Row.zipPaint s.shape.size Meeting.paint (s.first n).meetings front ++ back)) := by
  have hfirst := hholds.first hn
  have hlength : (s.first n).meetings.length = n := hfirst.length_meetings
  have hwalk : Row.zipPaint (s.first n).shape.size Meeting.paint (s.first n).meetings
      (front ++ back) =
        Row.zipPaint s.shape.size Meeting.paint (s.first n).meetings front ++ back := by
    have hcut := Row.zipPaint_append_append (f := Meeting.paint) (hlength ▸ hfront) [] back
    rwa [List.append_nil] at hcut
  rw [paint_of_holds ((family_first s n).trans h) hwalks hbefore hfirst, hwalk]

theorem paint_rest : (s.rest n).paint (before ++ (front ++ back)) =
    .ok (f, before ++
      (front ++ Row.zipPaint s.shape.size Meeting.paint (s.rest n).meetings back)) := by
  have hstart : (before ++ front).length = (s.rest n).start := by
    rw [List.length_append, hbefore, hfront]
    rfl
  rw [← List.append_assoc, paint_of_holds ((family_rest s n).trans h) (walks_rest hwalks) hstart
    (hholds.rest hfront), List.append_assoc]
  rfl

theorem paint_whole (hn : n ≤ s.count) : s.paint (before ++ (front ++ back)) =
    .ok (f, before ++ (Row.zipPaint s.shape.size Meeting.paint (s.first n).meetings front ++
      Row.zipPaint s.shape.size Meeting.paint (s.rest n).meetings back)) := by
  have hlength : (s.first n).meetings.length = n := (hholds.first hn).length_meetings
  rw [paint_of_holds h hwalks hbefore hholds, meetings_split hn,
    Row.zipPaint_append_append (hlength.symm ▸ hfront)]

/-- One part, then the other, and the other way round. Each part leaves the pixels of the other
as they are, so both come to what the whole stroke leaves. -/
theorem paint_parts (hn : n ≤ s.count) (hout : s.paint (before ++ (front ++ back)) = .ok (f, out)) :
    (∃ mid, (s.first n).paint (before ++ (front ++ back)) = .ok (f, mid) ∧
      (s.rest n).paint mid = .ok (f, out)) ∧
    ∃ mid, (s.rest n).paint (before ++ (front ++ back)) = .ok (f, mid) ∧
      (s.first n).paint mid = .ok (f, out) := by
  have hlength {m : List Meeting} (hm : m ⊆ s.meetings) (part : List UInt8) :
      (Row.zipPaint s.shape.size Meeting.paint m part).length = part.length :=
    Row.length_zipPaint fun a ha _ =>
      Meeting.length_paint ((paint_meetings hout).2.2 a (hm ha))
  have hsplit := meetings_split hn
  have hleft := hlength (hsplit ▸ List.subset_append_left _ _) front
  have hright := hlength (hsplit ▸ List.subset_append_right _ _) back
  rw [paint_whole h hwalks hholds hbefore hfront hn] at hout
  cases hout
  refine ⟨⟨_, paint_first h hwalks hholds hbefore hfront hn, ?_⟩,
    ⟨_, paint_rest h hwalks hholds hbefore hfront, ?_⟩⟩
  · refine paint_rest h hwalks (hholds.congr ?_) hbefore (hleft.trans hfront)
    rw [List.length_append, List.length_append, hleft]
  · refine paint_first h hwalks (hholds.congr ?_) hbefore hfront hn
    rw [List.length_append, List.length_append, hright]

end Parts

/-- Strokes that are served and have room get through. What a stroke leaves can be painted in two
strokes, cut behind any of its pixels and in either order, as long as its operands hold all of
them; and a stroke with operands of any length changes nothing behind its last pixel. -/
theorem strokes_split_and_stay_local (s : Stroke) (row : List UInt8) :
    (∀ f paint, s.painter = .ok (f, paint) → s.shape.colors < sizeMax → s.start ≤ row.length →
      s.Holds (row.drop s.start) → ∃ out, s.paint row = .ok (f, out)) ∧
    ∀ f out, s.paint row = .ok (f, out) →
      (s.Holds (row.drop s.start) → ∀ n ≤ s.count,
        (∃ mid, (s.first n).paint row = .ok (f, mid) ∧ (s.rest n).paint mid = .ok (f, out)) ∧
        ∃ mid, (s.rest n).paint row = .ok (f, mid) ∧ (s.first n).paint mid = .ok (f, out)) ∧
      ∀ b, b < s.start ∨ s.start + s.count * s.shape.size ≤ b → out[b]? = row[b]? := by
  constructor
  · intro f paint hpainter hsize hstart hholds
    exact exists_paint hsize (painter_eq_ok_iff.mp hpainter).1 hstart hholds
  · intro f out hpaint
    have hend := Nat.mul_le_mul_right s.shape.size (s.reach_le_count (row.drop s.start))
    refine ⟨fun hholds n hn => ?_, fun b hb => getElem?_paint_outside hpaint (by omega)⟩
    obtain ⟨hstart, hfamily, painted, hpainted, -⟩ := paint_eq_ok_iff.mp hpaint
    have hrow := List.take_append_drop (n * s.shape.size) (row.drop s.start)
    have hfront := List.length_take_of_le (Nat.le_trans (Nat.mul_le_mul_right _ hn) hholds.1)
    have hwhole := List.take_append_drop s.start row
    rw [← hrow] at hholds hwhole
    have hparts := @paint_parts s n f out _ _ _ hfamily (walks_of_paintIn hpainted) hholds
      (List.length_take_of_le hstart) hfront hn
    rw [hwhole] at hparts
    exact hparts hpaint

/-- Ten pixels of an opaque fill are two tiles and two pixels. In two parts of five there is no
tile. -/
theorem strokes_split_and_stay_local_tiles :
    let s : Stroke := ⟨.all, ⟨3, false⟩, .fill [9, 8, 7, 255], 1, 10⟩
    let row : List UInt8 := List.replicate 33 1
    s.Holds (row.drop 1) ∧ ∃ out, s.paint row = .ok (.rgb, out) ∧
      (∃ mid, (s.first 5).paint row = .ok (.rgb, mid) ∧ (s.rest 5).paint mid = .ok (.rgb, out)) ∧
      out[0]? = some 1 ∧ out[31]? = some 1 := by
  intro s row
  obtain ⟨htotal, hsplit⟩ := strokes_split_and_stay_local s row
  have hpainter : s.painter = .ok (.rgb, s.paintIn .rgb) := rfl
  have hholds : s.Holds (row.drop 1) := by decide
  obtain ⟨out, hout⟩ := htotal .rgb _ hpainter (by decide) (by decide) hholds
  obtain ⟨hparts, hlocal⟩ := hsplit .rgb out hout
  exact ⟨hholds, out, hout, (hparts hholds 5 (by decide)).1, hlocal 0 (Or.inl (by decide)),
    hlocal 31 (Or.inr (by decide))⟩

end Stroke

end Scanline
