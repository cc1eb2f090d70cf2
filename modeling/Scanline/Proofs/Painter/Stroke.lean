import Scanline.Painter.Stroke
import Scanline.Proofs.Failure
import Scanline.Proofs.Painter.Flat
import Scanline.Proofs.Painter.Source
/-! Strokes, pixel by pixel. Whichever family serves a stroke, it brings to each whole pixel of
its row one mix and the samples that are mixed in, and leaves all other bytes as they are. -/
namespace Scanline

structure Meeting where
  mix : Mix
  color : List UInt8
  alpha : UInt8
  deriving DecidableEq, Repr

namespace Meeting

def samples (m : Meeting) : List UInt8 := m.color ++ [m.alpha]

def paint (m : Meeting) (dst : List UInt8) : List UInt8 :=
  List.zipWith m.mix.sample m.samples dst

def ofPixel (mix : Mix) (shape : Shape) (px : List UInt8) : Meeting :=
  ⟨mix, px.take shape.colors, (shape.alpha? px).getD 255⟩

theorem length_paint {m : Meeting} {shape : Shape} {px : List UInt8}
    (hcolor : m.color.length = shape.colors) (hpx : px.length = shape.size) :
    (m.paint px).length = shape.size := by
  have := shape.alpha.toNat_le
  simp only [Shape.size] at hpx ⊢
  simp only [paint, samples, List.length_zipWith, List.length_append, List.length_singleton]
  omega

end Meeting

/-- The pixels of a source row. Without samples there are as many as are asked for. -/
def Shape.sourcePixels (shape : Shape) (count : Nat) (src : List UInt8) : List (List UInt8) :=
  if shape.size = 0 then List.replicate count []
  else Row.takePixels shape.size (src.length / shape.size) src

theorem Shape.length_of_mem_sourcePixels {shape : Shape} {count : Nat} {src px : List UInt8}
    (h : px ∈ shape.sourcePixels count src) : px.length = shape.size := by
  rw [sourcePixels] at h
  split at h
  · rename_i hzero
    rw [List.eq_of_mem_replicate h, hzero]
    rfl
  · exact Row.length_of_mem_takePixels (Nat.div_mul_le_self _ _) h

theorem Shape.length_color_of_mem_sourcePixels {shape : Shape} {count : Nat} {src px : List UInt8}
    (h : px ∈ shape.sourcePixels count src) : (px.take shape.colors).length = shape.colors :=
  List.length_take_of_le (length_of_mem_sourcePixels h ▸ Nat.le_add_right _ _)

namespace Stroke

def meetings (s : Stroke) : List Meeting :=
  match s.brush with
  | .fill color =>
    let alpha := color[s.shape.colors]?.getD 0
    List.replicate s.count
      (.ofPixel (FlatPainter.fillMix s.shape.alpha alpha) (.alphaless s.shape.colors) color)
  | .tint color mask =>
    let alpha := color[s.shape.colors]?.getD 0
    (mask.take s.count).map fun m =>
      .ofPixel (.toward (FlatPainter.weight alpha m)) (.alphaless s.shape.colors) color
  | .overlay layer srcAlpha src =>
    let shape : Shape := ⟨s.shape.colors, srcAlpha⟩
    ((shape.sourcePixels s.count src).take s.count).map fun px =>
      .ofPixel (.ofLayer layer.alpha (shape.alpha? px)) shape px
  | .masked srcAlpha src mask =>
    let shape : Shape := ⟨s.shape.colors, srcAlpha⟩
    (((shape.sourcePixels mask.length src).zip mask).take s.count).map fun (px, m) =>
      .ofPixel (.ofCoverage m (shape.alpha? px)) shape px

end Stroke

namespace Row

variable {size : Nat} {row out : List UInt8}

theorem walkable_of_pixels? {pixels : List (List UInt8)} (h : pixels? size row = some pixels) :
    Walkable size := by
  rw [pixels?] at h
  split at h
  · assumption
  · cases h

theorem walkable_of_zipPaint? {α : Type} {paint : α → List UInt8 → List UInt8} {operands : List α}
    (h : zipPaint? size paint operands row = some out) : Walkable size := by
  rw [zipPaint?] at h
  split at h
  · assumption
  · cases h

end Row

namespace FamilySet

variable {s : FamilySet} {kind : PainterKind} {f : Family}

theorem select_inv {colors : Nat} {alphaOnly : Bool} (h : s.select kind colors alphaOnly = .ok f) :
    s.family? colors = some f ∧ (f = .alphaOnly → alphaOnly = true) := by
  rw [select] at h
  split at h
  · rename_i hfamily
    split at h
    · rename_i halpha
      cases h
      exact ⟨hfamily, fun _ => halpha⟩
    · cases h
  · rename_i hne hfamily
    cases h
    exact ⟨hfamily, fun halpha => absurd halpha hne⟩
  · cases h

theorem colors_pos_of_select {colors : Nat} {alphaOnly : Bool}
    (h : s.select kind colors alphaOnly = .ok f) (hf : f ≠ .alphaOnly) : 0 < colors := by
  apply Nat.pos_of_ne_zero
  rintro rfl
  exact hf (Option.some.inj (select_inv h).1).symm

/-- No family is selected for pixels of no bytes: without colour they have an alpha. -/
theorem size_pos_of_select {colors : Nat} {alphaOnly alpha : Bool}
    (h : s.select kind colors alphaOnly = .ok f) (halpha : alphaOnly = true → alpha = true) :
    0 < (Shape.mk colors alpha).size := by
  obtain ⟨hfamily, hserved⟩ := select_inv h
  rcases Nat.eq_zero_or_pos colors with rfl | hpos
  · rw [halpha (hserved (Option.some.inj hfamily).symm)]
    exact Nat.one_pos
  · exact Nat.add_pos_left hpos _

theorem walkable_of_select {colors : Nat} {alphaOnly alpha : Bool}
    (h : s.select kind colors alphaOnly = .ok f) (hsize : colors < sizeMax)
    (halpha : alphaOnly = true → alpha = true) : Row.Walkable (Shape.mk colors alpha).size := by
  have hle := alpha.toNat_le
  refine ⟨size_pos_of_select h halpha, ?_⟩
  simp only [Shape.size]
  omega

theorem selectColor_serves {shape : Shape} {color : List UInt8}
    (h : s.selectColor kind shape.colors color shape.alpha = .ok f) :
    (f = .rgb → shape.colors = 3) ∧ Row.Walkable shape.size ∧
      ∃ alpha, color[shape.colors]? = some alpha := by
  obtain ⟨hsize, hcolor, -⟩ := selectColor_inv h
  rw [selectColor, if_neg (by omega), if_neg (by omega)] at h
  have hselect : s.select kind shape.colors shape.alpha = .ok f := by
    cases hs : s.select kind shape.colors shape.alpha with
    | error refusal =>
      rw [hs] at h
      cases h
    | ok g =>
      rw [hs] at h
      cases h
      rfl
  exact ⟨family?_eq_rgb (select_inv hselect).1, walkable_of_select hselect hsize id, _,
    List.getElem?_eq_getElem hcolor⟩

theorem fillPainter_inv {shape : Shape} {color : List UInt8} {p : FlatPainter}
    (h : s.fillPainter shape color = .ok p) :
    ∃ f, s.selectColor .fill shape.colors color shape.alpha = .ok f ∧ p = ⟨f, shape, color⟩ := by
  obtain ⟨f, hselect, hp⟩ := Failure.ok_of_bind h
  exact ⟨f, hselect, (Except.ok.inj hp).symm⟩

theorem tintPainter_inv {shape : Shape} {color : List UInt8} {p : FlatPainter}
    (h : s.tintPainter shape color = .ok p) :
    ∃ f, s.selectColor .tint shape.colors color shape.alpha = .ok f ∧ p = ⟨f, shape, color⟩ := by
  obtain ⟨f, hselect, hp⟩ := Failure.ok_of_bind h
  exact ⟨f, hselect, (Except.ok.inj hp).symm⟩

theorem overlayPainter_inv {colors : Nat} {da sa : Bool} {p : SourcePainter}
    (h : s.overlayPainter colors da sa = .ok p) :
    ∃ f, s.select .overlay colors (da && sa) = .ok f ∧ p = ⟨f, colors, da, sa⟩ := by
  obtain ⟨f, hselect, hp⟩ := Failure.ok_of_bind h
  exact ⟨f, hselect, (Except.ok.inj hp).symm⟩

theorem maskPainter_inv {colors : Nat} {da sa : Bool} {p : SourcePainter}
    (h : s.maskPainter colors da sa = .ok p) :
    ∃ f, s.select .masked colors da = .ok f ∧ p = ⟨f, colors, da, sa⟩ := by
  obtain ⟨f, hselect, hp⟩ := Failure.ok_of_bind h
  exact ⟨f, hselect, (Except.ok.inj hp).symm⟩

end FamilySet

namespace FlatPainter

variable {p : FlatPainter} {alpha : UInt8} {row out : List UInt8} {count : Nat}

theorem le_length_of_tile {rgb : List UInt8} (h : tile rgb count row = some out) :
    count * 3 ≤ row.length := by
  obtain ⟨part, hpart, -⟩ := Option.bind_eq_some_iff.mp h
  rw [Row.slice?] at hpart
  split at hpart
  · omega
  · cases hpart

/-- Where a fill gets through, it is the walk of its mix, also if its row is too short. -/
theorem eq_zipPaint_of_fill (hrgb : p.family = .rgb → p.shape.colors = 3)
    (hsize : Row.Walkable p.shape.size) (halpha : p.color[p.shape.colors]? = some alpha)
    (h : p.fill row count = some out) :
    out = Row.zipPaint p.shape.size
      (fun _ => (fillMix p.shape.alpha alpha).pixel (.alphaless p.shape.colors) p.color)
      (List.replicate count ()) row := by
  have htile : p.family = .rgb → p.shape.alpha = false → alpha = 255 → 8 ≤ count →
      count * 3 ≤ row.length := by
    intro hfamily hdst hfull hcount
    rw [fill, halpha, Option.bind_eq_bind, Option.bind_some, if_neg (Bool.eq_false_iff.mp hdst),
      if_pos hfull, if_pos ⟨hfamily, hcount⟩] at h
    exact le_length_of_tile h
  have hwalk := fill_eq_zipPaint hrgb hsize halpha htile
  rw [Nat.min_comm, ← List.take_replicate, Row.zipPaint_take hsize.1] at hwalk
  exact Option.some.inj (h.symm.trans hwalk)

end FlatPainter

namespace SourcePainter

variable {p : SourcePainter} {row src mask out : List UInt8} {count : Nat}

theorem walkable_of_overlay {layer : Opacity} (hlayer : layer ≠ .clear)
    (h : p.overlay layer row src count = some out) :
    Row.Walkable p.src.size ∧ Row.Walkable p.dst.size := by
  rw [overlay, if_neg hlayer] at h
  obtain ⟨pixels, hpixels, hwalk⟩ := Option.bind_eq_some_iff.mp h
  exact ⟨Row.walkable_of_pixels? hpixels, Row.walkable_of_zipPaint? hwalk⟩

/-- Where a layer gets through, it is the walk of its mixes. A clear one brings mixes that keep
every pixel. -/
theorem eq_zipPaint_of_overlay {layer : Opacity} (h : p.overlay layer row src count = some out) :
    out = Row.zipPaint p.dst.size (compose p.src layer.alpha)
      ((p.src.sourcePixels count src).take count) row := by
  have hlength : ∀ s ∈ (p.src.sourcePixels count src).take count, s.length = p.src.size :=
    fun s hs => Shape.length_of_mem_sourcePixels (List.mem_of_mem_take hs)
  by_cases hclear : layer = .clear
  · rw [overlay, if_pos hclear] at h
    cases h
    rw [hclear, Row.zipPaint_eq_self]
    intro s hs d hd
    have hle : p.colors ≤ s.length := hlength s hs ▸ Nat.le_add_right _ _
    simpa [compose, Opacity.alpha] using Mix.pixel_keep p.src p.dst rfl hle hd
  · obtain ⟨hsrc, hdst⟩ := walkable_of_overlay hclear h
    have hpixels : p.src.sourcePixels count src =
        Row.takePixels p.src.size (src.length / p.src.size) src := if_neg (Nat.ne_of_gt hsrc.1)
    rw [overlay, if_neg hclear, Row.pixels?, if_pos hsrc, Option.bind_eq_bind, Option.bind_some,
      Row.zipPaint?, if_pos hdst, ← hpixels] at h
    rw [← Option.some.inj h]
    apply Row.zipPaint_congr
    intro s hs d hd
    exact p.pixel_eq _ (hlength s hs) hd

theorem eq_zipPaint_of_walk_sampleless (hsrc : p.src.size = 0)
    (h : p.walk mask row src = some out) :
    out = Row.zipPaint p.dst.size (cover p.src) ((List.replicate mask.length []).zip mask) row := by
  induction mask generalizing row src out with
  | nil => exact (Option.some.inj h).symm
  | cons m mask ih =>
    rw [List.length_cons, List.replicate_succ, List.zip_cons_cons, Row.zipPaint]
    split
    · exact walk_short (Or.inl ‹_›) h
    have htakeRow : (row.take p.dst.size).length = p.dst.size := by rw [List.length_take]; omega
    have htakeSrc : src.take p.src.size = [] := by rw [hsrc, List.take_zero]
    have hnil : ([] : List UInt8).length = p.src.size := hsrc.symm
    simp only [walk, htakeSrc] at h
    split at h
    · rename_i hm
      obtain ⟨rest, hrest, rfl⟩ := Option.map_eq_some_iff.mp h
      rw [hm, cover_uncovered hnil htakeRow, ih hrest]
    · rw [if_pos ⟨htakeRow, hnil⟩] at h
      obtain ⟨rest, hrest, rfl⟩ := Option.map_eq_some_iff.mp h
      rw [p.pixel_eq _ hnil htakeRow, ih hrest]
      rfl

theorem zip_sourcePixels_take (shape : Shape) (src mask : List UInt8) (count : Nat) :
    (shape.sourcePixels (mask.take count).length src).zip (mask.take count) =
      ((shape.sourcePixels mask.length src).zip mask).take count := by
  by_cases hzero : shape.size = 0
  · have hpixels (n : Nat) : shape.sourcePixels n src = List.replicate n [] := if_pos hzero
    rw [hpixels, hpixels, List.zip_eq_zipWith, List.zip_eq_zipWith, List.take_zipWith,
      List.take_replicate, List.length_take]
  · have hpixels (n : Nat) : shape.sourcePixels n src =
        Row.takePixels shape.size (src.length / shape.size) src := if_neg hzero
    rw [hpixels, hpixels, Row.zip_take]

theorem eq_zipPaint_of_general_walk (h : p.walk mask row src = some out) :
    out = Row.zipPaint p.dst.size (cover p.src)
      ((p.src.sourcePixels mask.length src).zip mask) row := by
  rw [Shape.sourcePixels]
  split
  · exact eq_zipPaint_of_walk_sampleless ‹_› h
  · exact eq_zipPaint_of_walk (Nat.pos_of_ne_zero ‹_›) h

theorem walkable_of_masked (hf : p.family ≠ .alphaOnly ∧ p.family ≠ .general)
    (h : p.masked row src mask count = some out) :
    Row.Walkable p.src.size ∧ Row.Walkable p.dst.size := by
  obtain ⟨hne, hne'⟩ := hf
  have hwalk : ((Row.pixels? p.src.size src).bind fun pixels => Row.zipPaint? p.dst.size
      (fun a => p.pixel (.ofCoverage a.2 (p.src.alpha? a.1)) a.1)
      ((pixels.zip mask).take count) row) = some out := by
    cases hf : p.family with
    | alphaOnly => exact absurd hf hne
    | general => exact absurd hf hne'
    | gray => rwa [masked, hf] at h
    | rgb => rwa [masked, hf] at h
    | cmyk => rwa [masked, hf] at h
  obtain ⟨pixels, hpixels, hpaint⟩ := Option.bind_eq_some_iff.mp hwalk
  exact ⟨Row.walkable_of_pixels? hpixels, Row.walkable_of_zipPaint? hpaint⟩

theorem eq_zipPaint_of_masked (h : p.masked row src mask count = some out) :
    out = Row.zipPaint p.dst.size (cover p.src)
      (((p.src.sourcePixels mask.length src).zip mask).take count) row := by
  by_cases hf : p.family = .alphaOnly ∨ p.family = .general
  · rw [masked_eq_walk hf] at h
    obtain ⟨part, hpart, hwalk⟩ := Option.bind_eq_some_iff.mp h
    rw [Row.slice?] at hpart
    split at hpart
    · cases hpart
      rw [← zip_sourcePixels_take]
      exact eq_zipPaint_of_general_walk hwalk
    · cases hpart
  · rw [not_or] at hf
    obtain ⟨hsrc, hdst⟩ := walkable_of_masked hf h
    have hpixels : p.src.sourcePixels mask.length src =
        Row.takePixels p.src.size (src.length / p.src.size) src := if_neg (Nat.ne_of_gt hsrc.1)
    rw [hpixels]
    exact Option.some.inj (h.symm.trans (masked_special hf hsrc hdst row src mask count))

end SourcePainter

namespace Stroke

variable {s : Stroke} {row out : List UInt8} {f : Family}

section Brushes

variable {families : FamilySet} {shape : Shape} {start count : Nat}

theorem fill_meetings {color : List UInt8} {p : FlatPainter}
    (hp : families.fillPainter shape color = .ok p) (hpaint : p.fill row count = some out) :
    out = Row.zipPaint shape.size Meeting.paint
        (meetings ⟨families, shape, .fill color, start, count⟩) row ∧
      ∀ m ∈ meetings ⟨families, shape, .fill color, start, count⟩,
        m.color.length = shape.colors := by
  obtain ⟨g, hselect, rfl⟩ := FamilySet.fillPainter_inv hp
  obtain ⟨hrgb, hsize, alpha, halpha⟩ := FamilySet.selectColor_serves hselect
  have hout := FlatPainter.eq_zipPaint_of_fill (p := ⟨g, shape, color⟩) hrgb hsize halpha hpaint
  have hunits (m : Meeting) : List.replicate count m = (List.replicate count ()).map fun _ => m := by
    rw [List.map_replicate]
  constructor
  · rw [hout, meetings]
    dsimp only
    rw [halpha, hunits, Row.zipPaint_map]
    rfl
  · intro m hm
    rw [List.eq_of_mem_replicate hm]
    exact List.length_take_of_le (Nat.le_of_lt (List.getElem?_eq_some_iff.mp halpha).1)

theorem tint_meetings {color mask : List UInt8} {p : FlatPainter}
    (hp : families.tintPainter shape color = .ok p) (hpaint : p.tint row mask count = some out) :
    out = Row.zipPaint shape.size Meeting.paint
        (meetings ⟨families, shape, .tint color mask, start, count⟩) row ∧
      ∀ m ∈ meetings ⟨families, shape, .tint color mask, start, count⟩,
        m.color.length = shape.colors := by
  obtain ⟨g, hselect, rfl⟩ := FamilySet.tintPainter_inv hp
  obtain ⟨hrgb, hsize, alpha, halpha⟩ := FamilySet.selectColor_serves hselect
  have hout := hpaint.symm.trans
    (FlatPainter.tint_eq_zipPaint (p := ⟨g, shape, color⟩) hrgb hsize halpha row mask count)
  constructor
  · rw [Option.some.inj hout, meetings]
    dsimp only
    rw [halpha, Row.zipPaint_map]
    rfl
  · intro m hm
    obtain ⟨cover, -, rfl⟩ := List.mem_map.mp hm
    exact List.length_take_of_le (Nat.le_of_lt (List.getElem?_eq_some_iff.mp halpha).1)

theorem overlay_meetings {layer : Opacity} {srcAlpha : Bool} {src : List UInt8} {p : SourcePainter}
    (hp : families.overlayPainter shape.colors shape.alpha srcAlpha = .ok p)
    (hpaint : p.overlay layer row src count = some out) :
    out = Row.zipPaint shape.size Meeting.paint
        (meetings ⟨families, shape, .overlay layer srcAlpha src, start, count⟩) row ∧
      ∀ m ∈ meetings ⟨families, shape, .overlay layer srcAlpha src, start, count⟩,
        m.color.length = shape.colors := by
  obtain ⟨g, -, rfl⟩ := FamilySet.overlayPainter_inv hp
  constructor
  · rw [SourcePainter.eq_zipPaint_of_overlay hpaint, meetings]
    dsimp only
    rw [Row.zipPaint_map]
    rfl
  · intro m hm
    obtain ⟨px, hpx, rfl⟩ := List.mem_map.mp hm
    exact Shape.length_color_of_mem_sourcePixels (List.mem_of_mem_take hpx)

theorem masked_meetings {srcAlpha : Bool} {src mask : List UInt8} {p : SourcePainter}
    (hp : families.maskPainter shape.colors shape.alpha srcAlpha = .ok p)
    (hpaint : p.masked row src mask count = some out) :
    out = Row.zipPaint shape.size Meeting.paint
        (meetings ⟨families, shape, .masked srcAlpha src mask, start, count⟩) row ∧
      ∀ m ∈ meetings ⟨families, shape, .masked srcAlpha src mask, start, count⟩,
        m.color.length = shape.colors := by
  obtain ⟨g, -, rfl⟩ := FamilySet.maskPainter_inv hp
  constructor
  · rw [SourcePainter.eq_zipPaint_of_masked hpaint, meetings]
    dsimp only
    rw [Row.zipPaint_map]
    rfl
  · intro m hm
    obtain ⟨a, ha, rfl⟩ := List.mem_map.mp hm
    exact Shape.length_color_of_mem_sourcePixels (List.of_mem_zip (List.mem_of_mem_take ha)).1

end Brushes

/-- Where a stroke is served and gets through, its paint is the walk of what it brings, and that
is whole pixels. -/
theorem painter_meetings {paint : List UInt8 → Option (List UInt8)}
    (h : s.painter = .ok (f, paint)) (hpaint : paint row = some out) :
    out = Row.zipPaint s.shape.size Meeting.paint s.meetings row ∧
      ∀ m ∈ s.meetings, m.color.length = s.shape.colors := by
  obtain ⟨families, shape, brush, start, count⟩ := s
  cases brush with
  | fill color =>
    obtain ⟨p, hp, hpair⟩ := Failure.ok_of_bind h
    cases hpair
    exact fill_meetings hp hpaint
  | tint color mask =>
    obtain ⟨p, hp, hpair⟩ := Failure.ok_of_bind h
    cases hpair
    exact tint_meetings hp hpaint
  | overlay layer srcAlpha src =>
    obtain ⟨p, hp, hpair⟩ := Failure.ok_of_bind h
    cases hpair
    exact overlay_meetings (Failure.ok_of_mapError hp) hpaint
  | masked srcAlpha src mask =>
    obtain ⟨p, hp, hpair⟩ := Failure.ok_of_bind h
    cases hpair
    exact masked_meetings (Failure.ok_of_mapError hp) hpaint

/-- A stroke leaves the row before its start, and lets each whole pixel from there on meet what
it brings. -/
theorem paint_meetings (h : s.paint row = .ok (f, out)) :
    s.start ≤ row.length ∧
      out = row.take s.start ++
        Row.zipPaint s.shape.size Meeting.paint s.meetings (row.drop s.start) ∧
      ∀ m ∈ s.meetings, m.color.length = s.shape.colors := by
  rw [paint] at h
  split at h
  · cases h
  obtain ⟨⟨g, paint⟩, hpainter, h⟩ := Failure.ok_of_bind h
  obtain ⟨painted, hpainted, h⟩ := Failure.ok_of_bind h
  cases h
  obtain ⟨hout, hcolor⟩ := painter_meetings hpainter (Failure.eq_some_of_orOverrun hpainted)
  exact ⟨by omega, by rw [hout], hcolor⟩

theorem length_paint (h : s.paint row = .ok (f, out)) : out.length = row.length := by
  obtain ⟨hle, rfl, hcolor⟩ := paint_meetings h
  rw [List.length_append, Row.length_zipPaint fun m hm _ hpx => Meeting.length_paint (hcolor m hm) hpx,
    ← List.length_append, List.take_append_drop]

/-- On whole pixels a stroke leaves a pixel as it is, or lets it meet something that it brings. -/
theorem paint_pixel (hsize : 0 < s.shape.size) (hstart : s.shape.size ∣ s.start)
    (h : s.paint row = .ok (f, out)) {i : Nat} (hi : (i + 1) * s.shape.size ≤ row.length) :
    Row.part out (i * s.shape.size) s.shape.size = Row.part row (i * s.shape.size) s.shape.size ∨
    ∃ m ∈ s.meetings, m.color.length = s.shape.colors ∧
      Row.part out (i * s.shape.size) s.shape.size =
        m.paint (Row.part row (i * s.shape.size) s.shape.size) := by
  obtain ⟨hle, rfl, hcolor⟩ := paint_meetings h
  obtain ⟨before, hbefore⟩ := hstart
  rw [Nat.mul_comm] at hbefore
  have hfront : (row.take s.start).length = s.start := List.length_take_of_le hle
  have hend : i * s.shape.size + s.shape.size ≤ row.length := Nat.succ_mul i _ ▸ hi
  rcases Nat.lt_or_ge i before with hlt | hge
  · left
    have hpixel : i * s.shape.size + s.shape.size ≤ s.start := by
      rw [hbefore, ← Nat.succ_mul]
      exact Nat.mul_le_mul_right _ hlt
    rw [Row.part_append_left (hfront.symm ▸ hpixel), Row.part_take hpixel]
  · obtain ⟨j, rfl⟩ := Nat.exists_eq_add_of_le hge
    have hsplit : (before + j) * s.shape.size = s.start + j * s.shape.size := by
      rw [Nat.add_mul, hbefore]
    have hrest : (j + 1) * s.shape.size ≤ (row.drop s.start).length := by
      rw [List.length_drop, Nat.succ_mul]
      omega
    have hback (back : List UInt8) : Row.part (row.take s.start ++ back)
        (s.start + j * s.shape.size) s.shape.size = Row.part back (j * s.shape.size) s.shape.size :=
      Row.part_append_right hfront
    rw [hsplit, hback, ← Row.part_drop, Row.part_zipPaint_elim
      (fun m hm _ hpx => Meeting.length_paint (hcolor m hm) hpx) hsize hrest]
    cases hm : s.meetings[j]? with
    | none => exact Or.inl rfl
    | some m =>
      have hmem := List.mem_of_getElem? hm
      exact Or.inr ⟨m, hmem, hcolor m hmem, rfl⟩

end Stroke

end Scanline
