import Scanline.Proofs.Glyph.Spans
import Scanline.Proofs.Pixmap.Edit
import Scanline.Proofs.Pixmap.Window
/-! Glyphs on pixmaps, pixel by pixel. A stamp depends on the coverage that the glyph has under
its window, and not on the runs that say it. -/
namespace Scanline

/-- A pixel under the coverage of a glyph. Without colour it gathers coverage; with colour it
goes toward the colour, by the coverage and the alpha of the colour together. -/
def Shape.stamped (shape : Shape) (color : List UInt8) (cover : UInt8) (old : List UInt8) :
    List UInt8 :=
  if shape.colors = 0 then old.map (deposit cover)
  else
    let alpha := color[shape.colors]?.getD 0
    tinted shape.colors color (Weight.scale (Weight.ofByte cover) (Weight.ofByte alpha)) old

namespace Shape

variable {shape : Shape} {color : List UInt8}

theorem stamped_colorless (h : shape.colors = 0) (cover : UInt8) (old : List UInt8) :
    shape.stamped color cover old = old.map (deposit cover) := if_pos h

theorem stamped_colorful (h : shape.colors ≠ 0) {alpha : UInt8}
    (halpha : color[shape.colors]? = some alpha) (cover : UInt8) (old : List UInt8) :
    shape.stamped color cover old = tinted shape.colors color
      (Weight.scale (Weight.ofByte cover) (Weight.ofByte alpha)) old := by
  rw [stamped, if_neg h, halpha]
  rfl

theorem stamped_clear (h : shape.colors ≠ 0) (halpha : color[shape.colors]? = some 0)
    (cover : UInt8) {old : List UInt8} (hold : old.length = shape.size) :
    shape.stamped color cover old = old := by
  have hcolor := Nat.le_of_lt (List.getElem?_eq_some_iff.mp halpha).1
  simpa [stamped_colorful h halpha] using tinted_zero hcolor hold

end Shape

namespace Pixmap

def Served (families : FamilySet) (l : Layout) (color : List UInt8) : Prop :=
  l.colors ≠ 0 → l.colors < sizeMax ∧ l.colors + 1 ≤ color.length ∧
    families.supports l.colors = true

structure RowStamped (l : Layout) (glyph : Glyph) (color : List UInt8) (window : Window) (r : Nat)
    (row out : List UInt8) : Prop where
  size : out.length = row.length
  pixel : ∀ i < window.width, Row.part out (i * l.channels) l.channels =
    l.shape.stamped color (glyph.coverage (window.skipY + r) (window.skipX + i))
      (Row.part row (i * l.channels) l.channels)

def Stamped (l : Layout) (glyph : Glyph) (color : List UInt8) (x y : Int) (window : Window)
    (a b : Int) (old new : List UInt8) : Prop :=
  new = l.shape.stamped color
    (glyph.coverage (window.skipY + (b - y).toNat) (window.skipX + (a - x).toNat)) old

variable {families : FamilySet} {dst out : Pixmap} {glyph : Glyph} {color : List UInt8}
  {x y : Int} {window : Window}

theorem stamped_iff {l : Layout} {i r : Nat} {old new : List UInt8} :
    Stamped l glyph color x y window (x + i) (y + r) old new ↔
      new = l.shape.stamped color (glyph.coverage (window.skipY + r) (window.skipX + i)) old := by
  rw [Stamped, show (x + i - x).toNat = i by omega, show (y + r - y).toNat = r by omega]

theorem markAll_stamped {l : Layout} (hl : 0 < l.channels) (hcolors : l.colors = 0) (r : Nat)
    {row : List UInt8} (hrow : row.length = window.width * l.channels) :
    ∃ out, Span.markAll (glyph.reader (window.skipY + r) window.skipX window.width).spans row =
        some out ∧ RowStamped l glyph color window r row out := by
  have hone := Layout.channels_of_colors_eq_zero hl hcolors
  have hle := glyph.length_window_le (window.skipY + r) window.skipX window.width
  have hmap : ∀ c, ∀ px : List UInt8, px.length = 1 → (px.map (deposit c)).length = 1 :=
    fun c px hpx => (List.length_map _).trans hpx
  have hidle : ∀ px : List UInt8, px.length = 1 → px.map (deposit coverNone) = px := by
    intro px _
    rw [funext deposit_none, List.map_id']
  rw [hone] at hrow
  refine ⟨_, Span.markAll_eq_zipPaint ?_, Row.length_zipPaint fun c _ => hmap c, ?_⟩
  · rw [hrow, Nat.mul_one]
    exact hle
  · intro i hi
    have hpart := Row.part_zipPaint_of_le (f := fun c => List.map (deposit c)) hmap hidle hle
      hrow hi
    rw [glyph.getElem?_window _ _ hi] at hpart
    rw [hone, Shape.stamped_colorless hcolors]
    exact hpart

theorem paintAll_stamped {l : Layout} {f : Family} (hl : 0 < l.channels)
    (hwalk : Row.Walkable l.shape.size) (hcolors : l.colors ≠ 0)
    (hf : f = .rgb → l.colors = 3) (hcolor : l.colors + 1 ≤ color.length) (r : Nat)
    {row : List UInt8} (hrow : row.length = window.width * l.channels) :
    ∃ out, Span.paintAll ⟨f, l.shape, color⟩ ⟨f, l.shape, color⟩ l.channels
        (glyph.reader (window.skipY + r) window.skipX window.width).spans row = some out ∧
      RowStamped l glyph color window r row out := by
  have hsize := Layout.shape_size hl
  have hle := glyph.length_window_le (window.skipY + r) window.skipX window.width
  have halpha : color[l.shape.colors]? = some color[l.colors] := List.getElem?_eq_getElem hcolor
  have hcover : ∀ c, ∀ px : List UInt8, px.length = l.shape.size →
      (FlatPainter.cover ⟨f, l.shape, color⟩ color[l.colors] c px).length = l.shape.size :=
    fun c _ hpx => FlatPainter.length_cover (p := ⟨f, l.shape, color⟩) halpha c hpx
  have hidle : ∀ px : List UInt8, px.length = l.shape.size →
      FlatPainter.cover ⟨f, l.shape, color⟩ color[l.colors] coverNone px = px :=
    fun _ hpx => FlatPainter.cover_uncovered (p := ⟨f, l.shape, color⟩) halpha hpx
  rw [← hsize] at hrow ⊢
  refine ⟨_, Span.paintAll_eq_zipPaint (p := ⟨f, l.shape, color⟩) hf hwalk halpha ?_,
    Row.length_zipPaint fun c _ => hcover c, ?_⟩
  · rw [hrow]
    exact Nat.mul_le_mul_right _ hle
  · intro i hi
    have hpart := Row.part_zipPaint_of_le hcover hidle hle hrow hi
    rw [glyph.getElem?_window _ _ hi, FlatPainter.cover, FlatPainter.weight_eq_scale] at hpart
    rw [← hsize, Shape.stamped_colorful hcolors halpha]
    exact hpart

theorem walkable_of_covers (hdst : dst.check = .ok ())
    (hcovers : dst.bounds.Covers (window.region x y)) (hne : ¬ (window.region x y).IsEmpty) :
    Row.Walkable dst.layout.shape.size :=
  walkable_of_mem hdst (Rect.mem_of_covers hcovers (Rect.corner_mem hne))

theorem stamp_colorful (hfits : window.Fits glyph)
    (hcovers : dst.bounds.Covers (window.region x y)) (hne : ¬ (window.region x y).IsEmpty)
    (hcolors : dst.layout.colors ≠ 0) (hsize : dst.layout.colors < sizeMax)
    (hcolor : dst.layout.colors + 1 ≤ color.length) {f : Family}
    (hf : families.family? dst.layout.colors = some f) :
    stamp families dst glyph color x y window =
      if color[dst.layout.colors]? = some 0 then .ok dst
      else Failure.orOverrun (dst.editRows? x y window.width window.height fun r =>
        Span.paintAll ⟨f, dst.layout.shape, color⟩ ⟨f, dst.layout.shape, color⟩
          dst.layout.channels
          (glyph.reader (window.skipY + r) window.skipX window.width).spans) := by
  have hne' := FamilySet.family?_ne_alphaOnly (Nat.pos_of_ne_zero hcolors) hf
  have hfill : families.fillPainter dst.layout.shape color = .ok ⟨f, dst.layout.shape, color⟩ :=
    FamilySet.fillPainter_eq_ok hf hne' hsize hcolor _
  have htint : families.tintPainter dst.layout.shape color = .ok ⟨f, dst.layout.shape, color⟩ :=
    FamilySet.tintPainter_eq_ok hf hne' hsize hcolor _
  simp only [stamp]
  rw [if_neg (not_not_intro hfits), if_neg (not_not_intro hcovers), if_neg hne, if_neg hcolors,
    hfill, htint]

/-- A stamp that is served repaints the rows of its window, unless its colour has no opacity. -/
theorem stamp_served (hdst : dst.check = .ok ()) (hfits : window.Fits glyph)
    (hcovers : dst.bounds.Covers (window.region x y)) (hne : ¬ (window.region x y).IsEmpty)
    (hserved : Served families dst.layout color) :
    (dst.layout.colors ≠ 0 ∧ color[dst.layout.colors]? = some 0 ∧
      stamp families dst glyph color x y window = .ok dst) ∨
    ∃ paint, stamp families dst glyph color x y window =
        Failure.orOverrun (dst.editRows? x y window.width window.height paint) ∧
      ∀ r, ∀ row : List UInt8, row.length = window.width * dst.layout.channels →
        ∃ out, paint r row = some out ∧ RowStamped dst.layout glyph color window r row out := by
  have hchannels := (Layout.serves_of_check hdst).channels_pos
  by_cases hcolors : dst.layout.colors = 0
  · simp only [stamp]
    rw [if_neg (not_not_intro hfits), if_neg (not_not_intro hcovers), if_neg hne, if_pos hcolors]
    exact Or.inr ⟨_, rfl, fun r row hrow => markAll_stamped hchannels hcolors r hrow⟩
  obtain ⟨hsize, hcolor, hsupports⟩ := hserved hcolors
  obtain ⟨f, hf⟩ := Option.isSome_iff_exists.mp hsupports
  rw [stamp_colorful hfits hcovers hne hcolors hsize hcolor hf]
  by_cases halpha : color[dst.layout.colors]? = some 0
  · rw [if_pos halpha]
    exact Or.inl ⟨hcolors, halpha, rfl⟩
  · rw [if_neg halpha]
    exact Or.inr ⟨_, rfl, fun r row hrow =>
      paintAll_stamped hchannels (walkable_of_covers hdst hcovers hne) hcolors
        (FamilySet.family?_eq_rgb hf) hcolor r hrow⟩

theorem stamp_empty (hfits : window.Fits glyph) (hempty : (window.region x y).IsEmpty) :
    stamp families dst glyph color x y window = .ok dst := by
  have hcovers : dst.bounds.Covers (window.region x y) := Or.inl hempty
  simp only [stamp]
  rw [if_neg (not_not_intro hfits), if_neg (not_not_intro hcovers), if_pos hempty]

/-- What a stamp has found in order where it succeeds. -/
theorem stamp_checks (h : stamp families dst glyph color x y window = .ok out) :
    window.Fits glyph ∧ dst.bounds.Covers (window.region x y) ∧
      (¬ (window.region x y).IsEmpty → Served families dst.layout color) := by
  simp only [stamp] at h
  by_cases hfits : window.Fits glyph
  · rw [if_neg (not_not_intro hfits)] at h
    by_cases hcovers : dst.bounds.Covers (window.region x y)
    · rw [if_neg (not_not_intro hcovers)] at h
      refine ⟨hfits, hcovers, ?_⟩
      intro hne hcolors
      rw [if_neg hne, if_neg hcolors] at h
      cases hselect : families.selectColor .fill dst.layout.colors color dst.layout.hasAlpha with
      | error failure =>
        have hfill : families.fillPainter dst.layout.shape color = .error failure :=
          FamilySet.fillPainter_eq_error hselect
        rw [hfill] at h
        cases h
      | ok f => exact FamilySet.selectColor_inv hselect
    · rw [if_pos hcovers] at h
      cases h
  · rw [if_pos hfits] at h
    cases h

/-- Where the corners of the window are device coordinates, a stamp that finds everything in
order paints the pixels of its window and nothing else. -/
theorem stamp_painted (hdst : dst.check = .ok ()) (hdevice : window.InDevice x y)
    (hfits : window.Fits glyph) (hcovers : dst.bounds.Covers (window.region x y))
    (hserved : ¬ (window.region x y).IsEmpty → Served families dst.layout color) :
    ∃ out, stamp families dst glyph color x y window = .ok out ∧
      RegionPainted dst out (window.region x y) (Stamped dst.layout glyph color x y window) := by
  by_cases hne : (window.region x y).IsEmpty
  · exact ⟨dst, stamp_empty hfits hne, .of_isEmpty hne⟩
  have harea : ∀ a ∈ window.region x y, a ∈ dst.bounds := fun a ha => Rect.mem_of_covers hcovers ha
  have hpos := Rect.width_pos hne
  rcases stamp_served hdst hfits hcovers hne (hserved hne) with
    ⟨hcolors, halpha, hstamp⟩ | ⟨paint, hstamp, hpaint⟩
  · refine ⟨dst, hstamp, rfl, rfl, ?_, fun _ _ => rfl⟩
    intro a b hmem
    obtain ⟨d, hd⟩ := exists_pixel hdst (harea _ hmem)
    have hlength := length_of_pixel hd
    rw [← Layout.shape_size (Layout.serves_of_check hdst).channels_pos] at hlength
    exact ⟨d, d, hd, hd, (Shape.stamped_clear hcolors halpha _ hlength).symm⟩
  · have hwidth := Window.width_region hdevice hne
    have hheight := Window.height_region hdevice hne
    have hrows := @editRows?_region dst paint _ (Stamped dst.layout glyph color x y window) hdst
      harea hpos
    rw [hwidth, hheight] at hrows
    obtain ⟨out, hout, hpainted⟩ := hrows fun r _ row hrow => by
      obtain ⟨new, hnew, hstamped⟩ := hpaint r row hrow
      refine ⟨new, hnew, hstamped.size.trans hrow, ?_⟩
      intro i hi
      exact stamped_iff.mpr (hstamped.pixel i hi)
    refine ⟨out, ?_, hpainted⟩
    rw [hstamp]
    exact congrArg Failure.orOverrun hout

/-- Where the window has device coordinates for its corners, a stamp is a matter of coverage.
Each pixel of the window takes in the coverage that the glyph has at its place, every byte of
another pixel or of none stays, and another glyph with the same coverage under the window leaves
the same buffer. -/
theorem stamp_by_coverage (hdst : dst.check = .ok ()) (hdevice : window.InDevice x y)
    (hout : stamp families dst glyph color x y window = .ok out) :
    out.layout = dst.layout ∧ out.samples.length = dst.samples.length ∧
      (∀ i < window.width, ∀ r < window.height, ∃ d, dst.pixel (x + i) (y + r) = .ok d ∧
        out.pixel (x + i) (y + r) = .ok (dst.layout.shape.stamped color
          (glyph.coverage (window.skipY + r) (window.skipX + i)) d)) ∧
      (∀ b, (∀ i < window.width, ∀ r < window.height,
        ¬ dst.layout.Owns (x + i) (y + r) b) → out.samples[b]? = dst.samples[b]?) ∧
      (∀ other : Glyph, window.Fits other →
        (∀ i < window.width, ∀ r < window.height,
          other.coverage (window.skipY + r) (window.skipX + i) =
            glyph.coverage (window.skipY + r) (window.skipX + i)) →
        stamp families dst other color x y window = .ok out) := by
  obtain ⟨hfits, hcovers, hserved⟩ := stamp_checks hout
  obtain ⟨painted, hstamp, hpainted⟩ := stamp_painted hdst hdevice hfits hcovers hserved
  cases hout.symm.trans hstamp
  refine ⟨hpainted.layout, hpainted.size, ?_, ?_, ?_⟩
  · intro i hi r hr
    have hmem := (Window.mem_region_iff hdevice).mpr ⟨i, hi, r, hr, rfl, rfl⟩
    obtain ⟨d, new, hd, hnew, hrule⟩ := hpainted.inside _ _ hmem
    exact ⟨d, hd, stamped_iff.mp hrule ▸ hnew⟩
  · intro b hb
    apply hpainted.outside
    intro a c hmem
    obtain ⟨i, hi, r, hr, rfl, rfl⟩ := (Window.mem_region_iff hdevice).mp hmem
    exact hb i hi r hr
  · intro other hother hcoverage
    obtain ⟨again, hagain, hpainted'⟩ := stamp_painted hdst hdevice hother hcovers hserved
    have hsame : RegionPainted dst again (window.region x y)
        (Stamped dst.layout glyph color x y window) := by
      apply hpainted'.mono
      intro a b hmem old new hrule
      obtain ⟨i, hi, r, hr, rfl, rfl⟩ := (Window.mem_region_iff hdevice).mp hmem
      rw [stamped_iff] at hrule ⊢
      rw [hrule, hcoverage i hi r hr]
    rw [hagain, hsame.unique hpainted fun _ _ _ _ _ h h' => h.trans h'.symm]

def strip : Pixmap := ⟨.tight 0 0 3 1 2 true, [10, 20, 30, 40, 50, 60]⟩

def solidPair : Glyph := ⟨2, 1, [some 0], [0x0E]⟩
def codedPair : Glyph := ⟨2, 1, [some 0], [0x0F, 255, 255]⟩

theorem stamp_by_coverage_pair :
    strip.check = .ok () ∧ Window.InDevice ⟨2, 1, 0, 0⟩ 1 0 ∧
    ∃ out, stamp .all strip solidPair [200, 128] 1 0 ⟨2, 1, 0, 0⟩ = .ok out ∧
      out.pixel 2 0 = .ok (strip.layout.shape.stamped [200, 128] 255 [50, 60]) ∧
      out.samples[1]? = some 20 ∧
      stamp .all strip codedPair [200, 128] 1 0 ⟨2, 1, 0, 0⟩ = .ok out := by
  have hdevice : Window.InDevice ⟨2, 1, 0, 0⟩ 1 0 := ⟨by decide, by decide, by decide, by decide⟩
  have hout : stamp .all strip solidPair [200, 128] 1 0 ⟨2, 1, 0, 0⟩ =
      .ok ⟨strip.layout, [10, 20, 115, 148, 125, 158]⟩ := by with_unfolding_all rfl
  have hcoverage : ∀ i < 2, ∀ r < 1, codedPair.coverage (0 + r) (0 + i) =
      solidPair.coverage (0 + r) (0 + i) := by decide +kernel
  obtain ⟨-, -, hinside, hbytes, hother⟩ :=
    stamp_by_coverage (show strip.check = .ok () from rfl) hdevice hout
  refine ⟨rfl, hdevice, _, hout, ?_, hbytes 1 ?_, hother codedPair (by decide) hcoverage⟩
  · obtain ⟨d, hd, hnew⟩ := hinside 1 (by decide) 0 (by decide)
    cases hd
    have hfull : solidPair.coverage (0 + 0) (0 + 1) = 255 := by decide +kernel
    rw [hfull] at hnew
    exact hnew
  · intro i hi r hr howns
    obtain ⟨a, j, ha, hx, -, hle, hlt⟩ := Layout.exists_position_of_owns howns
    simp only [strip, Layout.tight, Layout.position] at ha hx hle hlt
    omega

end Pixmap

end Scanline
