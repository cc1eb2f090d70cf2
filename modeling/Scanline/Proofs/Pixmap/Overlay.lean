import Scanline.Pixmap.Overlay
import Scanline.Proofs.Painter.Source
import Scanline.Proofs.Pixmap.Edit
/-! Pixmaps over pixmaps, pixel by pixel. What a pixel becomes depends on itself, on the source
pixel at the same place and on the layer. The family that paints it does not matter. -/
namespace Scanline

/-- A sample of a source in a layer. A solid layer takes the source for premultiplied, and any
other one goes part of the way to it. -/
def Sample.layered (layer : UInt8) (srcAlpha : Option UInt8) (src dst : UInt8) : UInt8 :=
  if layer = 0 then dst
  else if layer = 255 then
    let e := srcAlpha.elim Weight.full Weight.ofByte
    if e = 0 then dst
    else if e = Weight.full then src
    else UInt8.ofInt (src.toNat + dst.toNat * (Weight.full - e) / 256)
  else
    let w := srcAlpha.elim (layer.toNat : Int) fun a => a.toNat * Weight.ofByte layer / 256
    UInt8.ofInt (dst.toNat + (src.toNat - dst.toNat) * w / 256)

def Shape.layered (src : Shape) (layer : UInt8) (s d : List UInt8) : List UInt8 :=
  List.zipWith (Sample.layered layer (src.alpha? s)) (src.samples s) d

theorem Mix.sample_ofLayer (layer : UInt8) (srcAlpha : Option UInt8) (src dst : UInt8) :
    (ofLayer layer srcAlpha).sample src dst = Sample.layered layer srcAlpha src dst := by
  unfold Sample.layered
  split
  · rename_i hclear
    simp [sample, hclear]
  split
  · rename_i hsolid
    rw [ofLayer, if_pos (Weight.ofByte_eq_full_iff.mpr hsolid)]
    generalize srcAlpha.elim Weight.full Weight.ofByte = e
    dsimp only
    by_cases hzero : e = 0
    · rw [if_pos hzero, if_pos hzero, sample]
    rw [if_neg hzero, if_neg hzero]
    by_cases hfull : e = Weight.full
    · rw [if_pos (by omega), if_pos hfull, sample]
    · rw [if_neg (by omega), if_neg hfull]
      rfl
  · rename_i hsolid
    rw [ofLayer, if_neg (mt Weight.ofByte_eq_full_iff.mp hsolid)]
    unfold Weight.scale
    generalize (srcAlpha.elim (layer.toNat : Int) fun a =>
      a.toNat * Weight.ofByte layer / 256) = w
    dsimp only
    by_cases hzero : w = 0
    · simp [sample, hzero]
    · rw [if_neg hzero]
      rfl

theorem SourcePainter.compose_eq_layered (src : Shape) (layer : UInt8) (s d : List UInt8) :
    compose src layer s d = src.layered layer s d := by
  unfold compose Mix.pixel Shape.layered
  congr 1
  funext a b
  exact Mix.sample_ofLayer layer _ a b

/-- Without colour both operands have to bring an alpha. -/
theorem FamilySet.exists_overlayPainter {s : FamilySet} {colors : Nat} {da sa : Bool}
    (hserved : s.supports colors = true) (halpha : colors = 0 → da = true ∧ sa = true) :
    ∃ f, s.overlayPainter colors da sa = .ok ⟨f, colors, da, sa⟩ := by
  obtain ⟨f, hf⟩ := Option.isSome_iff_exists.mp hserved
  refine ⟨f, ?_⟩
  rcases Nat.eq_zero_or_pos colors with rfl | hpos
  · obtain ⟨rfl, rfl⟩ := halpha rfl
    obtain rfl := Option.some.inj hf
    rfl
  · exact overlayPainter_eq_ok hf (family?_ne_alphaOnly hpos hf) da sa

namespace Pixmap

variable {dst src : Pixmap}

def Layered (src : Pixmap) (layer : UInt8) (x y : Int) (old new : List UInt8) : Prop :=
  ∃ s, src.pixel x y = .ok s ∧ new = src.layout.shape.layered layer s old

theorem Layered.unique {layer : UInt8} {x y : Int} {old new new' : List UInt8}
    (h : Layered src layer x y old new) (h' : Layered src layer x y old new') : new = new' := by
  obtain ⟨s, hs, rfl⟩ := h
  obtain ⟨s', hs', rfl⟩ := h'
  cases hs.symm.trans hs'
  rfl

section Refusals

variable {families : FamilySet} {layer : UInt8} {clip : Rect}

theorem overlay_mismatched (h : dst.layout.colors ≠ src.layout.colors) :
    overlay families dst src layer clip =
      .error (.refused (.channelMismatch dst.layout.colors src.layout.colors)) := by
  simp only [overlay]
  rw [if_pos h]

theorem overlay_empty (hcolors : dst.layout.colors = src.layout.colors)
    (hempty : ((dst.bounds.inter src.bounds).inter clip).IsEmpty) :
    overlay families dst src layer clip = .ok dst := by
  simp only [overlay]
  rw [if_neg (not_not_intro hcolors), if_pos hempty]

/-- Families are only asked for where there is something to paint. -/
theorem overlay_unserved (hcolors : dst.layout.colors = src.layout.colors)
    (hne : ¬ ((dst.bounds.inter src.bounds).inter clip).IsEmpty)
    (hunserved : families.supports dst.layout.colors = false) :
    overlay families dst src layer clip =
      .error (.refused (.unserved .overlay dst.layout.colors)) := by
  simp only [overlay]
  rw [if_neg (not_not_intro hcolors), if_neg hne, FamilySet.overlayPainter,
    FamilySet.select_unserved hunserved]
  rfl

end Refusals

theorem overlay_region_row {p : SourcePainter} {area : Rect} (hshape : p.dst = dst.layout.shape)
    (hshape' : p.src = src.layout.shape) (hdst : dst.check = .ok ()) (hsrc : src.check = .ok ())
    (harea : ∀ a ∈ area, a ∈ dst.bounds) (harea' : ∀ a ∈ area, a ∈ src.bounds)
    (hwidth : 0 < area.width) (layer : UInt8) {r : Nat} (hr : r < area.height) {row : List UInt8}
    (hrow : row.length = area.width * dst.layout.channels) :
    ∃ out, (do
        let source ← src.span? area.x0 (area.y0 + r) area.width
        p.overlay (.ofByte layer) row source area.width) = some out ∧
      out.length = area.width * dst.layout.channels ∧
      ∀ i < area.width, Layered src layer (area.x0 + i) (area.y0 + r)
        (Row.part row (i * dst.layout.channels) dst.layout.channels)
        (Row.part out (i * dst.layout.channels) dst.layout.channels) := by
  have hsize := Layout.shape_size (Layout.serves_of_check hdst).channels_pos
  have hsize' := Layout.shape_size (Layout.serves_of_check hsrc).channels_pos
  have hwalk := walkable_region hdst harea hwidth (by omega)
  have hwalk' := walkable_region hsrc harea' hwidth (by omega)
  have hlen := Row.length_part
    (Layout.regionStart_le (Layout.serves_of_check hsrc) harea' hwidth hr)
  rw [← hshape] at hsize hwalk
  rw [← hshape'] at hsize' hwalk'
  rw [← hsize] at hrow
  rw [← hsize'] at hlen
  obtain ⟨out, hout, hlength, hpixel⟩ := p.overlay_row hwalk' hwalk layer hrow hlen
  rw [hsize] at hlength hpixel
  rw [hsize'] at hout hpixel
  refine ⟨out, ?_, hlength, ?_⟩
  · rw [span?_region hsrc harea' hwidth hr]
    exact hout
  · intro i hi
    refine ⟨_, pixel_region hsrc harea' hi hr, ?_⟩
    rw [hpixel i hi, SourcePainter.compose_eq_layered, hshape']

theorem overlay_painted {families : FamilySet} (hdst : dst.check = .ok ())
    (hsrc : src.check = .ok ()) (hcolors : dst.layout.colors = src.layout.colors)
    (hserved : families.supports dst.layout.colors = true) (layer : UInt8) (clip : Rect) :
    ∃ out, overlay families dst src layer clip = .ok out ∧
      RegionPainted dst out ((dst.bounds.inter src.bounds).inter clip) (Layered src layer) := by
  have hoverlap : ∀ x y, (x, y) ∈ (dst.bounds.inter src.bounds).inter clip ↔
      (x, y) ∈ dst.bounds ∧ (x, y) ∈ src.bounds ∧ (x, y) ∈ clip := fun x y => Rect.mem_inter_inter
  unfold overlay
  generalize (dst.bounds.inter src.bounds).inter clip = area at hoverlap ⊢
  dsimp only
  rw [if_neg (not_not_intro hcolors)]
  by_cases hempty : area.IsEmpty
  · rw [if_pos hempty]
    exact ⟨dst, rfl, .of_isEmpty hempty⟩
  rw [if_neg hempty]
  have hwidth := Rect.width_pos hempty
  have harea : ∀ a ∈ area, a ∈ dst.bounds := fun a ha => ((hoverlap a.1 a.2).mp ha).1
  have harea' : ∀ a ∈ area, a ∈ src.bounds := fun a ha => ((hoverlap a.1 a.2).mp ha).2.1
  -- a pixel without colour is all alpha, so the family for such pixels can serve both operands
  have halpha : dst.layout.colors = 0 →
      dst.layout.hasAlpha = true ∧ src.layout.hasAlpha = true := fun hzero =>
    ⟨Layout.hasAlpha_of_colors_eq_zero (Layout.serves_of_check hdst).channels_pos hzero,
      Layout.hasAlpha_of_colors_eq_zero (Layout.serves_of_check hsrc).channels_pos
        (hcolors ▸ hzero)⟩
  obtain ⟨f, hpainter⟩ := FamilySet.exists_overlayPainter hserved halpha
  obtain ⟨out, hout, hpainted⟩ := editRows?_region hdst harea hwidth fun r hr row hrow =>
    overlay_region_row (p := ⟨f, dst.layout.colors, dst.layout.hasAlpha, src.layout.hasAlpha⟩)
      rfl (by rw [SourcePainter.src, Layout.shape, hcolors]) hdst hsrc harea harea' hwidth layer
      hr hrow
  refine ⟨out, ?_, hpainted⟩
  rw [hpainter]
  dsimp only
  rw [hout]
  rfl

/-- What can be served is painted. Each pixel in both pixmaps and the clip takes in the source
pixel at its place, every other pixel stays, and so does every byte that belongs to none of
those: the ends of rows, and what follows the last one. -/
theorem overlay_exact {families : FamilySet} (hdst : dst.check = .ok ()) (hsrc : src.check = .ok ())
    (hcolors : dst.layout.colors = src.layout.colors)
    (hserved : families.supports dst.layout.colors = true) (layer : UInt8) (clip : Rect) :
    ∃ out, overlay families dst src layer clip = .ok out ∧ out.layout = dst.layout ∧
      out.samples.length = dst.samples.length ∧
      (∀ x y, (x, y) ∈ dst.bounds → (x, y) ∈ src.bounds → (x, y) ∈ clip →
        ∃ s d, src.pixel x y = .ok s ∧ dst.pixel x y = .ok d ∧
          out.pixel x y = .ok (src.layout.shape.layered layer s d)) ∧
      (∀ x y, ¬ ((x, y) ∈ dst.bounds ∧ (x, y) ∈ src.bounds ∧ (x, y) ∈ clip) →
        out.pixel x y = dst.pixel x y) ∧
      (∀ b, (∀ x y, (x, y) ∈ dst.bounds → (x, y) ∈ src.bounds → (x, y) ∈ clip →
        ¬ dst.layout.Owns x y b) → out.samples[b]? = dst.samples[b]?) := by
  obtain ⟨out, hout, hpainted⟩ := overlay_painted hdst hsrc hcolors hserved layer clip
  refine ⟨out, hout, hpainted.layout, hpainted.size, ?_, ?_, ?_⟩
  · intro x y hx hy hclip
    obtain ⟨d, new, hd, hnew, s, hs, rfl⟩ :=
      hpainted.inside x y (Rect.mem_inter_inter.mpr ⟨hx, hy, hclip⟩)
    exact ⟨s, d, hs, hd, hnew⟩
  · intro x y hout
    exact hpainted.pixel_outside hdst (mt Rect.mem_inter_inter.mp hout)
  · intro b hb
    apply hpainted.outside
    intro x y hmem
    obtain ⟨hx, hy, hclip⟩ := Rect.mem_inter_inter.mp hmem
    exact hb x y hx hy hclip

def grayPage : Pixmap := ⟨⟨0, 0, 2, 2, 2, true, 5⟩, [10, 20, 30, 40, 7, 50, 60, 70, 80, 9]⟩

def grayPatch : Pixmap := ⟨.tight 1 0 2 2 1 false, [200, 201, 202, 203]⟩

theorem overlay_exact_gray :
    grayPage.check = .ok () ∧ grayPatch.check = .ok () ∧
    grayPage.layout.colors = grayPatch.layout.colors ∧
    FamilySet.all.supports grayPage.layout.colors = true ∧
    ∃ out, overlay .all grayPage grayPatch 128 .everywhere = .ok out ∧
      out.samples.length = 10 ∧
      (∃ s d, grayPatch.pixel 1 1 = .ok s ∧ grayPage.pixel 1 1 = .ok d ∧
        out.pixel 1 1 = .ok (grayPatch.layout.shape.layered 128 s d)) ∧
      out.pixel 0 1 = grayPage.pixel 0 1 ∧ out.samples[4]? = some 7 := by
  refine ⟨rfl, rfl, rfl, rfl, ?_⟩
  obtain ⟨out, hout, -, hlength, hinside, houtside, hbytes⟩ :=
    @overlay_exact grayPage grayPatch .all rfl rfl rfl rfl 128 .everywhere
  refine ⟨out, hout, hlength, hinside 1 1 (by decide) (by decide) (by decide),
    houtside 0 1 (by decide), hbytes 4 ?_⟩
  intro x y _ _ _ howns
  obtain ⟨i, j, hi, _, _, hle, hlt⟩ := Layout.exists_position_of_owns howns
  simp only [Layout.position, grayPage] at hi hle hlt
  rcases Nat.eq_zero_or_pos j with rfl | hj
  · omega
  · omega

end Pixmap

end Scanline
