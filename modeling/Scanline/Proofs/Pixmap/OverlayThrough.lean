import Scanline.Pixmap.Overlay
import Scanline.Proofs.Painter.Masked
import Scanline.Proofs.Pixmap.Edit
/-! Pixmaps over pixmaps under a mask, pixel by pixel. The three operands keep their own places
in device space and their own strides; what counts is the device pixel. -/
namespace Scanline

/-- Without colour the destination has to bring an alpha. -/
theorem FamilySet.exists_maskPainter {s : FamilySet} {colors : Nat} {da : Bool} (sa : Bool)
    (hserved : s.supports colors = true) (halpha : colors = 0 → da = true) :
    ∃ f, s.maskPainter colors da sa = .ok ⟨f, colors, da, sa⟩ := by
  obtain ⟨f, hf⟩ := Option.isSome_iff_exists.mp hserved
  refine ⟨f, ?_⟩
  rcases Nat.eq_zero_or_pos colors with rfl | hpos
  · obtain rfl := halpha rfl
    obtain rfl := Option.some.inj hf
    rfl
  · exact maskPainter_eq_ok hf (family?_ne_alphaOnly hpos hf) da sa

namespace Pixmap

variable {dst src mask : Pixmap}

def Covered (src mask : Pixmap) (x y : Int) (old new : List UInt8) : Prop :=
  ∃ s m, src.pixel x y = .ok s ∧ mask.pixel x y = .ok [m] ∧
    new = src.layout.shape.covered m s old

theorem Covered.unique {x y : Int} {old new new' : List UInt8}
    (h : Covered src mask x y old new) (h' : Covered src mask x y old new') : new = new' := by
  obtain ⟨s, m, hs, hm, rfl⟩ := h
  obtain ⟨s', m', hs', hm', rfl⟩ := h'
  cases hs.symm.trans hs'
  cases hm.symm.trans hm'
  rfl

structure Matching (dst src mask : Pixmap) : Prop where
  channels : dst.layout.channels = src.layout.channels
  alpha : dst.layout.hasAlpha = src.layout.hasAlpha
  one : mask.layout.channels = 1

theorem Matching.colors (h : Matching dst src mask) :
    dst.layout.colors = src.layout.colors := by
  rw [Layout.colors, Layout.colors, h.channels, h.alpha]

section Refusals

variable {families : FamilySet}

theorem overlayThrough_channels (h : dst.layout.channels ≠ src.layout.channels) :
    overlayThrough families dst src mask =
      .error (.refused (.channelMismatch dst.layout.channels src.layout.channels)) := by
  simp only [overlayThrough]
  rw [if_pos h]

theorem overlayThrough_alpha (hchannels : dst.layout.channels = src.layout.channels)
    (h : dst.layout.hasAlpha ≠ src.layout.hasAlpha) :
    overlayThrough families dst src mask =
      .error (.refused (.channelMismatch dst.layout.colors src.layout.colors)) := by
  simp only [overlayThrough]
  rw [if_neg (not_not_intro hchannels), if_pos h]

theorem overlayThrough_maskChannels (hchannels : dst.layout.channels = src.layout.channels)
    (halpha : dst.layout.hasAlpha = src.layout.hasAlpha) (h : mask.layout.channels ≠ 1) :
    overlayThrough families dst src mask =
      .error (.refused (.maskChannels mask.layout.channels)) := by
  simp only [overlayThrough]
  rw [if_neg (not_not_intro hchannels), if_neg (not_not_intro halpha), if_pos h]

/-- What does not match is refused by the layouts alone. -/
theorem overlayThrough_mismatched (h : ¬ Matching dst src mask) :
    ∃ refusal, ∀ families q, q.layout = dst.layout →
      overlayThrough families q src mask = .error (.refused refusal) := by
  by_cases hchannels : dst.layout.channels = src.layout.channels
  case neg =>
    refine ⟨.channelMismatch dst.layout.channels src.layout.channels, ?_⟩
    intro families q hq
    rw [← hq] at hchannels ⊢
    exact overlayThrough_channels hchannels
  by_cases halpha : dst.layout.hasAlpha = src.layout.hasAlpha
  case neg =>
    refine ⟨.channelMismatch dst.layout.colors src.layout.colors, ?_⟩
    intro families q hq
    rw [← hq] at hchannels halpha ⊢
    exact overlayThrough_alpha hchannels halpha
  by_cases hone : mask.layout.channels = 1
  case neg =>
    refine ⟨.maskChannels mask.layout.channels, ?_⟩
    intro families q hq
    rw [← hq] at hchannels halpha
    exact overlayThrough_maskChannels hchannels halpha hone
  exact absurd ⟨hchannels, halpha, hone⟩ h

theorem overlayThrough_empty (h : Matching dst src mask)
    (hempty : ((dst.bounds.inter src.bounds).inter mask.bounds).IsEmpty) :
    overlayThrough families dst src mask = .ok dst := by
  simp only [overlayThrough]
  rw [if_neg (not_not_intro h.channels), if_neg (not_not_intro h.alpha),
    if_neg (not_not_intro h.one), if_pos hempty]

theorem overlayThrough_unserved (h : Matching dst src mask)
    (hne : ¬ ((dst.bounds.inter src.bounds).inter mask.bounds).IsEmpty)
    (hunserved : families.supports dst.layout.colors = false) :
    overlayThrough families dst src mask =
      .error (.refused (.unserved .masked dst.layout.colors)) := by
  simp only [overlayThrough]
  rw [if_neg (not_not_intro h.channels), if_neg (not_not_intro h.alpha),
    if_neg (not_not_intro h.one), if_neg hne, ← h.colors, FamilySet.maskPainter,
    FamilySet.select_unserved hunserved]
  rfl

end Refusals

theorem mask_region (hmask : mask.check = .ok ()) (hone : mask.layout.channels = 1) {area : Rect}
    (harea : ∀ a ∈ area, a ∈ mask.bounds) (hwidth : 0 < area.width) {r : Nat}
    (hr : r < area.height) :
    ∃ bytes, mask.span? area.x0 (area.y0 + r) area.width = some bytes ∧
      bytes.length = area.width ∧
      ∀ i < area.width, ∃ m, bytes[i]? = some m ∧
        mask.pixel (area.x0 + i) (area.y0 + r) = .ok [m] := by
  have hle := Layout.regionStart_le (Layout.serves_of_check hmask) harea hwidth hr
  have hlen := Row.length_part hle
  refine ⟨_, span?_region hmask harea hwidth hr, ?_, ?_⟩
  · rw [hlen, hone, Nat.mul_one]
  · intro i hi
    rw [hone, Nat.mul_one] at hlen
    have hpixel := pixel_region hmask harea hi hr
    rw [hone, Nat.mul_one, Nat.mul_one, Row.part_one (by rw [hlen]; exact hi)] at hpixel
    rw [hone, Nat.mul_one]
    exact ⟨_, List.getElem?_eq_getElem (by rw [hlen]; exact hi), hpixel⟩

theorem masked_region_row {p : SourcePainter} {area : Rect} (hshape : p.dst = dst.layout.shape)
    (hshape' : p.src = src.layout.shape) (hone : mask.layout.channels = 1)
    (hdst : dst.check = .ok ()) (hsrc : src.check = .ok ()) (hmask : mask.check = .ok ())
    (harea : ∀ a ∈ area, a ∈ dst.bounds ∧ a ∈ src.bounds ∧ a ∈ mask.bounds)
    (hwidth : 0 < area.width) {r : Nat} (hr : r < area.height) {row : List UInt8}
    (hrow : row.length = area.width * dst.layout.channels) :
    ∃ out, (do
        let source ← src.span? area.x0 (area.y0 + r) area.width
        let coverage ← mask.span? area.x0 (area.y0 + r) area.width
        p.masked row source coverage area.width) = some out ∧
      out.length = area.width * dst.layout.channels ∧
      ∀ i < area.width, Covered src mask (area.x0 + i) (area.y0 + r)
        (Row.part row (i * dst.layout.channels) dst.layout.channels)
        (Row.part out (i * dst.layout.channels) dst.layout.channels) := by
  have hareaDst : ∀ a ∈ area, a ∈ dst.bounds := fun a ha => (harea a ha).1
  have hareaSrc : ∀ a ∈ area, a ∈ src.bounds := fun a ha => (harea a ha).2.1
  have hsize := Layout.shape_size (Layout.serves_of_check hdst).channels_pos
  have hsize' := Layout.shape_size (Layout.serves_of_check hsrc).channels_pos
  have hwalk := walkable_region hdst hareaDst hwidth (by omega)
  have hwalk' := walkable_region hsrc hareaSrc hwidth (by omega)
  have hlen := Row.length_part
    (Layout.regionStart_le (Layout.serves_of_check hsrc) hareaSrc hwidth hr)
  obtain ⟨bytes, hbytes, hcount, hmaskPixel⟩ :=
    mask_region hmask hone (fun a ha => (harea a ha).2.2) hwidth hr
  rw [← hshape] at hsize hwalk
  rw [← hshape'] at hsize' hwalk'
  rw [← hsize] at hrow
  rw [← hsize'] at hlen
  obtain ⟨out, hout, hlength, hpixel⟩ := p.masked_row hwalk' hwalk hrow hlen hcount
  rw [hsize] at hlength hpixel
  rw [hsize'] at hout hpixel
  refine ⟨out, ?_, hlength, ?_⟩
  · rw [span?_region hsrc hareaSrc hwidth hr, hbytes]
    exact hout
  · intro i hi
    obtain ⟨m, hm, hbyte⟩ := hmaskPixel i hi
    refine ⟨_, m, pixel_region hsrc hareaSrc hi hr, hbyte, ?_⟩
    rw [hpixel i m hm, hshape']

theorem overlayThrough_painted {families : FamilySet} (hdst : dst.check = .ok ())
    (hsrc : src.check = .ok ()) (hmask : mask.check = .ok ())
    (hchannels : dst.layout.channels = src.layout.channels)
    (halpha : dst.layout.hasAlpha = src.layout.hasAlpha) (hone : mask.layout.channels = 1)
    (hserved : families.supports dst.layout.colors = true) :
    ∃ out, overlayThrough families dst src mask = .ok out ∧
      RegionPainted dst out ((dst.bounds.inter src.bounds).inter mask.bounds)
        (Covered src mask) := by
  have hcommon : ∀ x y, (x, y) ∈ (dst.bounds.inter src.bounds).inter mask.bounds ↔
      (x, y) ∈ dst.bounds ∧ (x, y) ∈ src.bounds ∧ (x, y) ∈ mask.bounds := fun x y => Rect.mem_inter_inter
  have hcolors : dst.layout.colors = src.layout.colors := by
    rw [Layout.colors, Layout.colors, hchannels, halpha]
  simp only [overlayThrough]
  generalize (dst.bounds.inter src.bounds).inter mask.bounds = area at hcommon ⊢
  rw [if_neg (not_not_intro hchannels), if_neg (not_not_intro halpha),
    if_neg (not_not_intro hone)]
  by_cases hempty : area.IsEmpty
  · rw [if_pos hempty]
    exact ⟨dst, rfl, .of_isEmpty hempty⟩
  rw [if_neg hempty]
  have hwidth := Rect.width_pos hempty
  have harea : ∀ a ∈ area, a ∈ dst.bounds ∧ a ∈ src.bounds ∧ a ∈ mask.bounds :=
    fun a ha => (hcommon a.1 a.2).mp ha
  obtain ⟨f, hpainter⟩ := FamilySet.exists_maskPainter src.layout.hasAlpha hserved
    (Layout.hasAlpha_of_colors_eq_zero (Layout.serves_of_check hdst).channels_pos)
  obtain ⟨out, hout, hpainted⟩ := editRows?_region hdst (fun a ha => (harea a ha).1) hwidth
    fun r hr row hrow => masked_region_row
      (p := ⟨f, dst.layout.colors, dst.layout.hasAlpha, src.layout.hasAlpha⟩) rfl
      (by rw [SourcePainter.src, Layout.shape, hcolors]) hone hdst hsrc hmask harea hwidth hr hrow
  refine ⟨out, ?_, hpainted⟩
  rw [← hcolors, hpainter]
  dsimp only
  rw [hout]
  rfl

/-- What can be served is painted. Each pixel in all three pixmaps takes in the source pixel at
its place under the byte of the mask there, every other pixel stays, and so does every byte that
belongs to none of those. -/
theorem overlayThrough_exact {families : FamilySet} (hdst : dst.check = .ok ())
    (hsrc : src.check = .ok ()) (hmask : mask.check = .ok ())
    (hchannels : dst.layout.channels = src.layout.channels)
    (halpha : dst.layout.hasAlpha = src.layout.hasAlpha) (hone : mask.layout.channels = 1)
    (hserved : families.supports dst.layout.colors = true) :
    ∃ out, overlayThrough families dst src mask = .ok out ∧ out.layout = dst.layout ∧
      out.samples.length = dst.samples.length ∧
      (∀ x y, (x, y) ∈ dst.bounds → (x, y) ∈ src.bounds → (x, y) ∈ mask.bounds →
        ∃ s m d, src.pixel x y = .ok s ∧ mask.pixel x y = .ok [m] ∧ dst.pixel x y = .ok d ∧
          out.pixel x y = .ok (src.layout.shape.covered m s d)) ∧
      (∀ x y, ¬ ((x, y) ∈ dst.bounds ∧ (x, y) ∈ src.bounds ∧ (x, y) ∈ mask.bounds) →
        out.pixel x y = dst.pixel x y) ∧
      (∀ b, (∀ x y, (x, y) ∈ dst.bounds → (x, y) ∈ src.bounds → (x, y) ∈ mask.bounds →
        ¬ dst.layout.Owns x y b) → out.samples[b]? = dst.samples[b]?) := by
  obtain ⟨out, hout, hpainted⟩ :=
    overlayThrough_painted hdst hsrc hmask hchannels halpha hone hserved
  refine ⟨out, hout, hpainted.layout, hpainted.size, ?_, ?_, ?_⟩
  · intro x y hx hy hm
    obtain ⟨d, new, hd, hnew, s, m, hs, hbyte, rfl⟩ :=
      hpainted.inside x y (Rect.mem_inter_inter.mpr ⟨hx, hy, hm⟩)
    exact ⟨s, m, d, hs, hbyte, hd, hnew⟩
  · intro x y hout
    exact hpainted.pixel_outside hdst (mt Rect.mem_inter_inter.mp hout)
  · intro b hb
    apply hpainted.outside
    intro x y hmem
    obtain ⟨hx, hy, hm⟩ := Rect.mem_inter_inter.mp hmem
    exact hb x y hx hy hm

/-- Gray with alpha, two pixels to a row and one spare byte behind the first. -/
def paper : Pixmap := ⟨⟨0, 0, 2, 2, 2, true, 5⟩, [10, 20, 30, 40, 7, 50, 60, 70, 80]⟩

def ink : Pixmap := ⟨.tight 0 1 2 1 2 true, [90, 100, 110, 255]⟩

def stencil : Pixmap := ⟨.tight 1 (-1) 2 3 1 false, [0, 0, 0, 0, 128, 255]⟩

theorem overlayThrough_exact_gray :
    paper.check = .ok () ∧ ink.check = .ok () ∧ stencil.check = .ok () ∧
    paper.layout.channels = ink.layout.channels ∧ paper.layout.hasAlpha = ink.layout.hasAlpha ∧
    stencil.layout.channels = 1 ∧ FamilySet.all.supports paper.layout.colors = true ∧
    ∃ out, overlayThrough .all paper ink stencil = .ok out ∧ out.samples.length = 9 ∧
      out.pixel 1 1 = .ok (ink.layout.shape.covered 128 [110, 255] [70, 80]) ∧
      out.pixel 0 1 = paper.pixel 0 1 := by
  refine ⟨rfl, rfl, rfl, rfl, rfl, rfl, rfl, ?_⟩
  obtain ⟨out, hout, -, hlength, hinside, houtside, -⟩ :=
    @overlayThrough_exact paper ink stencil .all rfl rfl rfl rfl rfl rfl rfl
  refine ⟨out, hout, hlength, ?_, houtside 0 1 (by decide)⟩
  obtain ⟨s, m, d, hs, hm, hd, hnew⟩ := hinside 1 1 (by decide) (by decide) (by decide)
  cases hs
  cases hm
  cases hd
  exact hnew

end Pixmap

end Scanline
