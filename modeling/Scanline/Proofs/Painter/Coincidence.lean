import Scanline.Proofs.Painter.Alpha
import Scanline.Proofs.Painter.Masked
import Scanline.Proofs.Painter.Tinted
/-! Painters that come to the same. A source in a solid layer is the source through a full mask, a
fill is a tint through a full mask, and a tint with an opaque colour is a row of that colour through
the same mask. The painters are written apart, and each of these pairs meets in its pixels. -/
namespace Scanline

/-- A pixel that is clear has no colour left. Pixels without alpha are never clear. -/
def Shape.ClearIsBlack (shape : Shape) (px : List UInt8) : Prop :=
  shape.alpha? px = some 0 → ∀ c ∈ px.take shape.colors, c = 0

instance (shape : Shape) (px : List UInt8) : Decidable (shape.ClearIsBlack px) :=
  inferInstanceAs (Decidable (_ → _))

namespace Mix

/-- What lies below a source that is not clear keeps the same weight under a full mask as below a
solid layer. -/
theorem ofCoverage_full {srcAlpha : Option UInt8} (h : srcAlpha ≠ some 0) :
    ofCoverage 255 srcAlpha = ofLayer 255 srcAlpha := by
  cases srcAlpha with
  | none => rfl
  | some a =>
    have hzero : a ≠ 0 := by simpa using h
    by_cases hopaque : a = 255
    · simp [ofCoverage, ofLayer, hopaque]
    · have hrest : Weight.full - Weight.ofByte a ≠ 0 := by
        simpa [← Weight.ofByte_rest] using hopaque
      simp [ofCoverage, ofLayer, Weight.ofByte_rest, hzero, hopaque, hrest]

/-- A solid layer passes over a clear pixel and a full mask adds it, which makes no difference
where it is black. -/
theorem sample_ofCoverage_full {srcAlpha : Option UInt8} {c : UInt8}
    (hclear : srcAlpha = some 0 → c = 0) (old : UInt8) :
    (ofCoverage 255 srcAlpha).sample c old = (ofLayer 255 srcAlpha).sample c old := by
  by_cases hzero : srcAlpha = some 0
  · have hcover : ofCoverage 255 (some 0) = .overlay Weight.full := by decide
    have hlayer : ofLayer 255 (some 0) = .keep := by decide
    rw [hclear hzero, hzero, hcover, hlayer]
    simp [sample]
  · rw [ofCoverage_full hzero]

end Mix

namespace SourcePainter

theorem cover_full {src : Shape} {px : List UInt8} (hclear : src.ClearIsBlack px) (d : List UInt8) :
    cover src (px, 255) d = compose src 255 px d := by
  apply Mix.pixel_congr
  intro c hc old
  apply Mix.sample_ofCoverage_full
  intro hzero
  simp only [Shape.samples, hzero, Option.getD_some, List.mem_append, List.mem_singleton] at hc
  exact hc.elim (hclear hzero c) id

variable {n : Nat} {da sa : Bool} {row src : List UInt8} {count : Nat}

theorem masked_full_eq_overlay (f g : Family) (hda : Row.Walkable (Shape.mk n da).size)
    (hsa : Row.Walkable (Shape.mk n sa).size) (hrow : count * (Shape.mk n da).size ≤ row.length)
    (hsrc : count * (Shape.mk n sa).size ≤ src.length)
    (hclear : ∀ px ∈ Row.takePixels (Shape.mk n sa).size count src,
      (Shape.mk n sa).ClearIsBlack px) :
    (mk g n da sa).masked row src (List.replicate count 255) count =
      (mk f n da sa).overlay (.ofByte 255) row src count := by
  have hcount := (Nat.le_div_iff_mul_le hsa.1).mpr hsrc
  have hmask : count ≤ (List.replicate count (255 : UInt8)).length :=
    Nat.le_of_eq List.length_replicate.symm
  have hover := overlay_eq_zipPaint ⟨f, n, da, sa⟩ hsa hda 255 row src count
  calc (mk g n da sa).masked row src (List.replicate count 255) count
      = some (Row.zipPaint (Shape.mk n da).size (cover ⟨n, sa⟩)
          ((Row.takePixels (Shape.mk n sa).size count src).zip (List.replicate count 255))
          row) := by
        rw [masked_eq_zipPaint ⟨g, n, da, sa⟩ (fun _ => ⟨hsa, hda⟩) hrow hsrc hmask,
          List.take_replicate, Nat.min_self]
        rfl
    _ = some (Row.zipPaint (Shape.mk n da).size (fun px => cover ⟨n, sa⟩ (px, 255))
          (Row.takePixels (Shape.mk n sa).size count src) row) := by
        rw [Row.zipPaint_zip_replicate_right _ (by simp)]
    _ = some (Row.zipPaint (Shape.mk n da).size (compose ⟨n, sa⟩ 255)
          (Row.takePixels (Shape.mk n sa).size count src) row) :=
        congrArg some (Row.zipPaint_congr (fun px hpx d _ => cover_full (hclear px hpx) d) row)
    _ = (mk f n da sa).overlay (.ofByte 255) row src count := by
        rw [hover, ← Row.take_takePixels hcount]
        rfl

/-- A source through a full mask is the source in a solid layer, also if it is not premultiplied:
only its clear pixels have to be black. A layer that is served gets through, unless its pixels
have more samples than can be walked. -/
theorem full_mask_is_solid_layer {s t : FamilySet} {p q : SourcePainter}
    (hp : s.overlayPainter n da sa = .ok p) (hq : t.maskPainter n da sa = .ok q)
    (hrow : count * (Shape.mk n da).size ≤ row.length)
    (hsrc : count * (Shape.mk n sa).size ≤ src.length)
    (hclear : ∀ px ∈ Row.takePixels (Shape.mk n sa).size count src,
      (Shape.mk n sa).ClearIsBlack px) :
    (n < sizeMax → ∃ out, p.overlay (.ofByte 255) row src count = some out) ∧
    ∀ out, p.overlay (.ofByte 255) row src count = some out →
      q.masked row src (List.replicate count 255) count = some out := by
  obtain ⟨f, hselect, rfl⟩ := FamilySet.overlayPainter_inv hp
  obtain ⟨g, -, rfl⟩ := FamilySet.maskPainter_inv hq
  constructor
  · intro hn
    have hsa := FamilySet.walkable_of_select hselect hn fun h => (Bool.and_eq_true_iff.mp h).2
    have hda := FamilySet.walkable_of_select hselect hn fun h => (Bool.and_eq_true_iff.mp h).1
    exact ⟨_, overlay_eq_zipPaint ⟨f, n, da, sa⟩ hsa hda 255 row src count⟩
  · intro out hout
    obtain ⟨hsa, hda⟩ := walkable_of_overlay (by decide) hout
    exact (masked_full_eq_overlay f g hda hsa hrow hsrc hclear).trans hout

/-- A clear pixel, and one that is not premultiplied, so that its first sample wraps. -/
theorem full_mask_is_solid_layer_wraps :
    FamilySet.all.overlayPainter 3 true true = .ok ⟨.rgb, 3, true, true⟩ ∧
    FamilySet.generalOnly.maskPainter 3 true true = .ok ⟨.general, 3, true, true⟩ ∧
    (∀ px ∈ Row.takePixels (Shape.mk 3 true).size 2 [0, 0, 0, 0, 200, 100, 50, 128],
      (Shape.mk 3 true).ClearIsBlack px) ∧
    (mk .rgb 3 true true).overlay (.ofByte 255) [9, 8, 7, 6, 255, 255, 0, 90]
      [0, 0, 0, 0, 200, 100, 50, 128] 2 = some [9, 8, 7, 6, 70, 226, 50, 172] ∧
    (mk .general 3 true true).masked [9, 8, 7, 6, 255, 255, 0, 90]
      [0, 0, 0, 0, 200, 100, 50, 128] [255, 255] 2 = some [9, 8, 7, 6, 70, 226, 50, 172] := by
  have hclear : ∀ px ∈ Row.takePixels (Shape.mk 3 true).size 2 [0, 0, 0, 0, 200, 100, 50, 128],
      (Shape.mk 3 true).ClearIsBlack px := by decide +kernel
  have hlayer : (mk .rgb 3 true true).overlay (.ofByte 255) [9, 8, 7, 6, 255, 255, 0, 90]
      [0, 0, 0, 0, 200, 100, 50, 128] 2 = some [9, 8, 7, 6, 70, 226, 50, 172] := by
    with_unfolding_all rfl
  have hrow : 2 * (Shape.mk 3 true).size ≤ ([9, 8, 7, 6, 255, 255, 0, 90] : List UInt8).length := by
    decide
  obtain ⟨-, hmask⟩ := full_mask_is_solid_layer (s := .all) (t := .generalOnly)
    (p := ⟨.rgb, 3, true, true⟩) (q := ⟨.general, 3, true, true⟩) rfl rfl hrow (by decide) hclear
  exact ⟨rfl, rfl, hclear, hlayer, hmask _ hlayer⟩

end SourcePainter

namespace FlatPainter

variable {s t : FamilySet} {row : List UInt8} {count : Nat}

/-- A fill is a tint through a full mask, whatever the alpha of the colour. -/
theorem fill_is_full_tint {shape : Shape} {color : List UInt8} {p q : FlatPainter}
    (hp : s.fillPainter shape color = .ok p) (hq : t.tintPainter shape color = .ok q)
    (hrow : count * shape.size ≤ row.length) :
    ∃ out, p.fill row count = some out ∧
      q.tint row (List.replicate count 255) count = some out := by
  obtain ⟨f, hf, rfl⟩ := FamilySet.fillPainter_inv hp
  obtain ⟨g, hg, rfl⟩ := FamilySet.tintPainter_inv hq
  obtain ⟨hrgb, hsize, alpha, halpha⟩ := FamilySet.selectColor_serves hf
  obtain ⟨hrgb', -⟩ := FamilySet.selectColor_serves hg
  refine ⟨_, fill_eq_cover (p := ⟨f, shape, color⟩) hrgb hsize halpha hrow, ?_⟩
  have htint := tint_eq_cover (p := ⟨g, shape, color⟩) hrgb' hsize halpha row
    (List.replicate count 255) count
  rwa [List.take_replicate, Nat.min_self] at htint

theorem fill_is_full_tint_clear :
    FamilySet.all.fillPainter ⟨3, false⟩ [9, 8, 7, 0] = .ok ⟨.rgb, ⟨3, false⟩, [9, 8, 7, 0]⟩ ∧
    FamilySet.generalOnly.tintPainter ⟨3, false⟩ [9, 8, 7, 0] =
      .ok ⟨.general, ⟨3, false⟩, [9, 8, 7, 0]⟩ ∧
    ∃ out, (mk .rgb ⟨3, false⟩ [9, 8, 7, 0]).fill [1, 2, 3, 4, 5, 6] 2 = some out ∧
      (mk .general ⟨3, false⟩ [9, 8, 7, 0]).tint [1, 2, 3, 4, 5, 6] [255, 255] 2 = some out := by
  have hfill : FamilySet.all.fillPainter ⟨3, false⟩ [9, 8, 7, 0] =
      .ok ⟨.rgb, ⟨3, false⟩, [9, 8, 7, 0]⟩ := rfl
  have htint : FamilySet.generalOnly.tintPainter ⟨3, false⟩ [9, 8, 7, 0] =
      .ok ⟨.general, ⟨3, false⟩, [9, 8, 7, 0]⟩ := rfl
  exact ⟨hfill, htint, fill_is_full_tint hfill htint (by decide)⟩

theorem cover_opaque (g : Family) (da : Bool) (color : List UInt8) (m : UInt8) (d : List UInt8) :
    SourcePainter.cover (.alphaless color.length) (color, m) d =
      cover ⟨g, ⟨color.length, da⟩, color ++ [255]⟩ 255 m d := by
  have hnone : (Shape.alphaless color.length).alpha? color = none := rfl
  have hweight : weight 255 m = Weight.ofByte m := by simp [weight_eq_scale]
  have hsamples : (color ++ [255]).take color.length = color.take color.length := by simp
  calc SourcePainter.cover (.alphaless color.length) (color, m) d
      = (Mix.toward (Weight.ofByte m)).pixel (.alphaless color.length) color d := by
        simp only [SourcePainter.cover, hnone, Mix.ofCoverage_none]
    _ = tinted color.length color (Weight.ofByte m) d :=
        Mix.pixel_eq_tinted (Mix.sample_toward _) _ _ _
    _ = cover ⟨g, ⟨color.length, da⟩, color ++ [255]⟩ 255 m d := by
        simp only [cover, tinted, hweight, hsamples]

/-- A tint with an opaque colour is a row of that colour through the same mask, also where the
colour has no samples and only the alpha of the destination is painted. -/
theorem opaque_tint_is_mask {n : Nat} {da : Bool} {color : List UInt8} (hcolor : color.length = n)
    {p : SourcePainter} (hp : s.maskPainter n da false = .ok p) {q : FlatPainter}
    (hq : t.tintPainter ⟨n, da⟩ (color ++ [255]) = .ok q) {mask : List UInt8}
    (hrow : count * (Shape.mk n da).size ≤ row.length) (hmask : count ≤ mask.length) :
    ∃ out, p.masked row (List.replicate count color).flatten mask count = some out ∧
      q.tint row mask count = some out := by
  subst hcolor
  obtain ⟨f, hf, rfl⟩ := FamilySet.maskPainter_inv hp
  obtain ⟨g, hg, rfl⟩ := FamilySet.tintPainter_inv hq
  obtain ⟨hrgb, hsize, -⟩ := FamilySet.selectColor_serves hg
  obtain ⟨hlt, -⟩ := FamilySet.selectColor_inv hg
  have htint := tint_eq_cover (p := ⟨g, ⟨color.length, da⟩, color ++ [255]⟩) hrgb hsize
    List.getElem?_concat_length row mask count
  have hwalk : f ≠ .alphaOnly → Row.Walkable (Shape.alphaless color.length).size ∧
      Row.Walkable (Shape.mk color.length da).size := by
    intro hne
    have hpos := FamilySet.colors_pos_of_select hf hne
    exact ⟨Shape.walkable hpos hlt false, hsize⟩
  have hpixels : ∀ px ∈ List.replicate count color, px.length = color.length := by
    intro px hpx
    rw [List.eq_of_mem_replicate hpx]
  have hsrc : count * (Shape.alphaless color.length).size ≤
      (List.replicate count color).flatten.length := by
    simp [Shape.size, Shape.alphaless]
  have hlen : (mask.take count).length = count := List.length_take_of_le hmask
  refine ⟨_, ?_, htint⟩
  calc (SourcePainter.mk f color.length da false).masked row (List.replicate count color).flatten
        mask count
      = some (Row.zipPaint (Shape.mk color.length da).size
          (SourcePainter.cover (.alphaless color.length))
          ((Row.takePixels color.length count (List.replicate count color).flatten).zip
            (mask.take count)) row) :=
        SourcePainter.masked_eq_zipPaint ⟨f, color.length, da, false⟩ hwalk hrow hsrc hmask
    _ = some (Row.zipPaint (Shape.mk color.length da).size
          (fun m => SourcePainter.cover (.alphaless color.length) (color, m))
          (mask.take count) row) := by
        rw [Row.takePixels_flatten hpixels List.length_replicate,
          Row.zipPaint_zip_replicate_left _ hlen]
    _ = some (Row.zipPaint (Shape.mk color.length da).size
          (cover ⟨g, ⟨color.length, da⟩, color ++ [255]⟩ 255) (mask.take count) row) :=
        congrArg some (Row.zipPaint_congr (fun m _ d _ => cover_opaque g da color m d) row)

theorem opaque_tint_is_mask_alpha :
    FamilySet.all.maskPainter 0 true false = .ok ⟨.alphaOnly, 0, true, false⟩ ∧
    FamilySet.bare.tintPainter ⟨0, true⟩ [255] = .ok ⟨.alphaOnly, ⟨0, true⟩, [255]⟩ ∧
    ∃ out, (SourcePainter.mk .alphaOnly 0 true false).masked [0, 100, 255] [] [255, 128, 0] 3 =
        some out ∧
      (mk .alphaOnly ⟨0, true⟩ [255]).tint [0, 100, 255] [255, 128, 0] 3 = some out := by
  have hmask : FamilySet.all.maskPainter 0 true false = .ok ⟨.alphaOnly, 0, true, false⟩ := rfl
  have htint : FamilySet.bare.tintPainter ⟨0, true⟩ ([] ++ [255]) =
      .ok ⟨.alphaOnly, ⟨0, true⟩, [255]⟩ := rfl
  have hnil : ([] : List UInt8).length = 0 := rfl
  exact ⟨hmask, htint, opaque_tint_is_mask hnil hmask htint (by decide) (by decide)⟩

end FlatPainter

end Scanline
