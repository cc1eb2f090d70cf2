import Scanline.Proofs.Painter.Flat
/-! One rule for painting a colour. A pixel goes toward the colour by a weight that its coverage
and the alpha of the colour have together; a fill is the same at full coverage. -/
namespace Scanline

def tinted (colors : Nat) (color : List UInt8) (w : Int) (dst : List UInt8) : List UInt8 :=
  List.zipWith (Sample.lerp · · w) (color.take colors ++ [255]) dst

theorem length_tinted {colors : Nat} {color dst : List UInt8} {w : Int} {alpha : Bool}
    (hcolor : colors ≤ color.length) (hdst : dst.length = (Shape.mk colors alpha).size) :
    (tinted colors color w dst).length = dst.length := by
  have := alpha.toNat_le
  simp only [Shape.size] at hdst
  simp only [tinted, List.length_zipWith, List.length_append, List.length_take,
    List.length_singleton]
  omega

theorem tinted_zero {colors : Nat} {color dst : List UInt8} {alpha : Bool}
    (hcolor : colors ≤ color.length) (hdst : dst.length = (Shape.mk colors alpha).size) :
    tinted colors color 0 dst = dst := by
  apply List.ext_getElem (length_tinted hcolor hdst)
  intro i hi hi'
  simp [tinted]

namespace Mix

@[simp] theorem sample_toward (w : Int) (src dst : UInt8) :
    (toward w).sample src dst = Sample.lerp src dst w := by
  unfold toward
  split
  · simp [sample, *]
  split
  · simp [sample, *]
  · rfl

theorem pixel_eq_tinted {m : Mix} {w : Int}
    (hm : ∀ src dst, m.sample src dst = Sample.lerp src dst w) (colors : Nat)
    (color dst : List UInt8) : m.pixel (.alphaless colors) color dst = tinted colors color w dst := by
  simp only [pixel, tinted, Shape.samples]
  congr 1
  funext a b
  exact hm a b

end Mix

namespace FlatPainter

theorem weight_eq_scale (alpha m : UInt8) :
    weight alpha m = Weight.scale (Weight.ofByte m) (Weight.ofByte alpha) := by
  unfold weight
  split
  · simp [*]
  · rfl

theorem sample_fillMix (dstAlpha : Bool) (alpha : UInt8) (src dst : UInt8) :
    (fillMix dstAlpha alpha).sample src dst = Sample.lerp src dst (weight alpha 255) := by
  have hweight : weight alpha 255 = Weight.ofByte alpha := by simp [weight_eq_scale]
  rw [hweight]
  cases dstAlpha with
  | true => exact Mix.sample_toward _ src dst
  | false => by_cases halpha : alpha = 255 <;> simp [fillMix, Mix.sample, halpha]

def cover (p : FlatPainter) (alpha m : UInt8) : List UInt8 → List UInt8 :=
  tinted p.shape.colors p.color (weight alpha m)

variable {p : FlatPainter} {alpha : UInt8}

theorem length_cover (halpha : p.color[p.shape.colors]? = some alpha) (m : UInt8)
    {dst : List UInt8} (hdst : dst.length = p.shape.size) :
    (p.cover alpha m dst).length = p.shape.size :=
  (length_tinted (Nat.le_of_lt (List.getElem?_eq_some_iff.mp halpha).1) hdst).trans hdst

theorem cover_uncovered (halpha : p.color[p.shape.colors]? = some alpha) {dst : List UInt8}
    (hdst : dst.length = p.shape.size) : p.cover alpha 0 dst = dst := by
  have hweight : weight alpha 0 = 0 := by simp [weight_eq_scale]
  rw [cover, hweight]
  exact tinted_zero (Nat.le_of_lt (List.getElem?_eq_some_iff.mp halpha).1) hdst

theorem tint_eq_cover (hrgb : p.family = .rgb → p.shape.colors = 3)
    (hsize : Row.Walkable p.shape.size) (halpha : p.color[p.shape.colors]? = some alpha)
    (row mask : List UInt8) (count : Nat) :
    p.tint row mask count =
      some (Row.zipPaint p.shape.size (p.cover alpha) (mask.take count) row) := by
  rw [tint_eq_zipPaint hrgb hsize halpha]
  congr 2
  funext m dst
  exact Mix.pixel_eq_tinted (Mix.sample_toward _) _ _ _

/-- A fill is a tint at full coverage, where the row holds all the pixels. -/
theorem fill_eq_cover (hrgb : p.family = .rgb → p.shape.colors = 3)
    (hsize : Row.Walkable p.shape.size) (halpha : p.color[p.shape.colors]? = some alpha)
    {row : List UInt8} {count : Nat} (hrow : count * p.shape.size ≤ row.length) :
    p.fill row count =
      some (Row.zipPaint p.shape.size (p.cover alpha) (List.replicate count 255) row) := by
  have hcount : min count (row.length / p.shape.size) = count :=
    Nat.min_eq_left ((Nat.le_div_iff_mul_le hsize.1).mpr hrow)
  have htile : p.family = .rgb → p.shape.alpha = false → alpha = 255 → 8 ≤ count →
      count * 3 ≤ row.length := by
    intro hfamily hdst _ _
    rwa [Shape.size, hrgb hfamily, hdst] at hrow
  have hmap : List.replicate count (255 : UInt8) =
      (List.replicate count ()).map fun _ => 255 := by rw [List.map_replicate]
  rw [fill_eq_zipPaint hrgb hsize halpha htile, hcount, hmap, Row.zipPaint_map]
  congr 2
  funext _ dst
  exact Mix.pixel_eq_tinted (sample_fillMix _ alpha) _ _ _

end FlatPainter

end Scanline
