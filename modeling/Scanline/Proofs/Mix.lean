import Scanline.Mix
import Scanline.Proofs.Weight
/-! One rule for all pixels. Whether the alpha of a destination is painted apart from its colour
or the source is first brought to the size of the destination, sample `i` of the destination
meets sample `i` of the source, and an alpha meets the alpha of the source or 255. -/
namespace Scanline

theorem Shape.split_pixel {shape : Shape} {px : List UInt8} (h : px.length = shape.size) :
    ∃ color alpha : List UInt8, px = color ++ alpha ∧ color.length = shape.colors ∧
      alpha.length = shape.alpha.toNat := by
  unfold Shape.size at h
  refine ⟨px.take shape.colors, px.drop shape.colors, (List.take_append_drop _ _).symm, ?_, ?_⟩
  · rw [List.length_take]
    omega
  · rw [List.length_drop]
    omega

def Shape.samples (shape : Shape) (px : List UInt8) : List UInt8 :=
  px.take shape.colors ++ [(shape.alpha? px).getD 255]

namespace Mix

def pixel (m : Mix) (src : Shape) (s d : List UInt8) : List UInt8 :=
  List.zipWith m.sample (src.samples s) d

variable (src dst : Shape) {s d : List UInt8}

theorem length_pixel (m : Mix) (hcolors : src.colors = dst.colors) (hs : src.colors ≤ s.length)
    (hd : d.length = dst.size) : (m.pixel src s d).length = d.length := by
  have := dst.alpha.toNat_le
  unfold Shape.size at hd
  simp only [pixel, Shape.samples, List.length_zipWith, List.length_append, List.length_take,
    List.length_singleton]
  omega

theorem pixel_congr {m m' : Mix} {src : Shape}
    (h : ∀ c ∈ src.samples s, ∀ old, m.sample c old = m'.sample c old) (d : List UInt8) :
    m.pixel src s d = m'.pixel src s d := by
  apply List.ext_getElem
  · rw [pixel, pixel, List.length_zipWith, List.length_zipWith]
  · intro i hi hi'
    simp only [pixel, List.getElem_zipWith]
    exact h _ (List.getElem_mem _) _

theorem pixel_keep (hcolors : src.colors = dst.colors) (hs : src.colors ≤ s.length)
    (hd : d.length = dst.size) : keep.pixel src s d = d := by
  have hlen := length_pixel src dst keep hcolors hs hd
  apply List.ext_getElem hlen
  intro i hi hi'
  simp only [pixel, List.getElem_zipWith, sample]

/-- An alpha painted apart is one more sample, and there is none to paint without it. -/
theorem apart_eq_pixel (m : Mix) (hcolors : src.colors = dst.colors)
    (hs : src.colors ≤ s.length) (hd : d.length = dst.size) :
    m.apart dst.colors s ((src.alpha? s).getD 255) d = m.pixel src s d := by
  obtain ⟨color, rest, rfl, hcolor, hrest⟩ := Shape.split_pixel hd
  have htake : (s.take color.length).length = color.length := by
    rw [List.length_take]
    omega
  rw [apart, pixel, Shape.samples, hcolors, ← hcolor, List.take_left, List.drop_left,
    List.zipWith_append htake]
  congr 1
  cases h : dst.alpha with
  | false =>
    rw [h] at hrest
    rw [List.length_eq_zero_iff.mp hrest]
    rfl
  | true =>
    rw [h] at hrest
    obtain ⟨old, rfl⟩ := List.length_eq_one_iff.mp hrest
    rfl

theorem fitted_eq_take (hcolors : src.colors = dst.colors) (hs : s.length = src.size) :
    fitted dst.colors dst.size s = (src.samples s).take dst.size := by
  obtain ⟨color, rest, rfl, hcolor, hrest⟩ := Shape.split_pixel hs
  have hwhole (a : UInt8) : (color ++ [a]).take (color.length + 1) = color ++ [a] :=
    List.take_of_length_le (by simp)
  rw [Shape.samples, ← hcolors, ← hcolor, List.take_left]
  cases ha : src.alpha with
  | false =>
    rw [ha] at hrest
    obtain rfl := List.length_eq_zero_iff.mp hrest
    cases hb : dst.alpha <;>
      simp [fitted, Shape.size, Shape.alpha?, ha, hb, ← hcolors, ← hcolor, hwhole]
  | true =>
    rw [ha] at hrest
    obtain ⟨a, rfl⟩ := List.length_eq_one_iff.mp hrest
    cases hb : dst.alpha <;>
      simp [fitted, Shape.size, Shape.alpha?, ha, hb, ← hcolors, ← hcolor, hwhole]

theorem whole_eq_pixel (m : Mix) (hcolors : src.colors = dst.colors) (hs : s.length = src.size)
    (hd : d.length = dst.size) : m.whole dst.colors s d = m.pixel src s d := by
  calc m.whole dst.colors s d
      = List.zipWith m.sample ((src.samples s).take dst.size) d := by
        rw [whole, hd, fitted_eq_take src dst hcolors hs]
    _ = List.zipWith m.sample ((src.samples s).take dst.size) (d.take dst.size) := by
        rw [List.take_of_length_le (Nat.le_of_eq hd)]
    _ = (List.zipWith m.sample (src.samples s) d).take dst.size := List.take_zipWith.symm
    _ = m.pixel src s d :=
        List.take_of_length_le (by rw [List.length_zipWith, hd]; exact Nat.min_le_right _ _)

@[simp] theorem ofLayer_zero (srcAlpha : Option UInt8) : ofLayer 0 srcAlpha = .keep := by
  cases srcAlpha <;> simp [ofLayer, Weight.full]

@[simp] theorem ofCoverage_zero (srcAlpha : Option UInt8) : ofCoverage 0 srcAlpha = .keep := by
  simp [ofCoverage]

def Plain : Mix → Prop
  | .keep | .copy => True
  | .lerp w => 0 ≤ w ∧ w ≤ Weight.full
  | .overlay _ | .sum _ _ => False

theorem plain_toward {w : Int} (h₀ : 0 ≤ w) (hw : w ≤ Weight.full) : (toward w).Plain := by
  unfold toward
  split
  · trivial
  · split
    · trivial
    · exact ⟨h₀, hw⟩

/-- A source without alpha is opaque, in any layer and under any coverage. -/
theorem plain_ofLayer (layer : UInt8) : (ofLayer layer none).Plain := by
  have hlayer := layer.toNat_lt
  rw [ofLayer]
  by_cases hsolid : Weight.ofByte layer = Weight.full
  · rw [if_pos hsolid]
    trivial
  · rw [if_neg hsolid]
    dsimp only [Option.elim_none]
    split
    · trivial
    · simp only [Plain, Weight.full]
      omega

theorem ofCoverage_none (cover : UInt8) :
    ofCoverage cover none = toward (Weight.ofByte cover) := by
  simp only [ofCoverage, toward, Option.elim_none, if_true]

theorem plain_ofCoverage (cover : UInt8) : (ofCoverage cover none).Plain := by
  rw [ofCoverage_none]
  exact plain_toward (Weight.ofByte_nonneg cover) (Weight.ofByte_le cover)

end Mix

end Scanline
