import Scanline.Weight
/-! The scale of weights. Bytes go up to 255 and weights to 256; the two ends, and only they,
are kept apart by `ofByte`. -/
namespace Scanline

@[simp] theorem byte_ofInt_natCast (n : Nat) : UInt8.ofInt n = UInt8.ofNat n := by
  rw [UInt8.ofInt, ← UInt8.ofNat_mod_size (x := n)]
  congr 1

@[simp] theorem word_ofInt_natCast (n : Nat) : UInt32.ofInt n = UInt32.ofNat n := by
  rw [UInt32.ofInt, ← UInt32.ofNat_mod_size (x := n)]
  congr 1

@[simp] theorem byte_sub_eq_zero_iff {a : UInt8} : 255 - a = 0 ↔ a = 255 := by
  rw [UInt8.sub_eq_iff_eq_add, UInt8.zero_add]
  exact eq_comm

namespace Weight

theorem ofByte_nonneg (a : UInt8) : 0 ≤ ofByte a := by
  simp only [ofByte]
  omega

theorem ofByte_le (a : UInt8) : ofByte a ≤ full := by
  have ha := a.toNat_lt
  simp only [ofByte, full]
  omega

@[simp] theorem ofByte_eq_zero_iff {a : UInt8} : ofByte a = 0 ↔ a = 0 := by
  rw [← UInt8.toNat_inj, UInt8.toNat_zero]
  simp only [ofByte]
  omega

@[simp] theorem ofByte_eq_full_iff {a : UInt8} : ofByte a = full ↔ a = 255 := by
  have ha := a.toNat_lt
  rw [← UInt8.toNat_inj, show (255 : UInt8).toNat = 255 from rfl]
  simp only [ofByte, full]
  omega

theorem scale_nonneg {x w : Int} (hx : 0 ≤ x) (hw : 0 ≤ w) : 0 ≤ scale x w :=
  Int.ediv_nonneg (Int.mul_nonneg hx hw) (by decide)

theorem scale_le {x w : Int} (hx : 0 ≤ x) (hw : w ≤ full) : scale x w ≤ x := by
  have h := Int.mul_le_mul_of_nonneg_left hw hx
  unfold full at h
  simp only [scale]
  omega

@[simp] theorem scale_zero_left (w : Int) : scale 0 w = 0 := by
  simp [scale]

@[simp] theorem scale_zero_right (x : Int) : scale x 0 = 0 := by
  simp [scale]

@[simp] theorem scale_full_right (x : Int) : scale x full = x := by
  simp [scale, full]

@[simp] theorem scale_full_left (w : Int) : scale full w = w := by
  simp [scale, full]

@[simp] theorem full_ne_zero : full ≠ 0 := by decide

@[simp] theorem ofByte_zero : ofByte 0 = 0 := rfl

@[simp] theorem ofByte_full : ofByte 255 = full := rfl

end Weight

namespace Sample

@[simp] theorem lerp_zero (src dst : UInt8) : lerp src dst 0 = dst := by
  simp [lerp, Weight.lerp]

@[simp] theorem lerp_full (src dst : UInt8) : lerp src dst Weight.full = src := by
  rw [lerp, Weight.lerp, Weight.scale_full_right, Int.add_comm, Int.sub_add_cancel]
  simp

@[simp] theorem overlay_zero_full (dst : UInt8) : overlay 0 dst Weight.full = dst := by
  simp [overlay, Weight.overlay]

end Sample

namespace Opacity

@[simp] theorem ofByte_eq_clear_iff {a : UInt8} : ofByte a = .clear ↔ a = 0 := by
  unfold ofByte
  split
  · simp [*]
  · split <;> simp [*]

@[simp] theorem alpha_ofByte (a : UInt8) : (ofByte a).alpha = a := by
  unfold ofByte
  split
  · simp [alpha, *]
  · split <;> simp [alpha, *]

end Opacity

end Scanline
