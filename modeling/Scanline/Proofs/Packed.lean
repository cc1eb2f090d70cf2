import Mathlib.Algebra.Group.Nat.Defs
import Scanline.Packed
import Scanline.Proofs.Weight
/-! Two samples in one product. The lanes of a word are sixteen bits wide, and a blended
sample times 256 stays below that, so that what one lane borrows from the next is paid back
within the word. A word that stands for four bytes is written `ofBytes a b c d` throughout. -/
namespace Scanline.Packed

theorem and_append {k a b c d : Nat} (hb : b < 2 ^ k) (hd : d < 2 ^ k) :
    (2 ^ k * a + b) &&& (2 ^ k * c + d) = 2 ^ k * (a &&& c) + (b &&& d) := by
  have hbd : b &&& d < 2 ^ k := Nat.and_lt_two_pow b hd
  apply Nat.eq_of_testBit_eq
  intro i
  simp only [Nat.testBit_and, Nat.testBit_two_pow_mul_add _ hb, Nat.testBit_two_pow_mul_add _ hd,
    Nat.testBit_two_pow_mul_add _ hbd]
  split <;> rfl

theorem or_above {x k : Nat} (hx : x < 2 ^ k) (y : Nat) : x ||| y * 2 ^ k = x + y * 2 ^ k := by
  rw [Nat.or_comm, ← Nat.shiftLeft_eq, ← Nat.shiftLeft_add_eq_or_of_lt hx, Nat.add_comm]

theorem and_low_byte (x : Nat) : x &&& 255 = x % 256 := Nat.and_two_pow_sub_one_eq_mod x 8

theorem and_high_byte {x : Nat} (hx : x < 65536) : x &&& 65280 = x / 256 * 256 := by
  have h := @and_append 8 (x / 256) (x % 256) 255 0 (Nat.mod_lt _ (by decide)) (by decide)
  have hs : 2 ^ 8 * (x / 256) + x % 256 = x := by omega
  rw [hs, and_low_byte, Nat.and_zero] at h
  exact h.trans (by omega)

theorem toNat_and_lanes (x : UInt32) :
    (x &&& lanes).toNat = x.toNat / 256 % 256 * 256 + x.toNat / 16777216 * 16777216 := by
  have hx := x.toNat_lt
  have h := @and_append 16 (x.toNat / 65536) (x.toNat % 65536) 65280 65280
    (Nat.mod_lt _ (by decide)) (by decide)
  have hs : 2 ^ 16 * (x.toNat / 65536) + x.toNat % 65536 = x.toNat := by omega
  rw [hs, and_high_byte (by omega), and_high_byte (by omega)] at h
  rw [UInt32.toNat_and, show lanes.toNat = 2 ^ 16 * 65280 + 65280 from rfl, h]
  omega

theorem toNat_and_low_lanes (x : UInt32) :
    (x &&& (lanes >>> 8)).toNat = x.toNat % 256 + x.toNat / 65536 % 256 * 65536 := by
  have h := @and_append 16 (x.toNat / 65536) (x.toNat % 65536) 255 255
    (Nat.mod_lt _ (by decide)) (by decide)
  have hs : 2 ^ 16 * (x.toNat / 65536) + x.toNat % 65536 = x.toNat := by omega
  rw [hs, and_low_byte, and_low_byte] at h
  rw [UInt32.toNat_and, show (lanes >>> 8).toNat = 2 ^ 16 * 255 + 255 from rfl, h]
  omega

theorem toNat_ofBytes (a b c d : UInt8) :
    (ofBytes a b c d).toNat = a.toNat + b.toNat * 256 + c.toNat * 65536 + d.toNat * 16777216 := by
  have ha := a.toNat_lt
  have hb := b.toNat_lt
  have hc := c.toNat_lt
  have hd := d.toNat_lt
  simp only [ofBytes, UInt32.toNat_or, UInt32.toNat_shiftLeft, UInt8.toNat_toUInt32,
    Nat.shiftLeft_eq, UInt32.reduceToNat, Nat.reduceMod]
  have hab := or_above ha b.toNat
  have habc := @or_above (a.toNat + b.toNat * 2 ^ 8) 16 (by omega) c.toNat
  have habcd := @or_above (a.toNat + b.toNat * 2 ^ 8 + c.toNat * 2 ^ 16) 24 (by omega) d.toNat
  rw [Nat.mod_eq_of_lt (a := b.toNat * 2 ^ 8) (by omega),
    Nat.mod_eq_of_lt (a := c.toNat * 2 ^ 16) (by omega),
    Nat.mod_eq_of_lt (a := d.toNat * 2 ^ 24) (by omega), hab, habc]
  exact habcd

theorem ofBytes_eq_ofNat (a b c d : UInt8) : ofBytes a b c d =
    UInt32.ofNat (a.toNat + b.toNat * 256 + c.toNat * 65536 + d.toNat * 16777216) := by
  rw [← toNat_ofBytes, UInt32.ofNat_toNat]

@[simp] theorem toBytes_ofBytes (a b c d : UInt8) :
    toBytes (ofBytes a b c d) = [a, b, c, d] := by
  have ha := a.toNat_lt
  have hb := b.toNat_lt
  have hc := c.toNat_lt
  have hd := d.toNat_lt
  simp only [toBytes, List.cons.injEq, and_true, ← UInt8.toNat_inj, UInt32.toNat_toUInt8,
    UInt32.toNat_shiftRight, toNat_ofBytes, Nat.shiftRight_eq_div_pow, UInt32.reduceToNat,
    Nat.reduceMod]
  omega

@[simp] theorem ofBytes_and_lanes (a b c d : UInt8) : ofBytes a b c d &&& lanes = ofBytes 0 b 0 d := by
  have ha := a.toNat_lt
  have hb := b.toNat_lt
  have hc := c.toNat_lt
  have hd := d.toNat_lt
  rw [← UInt32.toNat_inj, toNat_and_lanes, toNat_ofBytes, toNat_ofBytes, UInt8.toNat_zero]
  omega

@[simp] theorem ofBytes_and_low_lanes (a b c d : UInt8) :
    ofBytes a b c d &&& (lanes >>> 8) = ofBytes a 0 c 0 := by
  have ha := a.toNat_lt
  have hb := b.toNat_lt
  have hc := c.toNat_lt
  have hd := d.toNat_lt
  rw [← UInt32.toNat_inj, toNat_and_low_lanes, toNat_ofBytes, toNat_ofBytes, UInt8.toNat_zero]
  omega

@[simp] theorem ofBytes_shiftLeft (a b c d : UInt8) : ofBytes a b c d <<< 8 = ofBytes 0 a b c := by
  have ha := a.toNat_lt
  have hb := b.toNat_lt
  have hc := c.toNat_lt
  have hd := d.toNat_lt
  rw [← UInt32.toNat_inj, UInt32.toNat_shiftLeft, toNat_ofBytes, toNat_ofBytes, UInt8.toNat_zero,
    Nat.shiftLeft_eq, show (8 : UInt32).toNat % 32 = 8 from rfl]
  omega

@[simp] theorem ofBytes_shiftRight (a b c d : UInt8) :
    ofBytes a b c d >>> 8 = ofBytes b c d 0 := by
  have ha := a.toNat_lt
  have hb := b.toNat_lt
  have hc := c.toNat_lt
  have hd := d.toNat_lt
  rw [← UInt32.toNat_inj, UInt32.toNat_shiftRight, toNat_ofBytes, toNat_ofBytes, UInt8.toNat_zero,
    Nat.shiftRight_eq_div_pow, show (8 : UInt32).toNat % 32 = 8 from rfl]
  omega

@[simp] theorem ofBytes_or (a b c d : UInt8) : ofBytes a 0 c 0 ||| ofBytes 0 b 0 d = ofBytes a b c d := by
  have h₀ : (0 : UInt8).toUInt32 = 0 := rfl
  have h₈ : (0 : UInt8).toUInt32 <<< 8 = 0 := rfl
  have h₁₆ : (0 : UInt8).toUInt32 <<< 16 = 0 := rfl
  have h₂₄ : (0 : UInt8).toUInt32 <<< 24 = 0 := rfl
  unfold ofBytes
  rw [h₈, h₁₆, h₂₄, h₀, UInt32.or_zero, UInt32.or_zero, UInt32.or_zero, UInt32.zero_or,
    ← UInt32.or_assoc, UInt32.or_assoc a.toUInt32, UInt32.or_comm (c.toUInt32 <<< 16),
    ← UInt32.or_assoc]

/-- One lane of a blend: 256 times the blended sample, before the fraction is cut off. -/
def laneSum (c d : UInt8) (w : Nat) : Nat := d.toNat * (256 - w) + c.toNat * w

theorem laneSum_le (c d : UInt8) {w : Nat} (hw : w ≤ 256) : laneSum c d w ≤ 65280 := by
  have hc := c.toNat_lt
  have hd := d.toNat_lt
  have h₁ := Nat.mul_le_mul_right (256 - w) (show d.toNat ≤ 255 by omega)
  have h₂ := Nat.mul_le_mul_right w (show c.toNat ≤ 255 by omega)
  simp only [laneSum]
  omega

theorem lerp_eq_laneSum (c d : UInt8) {w : Nat} (hw : w ≤ 256) :
    Sample.lerp c d w = UInt8.ofNat (laneSum c d w / 256) := by
  have hsum : (d.toNat : Int) * 256 + (c.toNat - d.toNat) * w = (laneSum c d w : Nat) := by
    have hrest : ((256 - w : Nat) : Int) = 256 - w := by omega
    simp only [laneSum, Int.natCast_add, Int.natCast_mul, hrest]
    grind
  have hvalue : Weight.lerp c.toNat d.toNat w = (laneSum c d w / 256 : Nat) := by
    simp only [Weight.lerp, Weight.scale]
    omega
  rw [Sample.lerp, hvalue, byte_ofInt_natCast]

theorem ofBytes_low (c c' : UInt8) :
    ofBytes c 0 c' 0 = UInt32.ofNat c.toNat + UInt32.ofNat c'.toNat * UInt32.ofNat 65536 := by
  rw [ofBytes_eq_ofNat, UInt8.toNat_zero, Nat.zero_mul, Nat.add_zero, Nat.add_zero,
    UInt32.ofNat_add, UInt32.ofNat_mul]

theorem ofBytes_high (d d' : UInt8) :
    ofBytes 0 d 0 d' = UInt32.ofNat d.toNat * UInt32.ofNat 256 +
      UInt32.ofNat d'.toNat * (UInt32.ofNat 256 * UInt32.ofNat 65536) := by
  rw [ofBytes_eq_ofNat, UInt8.toNat_zero, Nat.zero_mul, Nat.zero_add, Nat.add_zero,
    show 16777216 = 256 * 65536 from rfl, UInt32.ofNat_add, UInt32.ofNat_mul, UInt32.ofNat_mul,
    UInt32.ofNat_mul]

theorem lane_identity (c c' d d' w u one lane : UInt32) (hu : u + w = one) :
    d * one + d' * (one * lane) + (c + c' * lane - (d + d' * lane)) * w =
      (d * u + c * w) + (d' * u + c' * w) * lane := by
  grind

/-- Both lanes come out of one product. What the low lane borrows or carries is a multiple of
65536 that the high lane gives back, and neither sum leaves its lane. -/
theorem toNat_lanes (c c' d d' : UInt8) {w : Nat} (hw : w ≤ 256) :
    (ofBytes 0 d 0 d' + (ofBytes c 0 c' 0 - ofBytes d 0 d' 0) * UInt32.ofNat w).toNat =
      laneSum c d w + laneSum c' d' w * 65536 := by
  have hle := laneSum_le c d hw
  have hle' := laneSum_le c' d' hw
  have hone : UInt32.ofNat (256 - w) + UInt32.ofNat w = UInt32.ofNat 256 := by
    rw [← UInt32.ofNat_add, Nat.sub_add_cancel hw]
  have hword : ofBytes 0 d 0 d' + (ofBytes c 0 c' 0 - ofBytes d 0 d' 0) * UInt32.ofNat w =
      UInt32.ofNat (laneSum c d w + laneSum c' d' w * 65536) := by
    rw [ofBytes_high, ofBytes_low, ofBytes_low, lane_identity _ _ _ _ _ _ _ _ hone]
    simp only [laneSum, UInt32.ofNat_add, UInt32.ofNat_mul]
  rw [hword, UInt32.toNat_ofNat_of_lt']
  simp only [UInt32.size]
  omega

theorem lanes_high_bytes {x : UInt32} {s s' : Nat} (hs : s ≤ 65280) (hs' : s' ≤ 65280)
    (hx : x.toNat = s + s' * 65536) :
    x &&& lanes = ofBytes 0 (UInt8.ofNat (s / 256)) 0 (UInt8.ofNat (s' / 256)) := by
  rw [← UInt32.toNat_inj, toNat_and_lanes, toNat_ofBytes, hx, UInt8.toNat_zero,
    UInt8.toNat_ofNat', UInt8.toNat_ofNat']
  omega

/-- Any word as a colour. What its bytes stand for makes no difference to the lanes. -/
def ofWord (word : UInt32) : Packed := ⟨word, word &&& (lanes >>> 8), (word &&& lanes) >>> 8⟩

theorem ofColor_eq_ofWord (r g b : UInt8) : ofColor r g b = ofWord (ofBytes r g b 255) := rfl

theorem lerp_ofWord (c₀ c₁ c₂ c₃ d₀ d₁ d₂ d₃ : UInt8) {w : Nat} (hw : w ≤ 256) :
    (ofWord (ofBytes c₀ c₁ c₂ c₃)).lerp (ofBytes d₀ d₁ d₂ d₃) (UInt32.ofNat w) =
      ofBytes (Sample.lerp c₀ d₀ w) (Sample.lerp c₁ d₁ w) (Sample.lerp c₂ d₂ w)
        (Sample.lerp c₃ d₃ w) := by
  have heven := lanes_high_bytes (laneSum_le c₀ d₀ hw) (laneSum_le c₂ d₂ hw)
    (toNat_lanes c₀ c₂ d₀ d₂ hw)
  have hodd := lanes_high_bytes (laneSum_le c₁ d₁ hw) (laneSum_le c₃ d₃ hw)
    (toNat_lanes c₁ c₃ d₁ d₃ hw)
  simp [lerp, ofWord, lerp_eq_laneSum _ _ hw, heven, hodd]

theorem paint_copy (r g b : UInt8) (dst : List UInt8) :
    (ofColor r g b).paint .copy dst = [r, g, b, 255] := toBytes_ofBytes r g b 255

theorem paint_lerp (r g b d₀ d₁ d₂ d₃ : UInt8) {w : Int} (h₀ : 0 ≤ w) (hw : w ≤ Weight.full) :
    (ofColor r g b).paint (.lerp w) [d₀, d₁, d₂, d₃] =
      [Sample.lerp r d₀ w, Sample.lerp g d₁ w, Sample.lerp b d₂ w, Sample.lerp 255 d₃ w] := by
  obtain ⟨n, rfl⟩ := Int.eq_ofNat_of_zero_le h₀
  have hn : n ≤ 256 := by
    simp only [Weight.full] at hw
    omega
  simp only [paint]
  rw [word_ofInt_natCast, ofColor_eq_ofWord, lerp_ofWord r g b 255 d₀ d₁ d₂ d₃ hn, toBytes_ofBytes]

/-- The packed blend is exact: the bytes of a word go toward a colour, and the last of them toward
255, each as it would by itself, although a lane that has to fall borrows from the next one. The
same holds of a word that has its first sample at the upper end. -/
theorem packed_blend_exact (r g b d₀ d₁ d₂ d₃ : UInt8) {w : UInt32} (hw : w ≤ 256) :
    toBytes ((ofColor r g b).lerp (ofBytes d₀ d₁ d₂ d₃) w) =
      [Sample.lerp r d₀ w.toNat, Sample.lerp g d₁ w.toNat, Sample.lerp b d₂ w.toNat,
        Sample.lerp 255 d₃ w.toNat] ∧
    toBytes (ofColor r g b).word = [r, g, b, 255] ∧
    toBytes ((ofWord (ofBytes 255 b g r)).lerp (ofBytes d₃ d₂ d₁ d₀) w) =
      [Sample.lerp 255 d₃ w.toNat, Sample.lerp b d₂ w.toNat, Sample.lerp g d₁ w.toNat,
        Sample.lerp r d₀ w.toNat] := by
  have hn : w.toNat ≤ 256 := UInt32.le_iff_toNat_le.mp hw
  have hup := lerp_ofWord r g b 255 d₀ d₁ d₂ d₃ hn
  have hdown := lerp_ofWord 255 b g r d₃ d₂ d₁ d₀ hn
  rw [UInt32.ofNat_toNat] at hup hdown
  refine ⟨?_, toBytes_ofBytes r g b 255, ?_⟩
  · simp [ofColor_eq_ofWord, hup]
  · simp [hdown]

/-- Both red and blue fall, so that each lane borrows, the upper one from beyond the word. -/
theorem packed_blend_exact_borrows :
    (129 : UInt32) ≤ 256 ∧ (ofColor 0 255 10).rb < ofBytes 255 0 200 0 ∧
    toBytes ((ofColor 0 255 10).lerp (ofBytes 255 0 200 7) 129) = [126, 128, 104, 131] := by
  have hw : (129 : UInt32) ≤ 256 := by decide
  exact ⟨hw, by decide, (packed_blend_exact 0 255 10 255 0 200 7 hw).1.trans (by decide)⟩

end Scanline.Packed
