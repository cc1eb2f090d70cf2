import Scanline.Proofs.Painter.Source
/-! Source rows under a mask, where the operands hold all of the pixels. Every family then gets
through, and pixel `i` takes in pixel `i` of the source under byte `i` of the mask. -/
namespace Scanline

/-- A sample of a source under coverage. Full coverage takes the source for premultiplied, and
partial coverage scales it before it does. -/
def Sample.covered (cover : UInt8) (srcAlpha : Option UInt8) (src dst : UInt8) : UInt8 :=
  let w := Weight.ofByte cover
  if w = 0 then dst
  else if w = Weight.full then
    let alpha := srcAlpha.getD 255
    if alpha = 255 then src
    else UInt8.ofInt (src.toNat + dst.toNat * Weight.ofByte (255 - alpha) / 256)
  else
    match srcAlpha with
    | none => UInt8.ofInt (dst.toNat + (src.toNat - dst.toNat) * w / 256)
    | some a =>
      let below := Weight.ofByte (UInt8.ofInt (255 - a.toNat * w / 256))
      UInt8.ofInt (src.toNat * w / 256 + dst.toNat * below / 256)

def Shape.covered (src : Shape) (cover : UInt8) (s d : List UInt8) : List UInt8 :=
  List.zipWith (Sample.covered cover (src.alpha? s)) (src.samples s) d

theorem Mix.sample_ofCoverage (cover : UInt8) (srcAlpha : Option UInt8) (src dst : UInt8) :
    (ofCoverage cover srcAlpha).sample src dst = Sample.covered cover srcAlpha src dst := by
  simp only [ofCoverage, Sample.covered]
  by_cases hzero : Weight.ofByte cover = 0
  · rw [if_pos hzero, if_pos hzero, sample]
  rw [if_neg hzero, if_neg hzero]
  by_cases hfull : Weight.ofByte cover = Weight.full
  · rw [if_pos hfull, if_pos hfull]
    cases srcAlpha with
    | none => rfl
    | some a =>
      by_cases ha : a = 255
      · simp [sample, ha]
      · rw [Option.elim_some, Option.getD_some, if_neg (mt byte_sub_eq_zero_iff.mp ha), if_neg ha]
        rfl
  · rw [if_neg hfull, if_neg hfull]
    cases srcAlpha with
    | none => rfl
    | some a => rfl

namespace SourcePainter

theorem cover_eq_covered (src : Shape) (s d : List UInt8) (m : UInt8) :
    cover src (s, m) d = src.covered m s d := by
  simp only [cover, Mix.pixel, Shape.covered]
  congr 1
  funext a b
  exact Mix.sample_ofCoverage m _ a b

theorem length_cover {p : SourcePainter} {s d : List UInt8} {m : UInt8}
    (hs : s.length = p.src.size) (hd : d.length = p.dst.size) :
    (cover p.src (s, m) d).length = p.dst.size := by
  have hle : p.colors ≤ s.length := hs ▸ Nat.le_add_right _ _
  exact (Mix.length_pixel p.src p.dst _ rfl hle hd).trans hd

theorem walk_eq_zipPaint (p : SourcePainter) {mask row src : List UInt8}
    (hrow : mask.length * p.dst.size ≤ row.length)
    (hsrc : mask.length * p.src.size ≤ src.length) :
    p.walk mask row src = some (Row.zipPaint p.dst.size (cover p.src)
      ((Row.takePixels p.src.size mask.length src).zip mask) row) := by
  induction mask generalizing row src with
  | nil => rfl
  | cons m mask ih =>
    rw [List.length_cons, Nat.succ_mul] at hrow hsrc
    have htakeRow : (row.take p.dst.size).length = p.dst.size := by rw [List.length_take]; omega
    have htakeSrc : (src.take p.src.size).length = p.src.size := by rw [List.length_take]; omega
    have hrest := @ih (row.drop p.dst.size) (src.drop p.src.size)
      (by rw [List.length_drop]; omega) (by rw [List.length_drop]; omega)
    simp only [walk, List.length_cons, Row.takePixels, List.zip_cons_cons, Row.zipPaint]
    rw [if_neg (show ¬ row.length < p.dst.size by omega), hrest]
    by_cases hm : m = 0
    · rw [if_pos hm, Option.map_some, hm, cover_uncovered htakeSrc htakeRow]
    · rw [if_neg hm, if_pos ⟨htakeRow, htakeSrc⟩, Option.map_some, p.pixel_eq _ htakeSrc htakeRow]
      rfl

theorem masked_general {p : SourcePainter} (hf : p.family = .alphaOnly ∨ p.family = .general)
    {row src mask : List UInt8} {count : Nat} (hrow : count * p.dst.size ≤ row.length)
    (hsrc : count * p.src.size ≤ src.length) (hmask : count ≤ mask.length) :
    p.masked row src mask count = some (Row.zipPaint p.dst.size (cover p.src)
      ((Row.takePixels p.src.size count src).zip (mask.take count)) row) := by
  have hlen : (mask.take count).length = count := by
    rw [List.length_take]
    omega
  rw [masked_eq_walk hf, Row.slice?, if_pos (by omega), List.drop_zero, Option.bind_some,
    walk_eq_zipPaint p (by rw [hlen]; exact hrow) (by rw [hlen]; exact hsrc), hlen]

/-- No part of this depends on the family. Only the specialised ones ask for pixels that can be
walked. -/
theorem masked_eq_zipPaint (p : SourcePainter)
    (hwalk : p.family ≠ .alphaOnly → Row.Walkable p.src.size ∧ Row.Walkable p.dst.size)
    {row src mask : List UInt8} {count : Nat} (hrow : count * p.dst.size ≤ row.length)
    (hsrc : count * p.src.size ≤ src.length) (hmask : count ≤ mask.length) :
    p.masked row src mask count = some (Row.zipPaint p.dst.size (cover p.src)
      ((Row.takePixels p.src.size count src).zip (mask.take count)) row) := by
  by_cases halpha : p.family = .alphaOnly
  · exact masked_general (Or.inl halpha) hrow hsrc hmask
  by_cases hgeneral : p.family = .general
  · exact masked_general (Or.inr hgeneral) hrow hsrc hmask
  obtain ⟨hwalkSrc, hwalkDst⟩ := hwalk halpha
  have hcount : count ≤ src.length / p.src.size := (Nat.le_div_iff_mul_le hwalkSrc.1).mpr hsrc
  rw [masked_special ⟨halpha, hgeneral⟩ hwalkSrc hwalkDst, List.zip_eq_zipWith, List.take_zipWith,
    Row.take_takePixels hcount, ← List.zip_eq_zipWith]

theorem masked_row (p : SourcePainter) (hsrc : Row.Walkable p.src.size)
    (hdst : Row.Walkable p.dst.size) {row src mask : List UInt8} {count : Nat}
    (hrow : row.length = count * p.dst.size) (hlen : src.length = count * p.src.size)
    (hmask : mask.length = count) :
    ∃ out, p.masked row src mask count = some out ∧ out.length = count * p.dst.size ∧
      ∀ i m, mask[i]? = some m → Row.part out (i * p.dst.size) p.dst.size =
        p.src.covered m (Row.part src (i * p.src.size) p.src.size)
          (Row.part row (i * p.dst.size) p.dst.size) := by
  have hsize : ∀ a ∈ (Row.takePixels p.src.size count src).zip mask, ∀ d : List UInt8,
      d.length = p.dst.size → (cover p.src a d).length = p.dst.size := fun a ha d hd =>
    length_cover (Row.length_of_mem_takePixels (Nat.le_of_eq hlen.symm) (List.of_mem_zip ha).1) hd
  have hzip : ((Row.takePixels p.src.size count src).zip mask).length * p.dst.size ≤
      row.length := by
    simp [hmask, hrow]
  have hout := masked_eq_zipPaint p (fun _ => ⟨hsrc, hdst⟩) (Nat.le_of_eq hrow.symm)
    (Nat.le_of_eq hlen.symm) (Nat.le_of_eq hmask.symm)
  rw [List.take_of_length_le (Nat.le_of_eq hmask)] at hout
  refine ⟨_, hout, (Row.length_zipPaint hsize).trans hrow, ?_⟩
  intro i m hm
  have hi : i < count := hmask ▸ (List.getElem?_eq_some_iff.mp hm).1
  rw [← cover_eq_covered]
  exact Row.part_zipPaint hsize hzip
    (List.getElem?_zip_eq_some.mpr ⟨Row.getElem?_takePixels src hi, hm⟩)

end SourcePainter

end Scanline
