import Scanline.Painter.Flat
import Scanline.Proofs.Mix
import Scanline.Proofs.Packed
import Scanline.Proofs.Painter.Select
import Scanline.Proofs.Row
/-! All families paint a colour alike: sample by sample, in packed words and in tiles of four
pixels. -/
namespace Scanline

/-- A colour is a source pixel whose own alpha has gone into the weights. -/
def Shape.alphaless (colors : Nat) : Shape := ⟨colors, false⟩

namespace Packed

theorem paint_eq_pixel {m : Mix} (hm : m.Plain) (r g b : UInt8) (rest : List UInt8)
    {dst : List UInt8} (hdst : dst.length = 4) :
    (ofColor r g b).paint m dst = m.pixel (.alphaless 3) (r :: g :: b :: rest) dst := by
  match dst, hdst with
  | [d₀, d₁, d₂, d₃], _ =>
    cases m with
    | keep => rfl
    | copy => exact paint_copy r g b _
    | lerp w => exact paint_lerp r g b d₀ d₁ d₂ d₃ hm.1 hm.2
    | overlay t => exact hm.elim
    | sum source below => exact hm.elim

end Packed

namespace FamilySet

theorem tintPainter_eq_ok {s : FamilySet} {colors : Nat} {f : Family} {color : List UInt8}
    (h : s.family? colors = some f) (hf : f ≠ .alphaOnly) (hsize : colors < sizeMax)
    (hcolor : colors + 1 ≤ color.length) (da : Bool) :
    s.tintPainter ⟨colors, da⟩ color = .ok ⟨f, ⟨colors, da⟩, color⟩ := by
  rw [tintPainter, selectColor_eq_ok h hf hsize hcolor]
  rfl

theorem fillPainter_eq_ok {s : FamilySet} {colors : Nat} {f : Family} {color : List UInt8}
    (h : s.family? colors = some f) (hf : f ≠ .alphaOnly) (hsize : colors < sizeMax)
    (hcolor : colors + 1 ≤ color.length) (da : Bool) :
    s.fillPainter ⟨colors, da⟩ color = .ok ⟨f, ⟨colors, da⟩, color⟩ := by
  rw [fillPainter, selectColor_eq_ok h hf hsize hcolor]
  rfl

theorem fillPainter_eq_error {s : FamilySet} {shape : Shape} {color : List UInt8}
    {failure : Failure}
    (h : s.selectColor .fill shape.colors color shape.alpha = .error failure) :
    s.fillPainter shape color = .error failure := by
  rw [fillPainter, h]
  rfl

end FamilySet

namespace FlatPainter

theorem pixel_eq {p : FlatPainter} (hrgb : p.family = .rgb → p.shape.colors = 3) {m : Mix}
    (hm : m.Plain) (hcolor : p.shape.colors ≤ p.color.length) {dst : List UInt8}
    (hdst : dst.length = p.shape.size) :
    p.pixel m dst = m.pixel (.alphaless p.shape.colors) p.color dst := by
  have hapart := m.apart_eq_pixel (.alphaless p.shape.colors) p.shape rfl hcolor hdst
  have hwhole : m.whole p.shape.colors (p.color.take p.shape.colors) dst =
      m.pixel (.alphaless p.shape.colors) p.color dst := by
    have hlen : (p.color.take p.shape.colors).length = (Shape.alphaless p.shape.colors).size := by
      rw [List.length_take, Nat.min_eq_left hcolor]
      rfl
    rw [m.whole_eq_pixel (.alphaless p.shape.colors) p.shape rfl hlen hdst]
    simp only [Mix.pixel, Shape.samples, Shape.alphaless, List.take_take, Nat.min_self]
    rfl
  unfold pixel
  split
  · exact hapart
  · exact hapart
  · exact hwhole
  · exact hwhole
  · rename_i hfamily
    split
    · rename_i halpha hbytes
      rw [hrgb hfamily, hbytes]
      refine Packed.paint_eq_pixel hm _ _ _ _ ?_
      rw [hdst, Shape.size, hrgb hfamily, halpha]
      rfl
    · exact hwhole

theorem weight_nonneg (alpha m : UInt8) : 0 ≤ weight alpha m := by
  unfold weight
  split
  · exact Weight.ofByte_nonneg m
  · exact Weight.scale_nonneg (Weight.ofByte_nonneg m) (Weight.ofByte_nonneg alpha)

theorem weight_le (alpha m : UInt8) : weight alpha m ≤ Weight.full := by
  have hm := Weight.ofByte_le m
  unfold weight
  split
  · exact hm
  · exact Int.le_trans (Weight.scale_le (Weight.ofByte_nonneg m) (Weight.ofByte_le alpha)) hm

theorem tint_eq_zipPaint {p : FlatPainter} (hrgb : p.family = .rgb → p.shape.colors = 3)
    (hsize : Row.Walkable p.shape.size) {alpha : UInt8}
    (halpha : p.color[p.shape.colors]? = some alpha) (row mask : List UInt8) (count : Nat) :
    p.tint row mask count = some (Row.zipPaint p.shape.size
      (fun m => (Mix.toward (weight alpha m)).pixel (.alphaless p.shape.colors) p.color)
      (mask.take count) row) := by
  have hcolor := (List.getElem?_eq_some_iff.mp halpha).1
  rw [tint, halpha, Option.bind_eq_bind, Option.bind_some, Row.zipPaint?, if_pos hsize]
  congr 1
  apply Row.zipPaint_congr
  intro m _ dst hdst
  exact pixel_eq hrgb (Mix.plain_toward (weight_nonneg alpha m) (weight_le alpha m))
    (Nat.le_of_lt hcolor) hdst

/-- How a fill takes in a colour of this alpha. Without alpha of its own the destination is
written to even by a colour that adds nothing. -/
def fillMix (dstAlpha : Bool) (alpha : UInt8) : Mix :=
  if dstAlpha then .toward (Weight.ofByte alpha)
  else if alpha = 255 then .copy
  else .lerp (Weight.ofByte alpha)

theorem plain_fillMix (dstAlpha : Bool) (alpha : UInt8) : (fillMix dstAlpha alpha).Plain := by
  have h₀ := Weight.ofByte_nonneg alpha
  have hw := Weight.ofByte_le alpha
  unfold fillMix
  split
  · exact Mix.plain_toward h₀ hw
  · split
    · trivial
    · exact ⟨h₀, hw⟩

theorem flatten_replicate_four (count : Nat) (px : List UInt8) :
    (List.replicate count (px ++ px ++ px ++ px)).flatten =
      (List.replicate (count * 4) px).flatten := by
  induction count with
  | zero => rfl
  | succ count ih =>
    rw [Nat.succ_mul, List.replicate_succ, List.flatten_cons, ih]
    simp only [List.replicate_succ, List.flatten_cons, List.append_assoc]

theorem tile_eq {rgb row : List UInt8} {count : Nat} (hrgb : rgb.length = 3)
    (hrow : count * 3 ≤ row.length) :
    tile rgb count row = some ((List.replicate count rgb).flatten ++ row.drop (count * 3)) := by
  have hpart : Row.slice? row 0 (count * 3) = some (row.take (count * 3)) := by
    rw [Row.slice?, if_pos (by omega), List.drop_zero]
  have hfront : Row.mapPaint? 12 (count / 4) (fun _ => rgb ++ rgb ++ rgb ++ rgb)
      ((row.take (count * 3)).take (count / 4 * 12)) =
        some (List.replicate (count / 4) (rgb ++ rgb ++ rgb ++ rgb)).flatten :=
    Row.mapPaint?_const _ (by decide) (by rw [List.length_take, List.length_take]; omega)
  have hback : Row.mapPaint? 3 (count - count / 4 * 4) (fun _ => rgb)
      ((row.take (count * 3)).drop (count / 4 * 12)) =
        some (List.replicate (count - count / 4 * 4) rgb).flatten :=
    Row.mapPaint?_const _ (by decide) (by rw [List.length_drop, List.length_take]; omega)
  have hjoin : (List.replicate (count / 4) (rgb ++ rgb ++ rgb ++ rgb)).flatten ++
      (List.replicate (count - count / 4 * 4) rgb).flatten =
        (List.replicate count rgb).flatten := by
    rw [flatten_replicate_four, ← List.flatten_append, List.replicate_append_replicate]
    congr 2
    omega
  have hlen : ((List.replicate count rgb).flatten).length = count * 3 := by
    simp [hrgb]
  unfold tile
  simp only [hpart, hfront, hback, Option.bind_eq_bind, Option.bind_some, hjoin, Row.overwrite,
    hlen, List.take_zero, List.nil_append, Nat.zero_add]
  rfl

theorem mapPaint?_pixel {p : FlatPainter} (hrgb : p.family = .rgb → p.shape.colors = 3)
    (hsize : Row.Walkable p.shape.size) (hcolor : p.shape.colors ≤ p.color.length) {m : Mix}
    (hm : m.Plain) (row : List UInt8) (count : Nat) :
    Row.mapPaint? p.shape.size count (p.pixel m) row =
      some (Row.zipPaint p.shape.size (fun _ => m.pixel (.alphaless p.shape.colors) p.color)
        (List.replicate (min count (row.length / p.shape.size)) ()) row) := by
  rw [Row.mapPaint?, Row.zipPaint?, if_pos hsize]
  congr 1
  apply Row.zipPaint_congr
  intro _ _ dst hdst
  exact pixel_eq hrgb hm hcolor hdst

theorem pixel_copy {colors : Nat} {color dst : List UInt8} (hcolor : colors ≤ color.length)
    (hdst : dst.length = colors) :
    Mix.copy.pixel (.alphaless colors) color dst = color.take colors := by
  have hlen : (color.take colors).length = dst.length := by
    rw [List.length_take, hdst, Nat.min_eq_left hcolor]
  have hzip : List.zipWith Mix.copy.sample (color.take colors ++ [255]) (dst ++ []) =
      List.zipWith Mix.copy.sample (color.take colors) dst ++
        List.zipWith Mix.copy.sample [255] [] := List.zipWith_append hlen
  rw [List.append_nil, List.zipWith_nil_right, List.append_nil] at hzip
  refine Eq.trans hzip ?_
  apply List.ext_getElem (by rw [List.length_zipWith, hlen, Nat.min_self])
  intro i hi hi'
  rw [List.getElem_zipWith]
  rfl

/-- The tiled fill is the walk that copies the colour, where the row holds all the pixels. -/
theorem tile_eq_zipPaint {color row : List UInt8} {count : Nat} (hcolor : 3 ≤ color.length)
    (hrow : count * 3 ≤ row.length) :
    tile (color.take 3) count row = some (Row.zipPaint 3
      (fun _ => Mix.copy.pixel (.alphaless 3) color)
      (List.replicate (min count (row.length / 3)) ()) row) := by
  have hcount : min count (row.length / 3) = count := by omega
  have hlen : (List.replicate count ()).length * 3 ≤ row.length := by
    rw [List.length_replicate]
    exact hrow
  rw [tile_eq (by rw [List.length_take]; omega) hrow, hcount,
    Row.zipPaint_congr (g := fun _ _ => color.take 3) fun _ _ _ hdst => pixel_copy hcolor hdst,
    Row.zipPaint_const _ _ hlen, List.length_replicate]

/-- Only the tiled fill asks for more than whole pixels: its row has to hold all of them. -/
theorem fill_eq_zipPaint {p : FlatPainter} (hrgb : p.family = .rgb → p.shape.colors = 3)
    (hsize : Row.Walkable p.shape.size) {alpha : UInt8}
    (halpha : p.color[p.shape.colors]? = some alpha) {row : List UInt8} {count : Nat}
    (hrow : p.family = .rgb → p.shape.alpha = false → alpha = 255 → 8 ≤ count →
      count * 3 ≤ row.length) :
    p.fill row count = some (Row.zipPaint p.shape.size
      (fun _ => (fillMix p.shape.alpha alpha).pixel (.alphaless p.shape.colors) p.color)
      (List.replicate (min count (row.length / p.shape.size)) ()) row) := by
  have hcolor := Nat.le_of_lt (List.getElem?_eq_some_iff.mp halpha).1
  have hmap := fun m hm => mapPaint?_pixel hrgb hsize hcolor (m := m) hm row count
  have hplain := plain_fillMix p.shape.alpha alpha
  rw [fill, halpha, Option.bind_eq_bind, Option.bind_some]
  unfold fillMix at hplain ⊢
  by_cases hdst : p.shape.alpha = true
  · rw [if_pos hdst] at hplain
    rw [if_pos hdst, if_pos hdst, hmap _ hplain]
  rw [if_neg hdst] at hplain
  rw [if_neg hdst, if_neg hdst]
  by_cases hfull : alpha = 255
  · rw [if_pos hfull] at hplain
    rw [if_pos hfull, if_pos hfull]
    by_cases htile : p.family = .rgb ∧ 8 ≤ count
    · have hcolors := hrgb htile.1
      have halphaless := Bool.eq_false_iff.mpr hdst
      have hthree : p.shape.size = 3 := by rw [Shape.size, hcolors, halphaless]; rfl
      rw [hcolors] at hcolor
      rw [if_pos htile, hthree, hcolors,
        tile_eq_zipPaint hcolor (hrow htile.1 halphaless hfull htile.2)]
    · rw [if_neg htile, hmap _ hplain]
  · rw [if_neg hfull] at hplain
    rw [if_neg hfull, if_neg hfull, hmap _ hplain]

/-- Two sets that serve a count paint the same colour, by its coverage and as a fill. Only the
tiled fill may overrun a row, and only one that is too short for all its pixels. -/
theorem color_families_agree {n : Nat} (hn : n = 1 ∨ n = 3 ∨ n = 4) {s t : FamilySet}
    {f g : Family} (hs : s.family? n = some f) (ht : t.family? n = some g) (da : Bool)
    {color : List UInt8} (hcolor : n + 1 ≤ color.length) :
    (∃ p q, s.tintPainter ⟨n, da⟩ color = .ok p ∧ t.tintPainter ⟨n, da⟩ color = .ok q ∧
      p.family = f ∧ q.family = g ∧
      ∀ row mask count, ∃ out,
        p.tint row mask count = some out ∧ q.tint row mask count = some out) ∧
    (∃ p q, s.fillPainter ⟨n, da⟩ color = .ok p ∧ t.fillPainter ⟨n, da⟩ color = .ok q ∧
      p.family = f ∧ q.family = g ∧
      ∀ row count,
        (n = 3 → da = false → color[3]? = some 255 → 8 ≤ count → count * 3 ≤ row.length) →
        ∃ out, p.fill row count = some out ∧ q.fill row count = some out) := by
  have hpos : 0 < n := by omega
  have hlt : n < sizeMax := by
    simp only [sizeMax]
    omega
  have hf := FamilySet.family?_ne_alphaOnly hpos hs
  have hg := FamilySet.family?_ne_alphaOnly hpos ht
  have hrgb := FamilySet.family?_eq_rgb hs
  have hrgb' := FamilySet.family?_eq_rgb ht
  have hsize := Shape.walkable hpos hlt da
  have halpha := List.getElem?_eq_getElem (show n < color.length by omega)
  constructor
  · refine ⟨⟨f, ⟨n, da⟩, color⟩, ⟨g, ⟨n, da⟩, color⟩,
      FamilySet.tintPainter_eq_ok hs hf hlt hcolor da,
      FamilySet.tintPainter_eq_ok ht hg hlt hcolor da, rfl, rfl, ?_⟩
    intro row mask count
    exact ⟨_, tint_eq_zipPaint (p := ⟨f, ⟨n, da⟩, color⟩) hrgb hsize halpha row mask count,
      tint_eq_zipPaint (p := ⟨g, ⟨n, da⟩, color⟩) hrgb' hsize halpha row mask count⟩
  · refine ⟨⟨f, ⟨n, da⟩, color⟩, ⟨g, ⟨n, da⟩, color⟩,
      FamilySet.fillPainter_eq_ok hs hf hlt hcolor da,
      FamilySet.fillPainter_eq_ok ht hg hlt hcolor da, rfl, rfl, ?_⟩
    intro row count hrow
    have htile : ∀ h : Family, (h = .rgb → n = 3) → h = .rgb → da = false → color[n] = 255 →
        8 ≤ count → count * 3 ≤ row.length := by
      intro h hthree hh hda hfull hcount
      obtain rfl := hthree hh
      exact hrow rfl hda (halpha.trans (congrArg some hfull)) hcount
    exact ⟨_, fill_eq_zipPaint (p := ⟨f, ⟨n, da⟩, color⟩) hrgb hsize halpha (htile f hrgb),
      fill_eq_zipPaint (p := ⟨g, ⟨n, da⟩, color⟩) hrgb' hsize halpha (htile g hrgb')⟩

/-- Nine pixels are two tiles and one pixel behind them. -/
theorem color_families_agree_tiles :
    FamilySet.all.family? 3 = some .rgb ∧ FamilySet.generalOnly.family? 3 = some .general ∧
    ∃ p q, FamilySet.all.fillPainter ⟨3, false⟩ [9, 8, 7, 255] = .ok p ∧
      FamilySet.generalOnly.fillPainter ⟨3, false⟩ [9, 8, 7, 255] = .ok q ∧
      p.family = .rgb ∧ q.family = .general ∧
      ∃ out, p.fill (List.replicate 28 1) 9 = some out ∧
        q.fill (List.replicate 28 1) 9 = some out := by
  refine ⟨rfl, rfl, ?_⟩
  obtain ⟨p, q, hp, hq, hf, hg, h⟩ := (@color_families_agree 3 (by decide) .all .generalOnly
    .rgb .general rfl rfl false [9, 8, 7, 255] (by decide)).2
  exact ⟨p, q, hp, hq, hf, hg, h _ 9 fun _ _ _ _ => by decide⟩

end FlatPainter

end Scanline
