import Scanline.Proofs.Painter.Stroke
/-! Premultiplied pixels. No colour sample of such a pixel exceeds its alpha, and painters keep it
so: every mix is monotone in what it mixes, and the alpha is mixed in the way of the colour. The
same bound keeps the exact value of each mix within a byte. -/
namespace Scanline

theorem toNat_byte_ofInt {v : Int} (h₀ : 0 ≤ v) (h : v ≤ 255) : ((UInt8.ofInt v).toNat : Int) = v := by
  obtain ⟨n, rfl⟩ := Int.eq_ofNat_of_zero_le h₀
  rw [byte_ofInt_natCast, UInt8.toNat_ofNat', Nat.mod_eq_of_lt (by omega)]

theorem byte_le_full (a : UInt8) : a ≤ 255 :=
  UInt8.le_iff_toNat_le.mpr (Nat.le_of_lt_succ a.toNat_lt)

namespace Weight

theorem scale_mono {x y w : Int} (h : x ≤ y) (hw : 0 ≤ w) : scale x w ≤ scale y w :=
  Int.ediv_le_ediv (by decide) (Int.mul_le_mul_of_nonneg_right h hw)

theorem lerp_eq (src dst w : Int) : lerp src dst w = (src * w + dst * (full - w)) / 256 := by
  rw [lerp, scale, full, Int.sub_mul, Int.mul_sub]
  omega

theorem lerp_mono {src src' dst dst' w : Int} (hsrc : src ≤ src') (hdst : dst ≤ dst')
    (h₀ : 0 ≤ w) (hw : w ≤ full) : lerp src dst w ≤ lerp src' dst' w := by
  have hshare := Int.mul_le_mul_of_nonneg_right hsrc h₀
  have hrest := Int.mul_le_mul_of_nonneg_right hdst (Int.sub_nonneg.mpr hw)
  rw [lerp_eq, lerp_eq]
  exact Int.ediv_le_ediv (by decide) (Int.add_le_add hshare hrest)

end Weight

namespace Mix

def exact : Mix → UInt8 → UInt8 → Int
  | .keep, _, dst => dst.toNat
  | .copy, src, _ => src.toNat
  | .lerp w, src, dst => Weight.lerp src.toNat dst.toNat w
  | .overlay t, src, dst => Weight.overlay src.toNat dst.toNat t
  | .sum source below, src, dst => Weight.sum src.toNat source dst.toNat below

theorem sample_eq_ofInt (m : Mix) (src dst : UInt8) :
    m.sample src dst = UInt8.ofInt (m.exact src dst) := by
  have hbyte (a : UInt8) : a = UInt8.ofInt (a.toNat : Int) := by
    rw [byte_ofInt_natCast, UInt8.ofNat_toNat]
  cases m with
  | keep => exact hbyte dst
  | copy => exact hbyte src
  | lerp w => rfl
  | overlay t => rfl
  | sum source below => rfl

/-- The weights are no negative ones, and no source sample up to `a` leads beyond a byte. -/
def Within (a : UInt8) : Mix → Prop
  | .keep | .copy => True
  | .lerp w => 0 ≤ w ∧ w ≤ Weight.full
  | .overlay t => 0 ≤ t ∧ Weight.overlay a.toNat 255 t ≤ 255
  | .sum source below => 0 ≤ source ∧ 0 ≤ below ∧ Weight.sum a.toNat source 255 below ≤ 255

variable {m : Mix} {a src src' dst dst' : UInt8}

theorem exact_mono (h : m.Within a) (hsrc : src ≤ src') (hdst : dst ≤ dst') :
    m.exact src dst ≤ m.exact src' dst' := by
  have hs : (src.toNat : Int) ≤ src'.toNat := Int.ofNat_le.mpr hsrc
  have hd : (dst.toNat : Int) ≤ dst'.toNat := Int.ofNat_le.mpr hdst
  cases m with
  | keep => exact hd
  | copy => exact hs
  | lerp w => exact Weight.lerp_mono hs hd h.1 h.2
  | overlay t => exact Int.add_le_add hs (Weight.scale_mono hd h.1)
  | sum source below =>
    exact Int.add_le_add (Weight.scale_mono hs h.1) (Weight.scale_mono hd h.2.1)

theorem exact_zero (m : Mix) : m.exact 0 0 = 0 := by
  cases m with
  | keep => rfl
  | copy => rfl
  | lerp w => simp [exact, Weight.lerp, Weight.scale]
  | overlay t => simp [exact, Weight.overlay, Weight.scale]
  | sum source below => simp [exact, Weight.sum, Weight.scale]

theorem exact_top (h : m.Within a) : m.exact a 255 ≤ 255 := by
  have ha := a.toNat_lt
  cases m with
  | keep => exact Int.le_refl _
  | copy => exact Int.ofNat_le.mpr (Nat.le_of_lt_succ ha)
  | lerp w =>
    have hscale := Weight.scale_mono (show ((a.toNat : Int) - 255) ≤ 0 by omega) h.1
    have hzero : Weight.scale 0 w = 0 := by rw [Weight.scale, Int.zero_mul]; rfl
    rw [hzero] at hscale
    exact Int.add_le_add_left hscale 255
  | overlay t => exact h.2
  | sum source below => exact h.2.2

/-- Nothing leaves a byte, so nothing is lost when a sample is cut to one. -/
theorem exact_within (h : m.Within a) (hsrc : src ≤ a) (dst : UInt8) :
    0 ≤ m.exact src dst ∧ m.exact src dst ≤ 255 := by
  have hlow := exact_mono h (UInt8.zero_le (a := src)) (UInt8.zero_le (a := dst))
  have hhigh := exact_mono h hsrc (byte_le_full dst)
  rw [exact_zero] at hlow
  exact ⟨hlow, Int.le_trans hhigh (exact_top h)⟩

theorem within_of_plain (h : m.Plain) (a : UInt8) : m.Within a := by
  cases m with
  | keep => trivial
  | copy => trivial
  | lerp w => exact h
  | overlay t => exact h.elim
  | sum source below => exact h.elim

/-- A layer never adds more than an opaque pixel below has room for. -/
theorem within_ofLayer (layer : UInt8) (srcAlpha : Option UInt8) :
    (ofLayer layer srcAlpha).Within (srcAlpha.getD 255) := by
  cases srcAlpha with
  | none => exact within_of_plain (plain_ofLayer layer) _
  | some a =>
    have ha := a.toNat_lt
    rw [ofLayer]
    by_cases hsolid : Weight.ofByte layer = Weight.full
    · rw [if_pos hsolid]
      dsimp only [Option.elim_some, Option.getD_some]
      split
      · trivial
      split
      · trivial
      simp only [Within, Weight.overlay, Weight.scale, Weight.ofByte, Weight.full]
      omega
    · rw [if_neg hsolid]
      have hw := Weight.scale_le (Int.natCast_nonneg a.toNat) (Weight.ofByte_le layer)
      dsimp only [Option.elim_some]
      split
      · trivial
      · refine ⟨Weight.scale_nonneg (Int.natCast_nonneg _) (Weight.ofByte_nonneg layer), ?_⟩
        rw [Weight.full]
        omega

theorem within_ofCoverage (cover : UInt8) (srcAlpha : Option UInt8) :
    (ofCoverage cover srcAlpha).Within (srcAlpha.getD 255) := by
  cases srcAlpha with
  | none => exact within_of_plain (plain_ofCoverage cover) _
  | some a =>
    have ha := a.toNat_lt
    have hw₀ := Weight.ofByte_nonneg cover
    have hw := Weight.ofByte_le cover
    rw [ofCoverage]
    dsimp only [Option.elim_some, Option.getD_some]
    split
    · trivial
    split
    · split
      · trivial
      · have hrest : (255 - a).toNat = 255 - a.toNat := UInt8.toNat_sub_of_le _ _ (byte_le_full a)
        simp only [Within, Weight.overlay, Weight.scale, Weight.ofByte, hrest]
        omega
    · have hscale₀ := Weight.scale_nonneg (Int.natCast_nonneg a.toNat) hw₀
      have hscale := Weight.scale_le (Int.natCast_nonneg a.toNat) hw
      have hrest := toNat_byte_ofInt (v := 255 - Weight.scale a.toNat (Weight.ofByte cover))
        (by omega) (by omega)
      refine ⟨hw₀, Weight.ofByte_nonneg _, ?_⟩
      rw [Weight.sum]
      generalize Weight.scale a.toNat (Weight.ofByte cover) = share at *
      generalize UInt8.ofInt (255 - share) = below at *
      simp only [Weight.scale, Weight.ofByte]
      omega

end Mix

/-- No colour sample exceeds the alpha. Pixels without alpha have none to exceed. -/
def Shape.Premultiplied (shape : Shape) (px : List UInt8) : Prop :=
  ∀ a ∈ shape.alpha? px, ∀ c ∈ px.take shape.colors, c ≤ a

instance (shape : Shape) (px : List UInt8) : Decidable (shape.Premultiplied px) :=
  inferInstanceAs (Decidable (∀ a ∈ shape.alpha? px, ∀ c ∈ px.take shape.colors, c ≤ a))

def Shape.PremultipliedRow (shape : Shape) (row : List UInt8) : Prop :=
  ∀ px ∈ Row.takePixels shape.size (row.length / shape.size) row, shape.Premultiplied px

instance (shape : Shape) (row : List UInt8) : Decidable (shape.PremultipliedRow row) :=
  inferInstanceAs (Decidable (∀ px ∈ Row.takePixels _ _ row, shape.Premultiplied px))

def Brush.Premultiplied (colors : Nat) : Brush → Prop
  | .fill _ | .tint _ _ => True
  | .overlay _ srcAlpha src | .masked srcAlpha src _ => (Shape.mk colors srcAlpha).PremultipliedRow src

instance (colors : Nat) : (b : Brush) → Decidable (b.Premultiplied colors)
  | .fill _ | .tint _ _ => isTrue trivial
  | .overlay _ srcAlpha src | .masked srcAlpha src _ =>
    inferInstanceAs (Decidable ((Shape.mk colors srcAlpha).PremultipliedRow src))

namespace Shape

variable {shape : Shape}

theorem premultiplied_alphaless (colors : Nat) (px : List UInt8) :
    (alphaless colors).Premultiplied px := by
  intro a ha
  cases ha

theorem premultiplied_append {color : List UInt8} {a : UInt8} (halpha : shape.alpha = true)
    (hcolor : color.length = shape.colors) :
    shape.Premultiplied (color ++ [a]) ↔ ∀ c ∈ color, c ≤ a := by
  have hsome : shape.alpha? (color ++ [a]) = some a := by
    rw [alpha?, if_pos halpha, ← hcolor, List.getElem?_concat_length]
  have htake : (color ++ [a]).take shape.colors = color := List.take_left' hcolor
  rw [Premultiplied, hsome, htake]
  constructor
  · intro h
    exact h a rfl
  · rintro h b hb
    cases hb
    exact h

theorem premultiplied_of_mem_sourcePixels {count : Nat} {src px : List UInt8}
    (hsrc : shape.PremultipliedRow src) (h : px ∈ shape.sourcePixels count src) :
    shape.Premultiplied px := by
  rw [sourcePixels] at h
  split at h
  · rw [List.eq_of_mem_replicate h]
    intro a ha c hc
    rw [List.take_nil] at hc
    cases hc
  · exact hsrc px h

end Shape

namespace Meeting

variable {m : Meeting} {shape : Shape} {px : List UInt8}

structure Fair (m : Meeting) : Prop where
  within : m.mix.Within m.alpha
  color_le : ∀ c ∈ m.color, c ≤ m.alpha

theorem fair_ofPixel {mix : Mix} (hmix : mix.Within ((shape.alpha? px).getD 255))
    (hpx : shape.Premultiplied px) : (ofPixel mix shape px).Fair := by
  refine ⟨hmix, ?_⟩
  intro c hc
  rw [ofPixel] at hc ⊢
  cases ha : shape.alpha? px with
  | none => exact byte_le_full c
  | some a => exact hpx a ha c hc

theorem Fair.samples_le (h : m.Fair) : ∀ a ∈ m.samples, a ≤ m.alpha := by
  intro a ha
  rcases List.mem_append.mp ha with hcolor | halpha
  · exact h.color_le a hcolor
  · rw [List.mem_singleton.mp halpha]
    exact UInt8.le_refl _

/-- Colour and alpha take the same mix, and what was in order stays in order. -/
theorem Fair.premultiplied (h : m.Fair) (halpha : shape.alpha = true)
    (hcolor : m.color.length = shape.colors) (hlength : px.length = shape.size)
    (hpx : shape.Premultiplied px) : shape.Premultiplied (m.paint px) := by
  obtain ⟨color, rest, rfl, hold, hrest⟩ := Shape.split_pixel hlength
  rw [halpha, Bool.toNat_true] at hrest
  obtain ⟨old, rfl⟩ := List.length_eq_one_iff.mp hrest
  have hle := (Shape.premultiplied_append halpha hold).mp hpx
  have hpaint : m.paint (color ++ [old]) =
      List.zipWith m.mix.sample m.color color ++ [m.mix.sample m.alpha old] :=
    List.zipWith_append (hcolor.trans hold.symm)
  have hmixed : (List.zipWith m.mix.sample m.color color).length = shape.colors := by
    rw [List.length_zipWith, hcolor, hold, Nat.min_self]
  rw [hpaint, Shape.premultiplied_append halpha hmixed]
  intro c hc
  obtain ⟨i, hi, rfl⟩ := List.getElem_of_mem hc
  rw [List.length_zipWith] at hi
  rw [List.getElem_zipWith]
  have hsrc := h.color_le _ (List.getElem_mem (show i < m.color.length by omega))
  have hdst := hle _ (List.getElem_mem (show i < color.length by omega))
  have hlow := Mix.exact_within h.within hsrc color[i]
  have hhigh := Mix.exact_within h.within (UInt8.le_refl m.alpha) old
  have hmono := Mix.exact_mono h.within hsrc hdst
  rw [UInt8.le_iff_toNat_le, ← Int.ofNat_le, Mix.sample_eq_ofInt, Mix.sample_eq_ofInt,
    toNat_byte_ofInt hlow.1 hlow.2, toNat_byte_ofInt hhigh.1 hhigh.2]
  exact hmono

end Meeting

namespace Stroke

variable {s : Stroke} {row out : List UInt8} {f : Family}

theorem meetings_cases {m : Meeting} (hm : m ∈ s.meetings) :
    (∃ mix color, mix.Plain ∧ m = .ofPixel mix (.alphaless s.shape.colors) color) ∨
    (∃ layer srcAlpha src, s.brush = .overlay layer srcAlpha src ∧
      ∃ px ∈ (Shape.mk s.shape.colors srcAlpha).sourcePixels s.count src,
        m = .ofPixel (.ofLayer layer.alpha ((Shape.mk s.shape.colors srcAlpha).alpha? px))
          ⟨s.shape.colors, srcAlpha⟩ px) ∨
    ∃ srcAlpha src mask, s.brush = .masked srcAlpha src mask ∧
      ∃ px ∈ (Shape.mk s.shape.colors srcAlpha).sourcePixels mask.length src, ∃ cover,
        m = .ofPixel (.ofCoverage cover ((Shape.mk s.shape.colors srcAlpha).alpha? px))
          ⟨s.shape.colors, srcAlpha⟩ px := by
  obtain ⟨families, shape, brush, start, count⟩ := s
  cases brush with
  | fill color =>
    exact Or.inl ⟨_, color, FlatPainter.plain_fillMix _ _, List.eq_of_mem_replicate hm⟩
  | tint color mask =>
    obtain ⟨cover, -, rfl⟩ := List.mem_map.mp hm
    exact Or.inl ⟨_, color, Mix.plain_toward
      (FlatPainter.weight_nonneg (color[shape.colors]?.getD 0) cover)
      (FlatPainter.weight_le (color[shape.colors]?.getD 0) cover), rfl⟩
  | overlay layer srcAlpha src =>
    obtain ⟨px, hpx, rfl⟩ := List.mem_map.mp hm
    exact Or.inr (Or.inl ⟨layer, srcAlpha, src, rfl, px, List.mem_of_mem_take hpx, rfl⟩)
  | masked srcAlpha src mask =>
    obtain ⟨⟨px, cover⟩, ha, rfl⟩ := List.mem_map.mp hm
    exact Or.inr (Or.inr ⟨srcAlpha, src, mask, rfl, px,
      (List.of_mem_zip (List.mem_of_mem_take ha)).1, cover, rfl⟩)

theorem fair_meetings (h : s.brush.Premultiplied s.shape.colors) : ∀ m ∈ s.meetings, m.Fair := by
  intro m hm
  rcases meetings_cases hm with ⟨mix, color, hplain, rfl⟩ | ⟨_, _, _, hbrush, px, hpx, rfl⟩ |
    ⟨_, _, _, hbrush, px, hpx, cover, rfl⟩
  · exact Meeting.fair_ofPixel (Mix.within_of_plain hplain _) (Shape.premultiplied_alphaless _ _)
  · rw [hbrush] at h
    exact Meeting.fair_ofPixel (Mix.within_ofLayer _ _)
      (Shape.premultiplied_of_mem_sourcePixels h hpx)
  · rw [hbrush] at h
    exact Meeting.fair_ofPixel (Mix.within_ofCoverage _ _)
      (Shape.premultiplied_of_mem_sourcePixels h hpx)

theorem paint_premultiplied (halpha : s.shape.alpha = true) (hstart : s.shape.size ∣ s.start)
    (hbrush : s.brush.Premultiplied s.shape.colors) (hrow : s.shape.PremultipliedRow row)
    (h : s.paint row = .ok (f, out)) : s.shape.PremultipliedRow out := by
  have hsize : 0 < s.shape.size := by
    rw [Shape.size, halpha, Bool.toNat_true]
    exact Nat.succ_pos _
  intro px hpx
  obtain ⟨i, hi, rfl⟩ := Row.mem_takePixels.mp hpx
  rw [length_paint h] at hi
  have hend := (Nat.le_div_iff_mul_le hsize).mp (Nat.succ_le_of_lt hi)
  have hold := hrow _ (Row.mem_takePixels.mpr ⟨i, hi, rfl⟩)
  rcases paint_pixel hsize hstart h hend with hsame | ⟨m, hm, hcolor, hmet⟩
  · exact hsame ▸ hold
  · have hlength := Row.length_part (Nat.succ_mul i _ ▸ hend)
    exact hmet ▸ (fair_meetings hbrush m hm).premultiplied halpha hcolor hlength hold

theorem paintAll_premultiplied {shape : Shape} {strokes : List Stroke}
    (halpha : shape.alpha = true) (hshape : ∀ s ∈ strokes, s.shape = shape)
    (hstart : ∀ s ∈ strokes, shape.size ∣ s.start)
    (hbrush : ∀ s ∈ strokes, s.brush.Premultiplied shape.colors)
    (hrow : shape.PremultipliedRow row) (h : paintAll row strokes = .ok out) :
    shape.PremultipliedRow out := by
  induction strokes generalizing row with
  | nil =>
    cases h
    exact hrow
  | cons s strokes ih =>
    simp only [List.forall_mem_cons] at hshape hstart hbrush
    obtain ⟨rfl, hshape⟩ := hshape
    rw [paintAll] at h
    split at h
    · rename_i hpaint
      exact ih hshape hstart.2 hbrush.2
        (paint_premultiplied halpha hstart.1 hbrush.1 hrow hpaint) h
    · exact ih hshape hstart.2 hbrush.2 hrow h
    · cases h

/-- Strokes of all kinds keep a premultiplied row premultiplied, as long as their sources are. On
any row, what such a stroke leaves in a pixel is one mix for each sample, and none of these
mixes leaves the range of a byte before it is cut to one. -/
theorem strokes_stay_premultiplied {shape : Shape} {strokes : List Stroke}
    (hshape : ∀ s ∈ strokes, s.shape = shape) (hstart : ∀ s ∈ strokes, shape.size ∣ s.start)
    (hbrush : ∀ s ∈ strokes, s.brush.Premultiplied shape.colors) (row : List UInt8) :
    (shape.alpha = true → shape.PremultipliedRow row → ∀ done, done <+: strokes →
      ∀ out, paintAll row done = .ok out → shape.PremultipliedRow out) ∧
    ∀ s ∈ strokes,
      (∀ old f out, s.paint old = .ok (f, out) → out = old.take s.start ++
        Row.zipPaint shape.size Meeting.paint s.meetings (old.drop s.start)) ∧
      ∀ m ∈ s.meetings, ∀ a ∈ m.samples, ∀ b,
        0 ≤ m.mix.exact a b ∧ m.mix.exact a b ≤ 255 ∧
          ((m.mix.sample a b).toNat : Int) = m.mix.exact a b := by
  constructor
  · intro halpha hrow done hdone out hout
    have hmem : ∀ s ∈ done, s ∈ strokes := fun s hs => hdone.subset hs
    exact paintAll_premultiplied halpha (fun s hs => hshape s (hmem s hs))
      (fun s hs => hstart s (hmem s hs)) (fun s hs => hbrush s (hmem s hs)) hrow hout
  · intro s hs
    obtain rfl := hshape s hs
    constructor
    · intro old f out hout
      exact (paint_meetings hout).2.1
    · intro m hm a ha b
      have hfair := fair_meetings (hbrush s hs) m hm
      obtain ⟨hlow, hhigh⟩ := Mix.exact_within hfair.within (hfair.samples_le a ha) b
      rw [Mix.sample_eq_ofInt]
      exact ⟨hlow, hhigh, toNat_byte_ofInt hlow hhigh⟩

def glaze : List Stroke :=
  [⟨.all, ⟨1, true⟩, .fill [200, 128], 2, 1⟩,
   ⟨.generalOnly, ⟨1, true⟩, .overlay (.partway 90) true [60, 100, 7, 7], 0, 2⟩,
   ⟨.all, ⟨1, true⟩, .masked true [60, 100, 7, 7] [255, 77], 0, 2⟩]

theorem strokes_stay_premultiplied_glaze :
    (∀ s ∈ glaze, s.shape = ⟨1, true⟩) ∧ (∀ s ∈ glaze, 2 ∣ s.start) ∧
    (∀ s ∈ glaze, s.brush.Premultiplied 1) ∧ Shape.PremultipliedRow ⟨1, true⟩ [10, 20, 30, 30] ∧
    ∃ out, paintAll [10, 20, 30, 30] glaze = .ok out ∧ Shape.PremultipliedRow ⟨1, true⟩ out ∧
      ∀ s ∈ glaze, ∀ m ∈ s.meetings, ∀ a ∈ m.samples, ∀ b, m.mix.exact a b ≤ 255 := by
  have hshape : ∀ s ∈ glaze, s.shape = ⟨1, true⟩ := by decide
  have hstart : ∀ s ∈ glaze, Shape.size ⟨1, true⟩ ∣ s.start := by decide
  have hbrush : ∀ s ∈ glaze, s.brush.Premultiplied 1 := by decide +kernel
  have hrow : Shape.PremultipliedRow ⟨1, true⟩ [10, 20, 30, 30] := by decide +kernel
  obtain ⟨hkept, hexact⟩ := strokes_stay_premultiplied hshape hstart hbrush [10, 20, 30, 30]
  have hout : paintAll [10, 20, 30, 30] glaze = .ok [69, 118, 115, 141] := by
    with_unfolding_all rfl
  refine ⟨hshape, hstart, hbrush, hrow, _, hout, ?_, ?_⟩
  · exact hkept rfl hrow glaze (List.prefix_refl _) _ hout
  · intro s hs m hm a ha b
    exact ((hexact s hs).2 m hm a ha b).2.1

end Stroke

end Scanline
