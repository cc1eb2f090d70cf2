import Scanline.Proofs.Painter.Premultiplied
import Scanline.Proofs.Painter.Reach
import Scanline.Proofs.Painter.Tinted
/-! More coverage, more of the source. An opaque source draws each sample toward its own by a
weight, and a sample that is drawn by more weight is never further off and never past the mark.
Masks, layers and the alpha of a colour all go into that weight without a break. -/
namespace Scanline

namespace Weight

variable {x w w' : Int}

theorem scale_mono_right (hx : 0 ≤ x) (h : w ≤ w') : scale x w ≤ scale x w' :=
  Int.ediv_le_ediv (by decide) (Int.mul_le_mul_of_nonneg_left h hx)

theorem scale_anti_right (hx : x ≤ 0) (h : w ≤ w') : scale x w' ≤ scale x w :=
  Int.ediv_le_ediv (by decide) (Int.mul_le_mul_of_nonpos_left hx h)

theorem ofByte_mono {a b : UInt8} (h : a ≤ b) : ofByte a ≤ ofByte b := by
  rw [UInt8.le_iff_toNat_le] at h
  simp only [ofByte]
  omega

def ofLayer (layer : UInt8) : Int := if layer = 255 then full else layer.toNat

theorem ofLayer_mono {a b : UInt8} (h : a ≤ b) : ofLayer a ≤ ofLayer b := by
  have hb := b.toNat_lt
  have hfull (c : UInt8) : c = 255 ↔ c.toNat = 255 := UInt8.toNat_inj.symm
  rw [UInt8.le_iff_toNat_le] at h
  simp only [ofLayer, full, hfull]
  split <;> split <;> omega

theorem ofLayer_nonneg (a : UInt8) : 0 ≤ ofLayer a := by
  rw [ofLayer, full]
  split <;> omega

theorem ofLayer_le (a : UInt8) : ofLayer a ≤ full :=
  ofLayer_mono (byte_le_full a)

end Weight

namespace Sample

/-- On the way from `old` to `goal` comes `near` first and `far` after it. -/
def OnTheWay (old near far goal : UInt8) : Prop :=
  (old ≤ near ∧ near ≤ far ∧ far ≤ goal) ∨ (goal ≤ far ∧ far ≤ near ∧ near ≤ old)

/-- A sample never leaves a byte on its way to another, so nothing is cut off. -/
theorem toNat_lerp (src dst : UInt8) {w : Int} (h₀ : 0 ≤ w) (hw : w ≤ Weight.full) :
    ((lerp src dst w).toNat : Int) = Weight.lerp src.toNat dst.toNat w := by
  have hplain : (Mix.lerp w).Plain := ⟨h₀, hw⟩
  obtain ⟨hlow, hhigh⟩ := Mix.exact_within (Mix.within_of_plain hplain 255) (byte_le_full src) dst
  exact toNat_byte_ofInt hlow hhigh

/-- Products are floored on the way up and on the way down, but floors keep an order. -/
theorem onTheWay_lerp (goal old : UInt8) {w w' : Int} (h₀ : 0 ≤ w) (h : w ≤ w')
    (hw : w' ≤ Weight.full) : OnTheWay old (lerp goal old w) (lerp goal old w') goal := by
  have hnone := Weight.scale_zero_right (goal.toNat - old.toNat : Int)
  have hall := Weight.scale_full_right (goal.toNat - old.toNat : Int)
  have hnear := toNat_lerp goal old h₀ (Int.le_trans h hw)
  have hfar := toNat_lerp goal old (Int.le_trans h₀ h) hw
  rw [Weight.lerp] at hnear hfar
  simp only [OnTheWay, UInt8.le_iff_toNat_le, ← Int.ofNat_le, hnear, hfar]
  rcases Int.le_total old.toNat goal.toNat with hup | hdown
  · have hdiff : (0 : Int) ≤ goal.toNat - old.toNat := Int.sub_nonneg.mpr hup
    have h₁ := Weight.scale_mono_right hdiff h₀
    have h₂ := Weight.scale_mono_right hdiff h
    have h₃ := Weight.scale_mono_right hdiff hw
    omega
  · have hdiff : (goal.toNat - old.toNat : Int) ≤ 0 := Int.sub_nonpos_of_le hdown
    have h₁ := Weight.scale_anti_right hdiff h₀
    have h₂ := Weight.scale_anti_right hdiff h
    have h₃ := Weight.scale_anti_right hdiff hw
    omega

end Sample

namespace Mix

theorem sample_ofLayer_none (layer src dst : UInt8) :
    (ofLayer layer none).sample src dst = Sample.lerp src dst (Weight.ofLayer layer) := by
  rw [ofLayer, Weight.ofLayer]
  by_cases hfull : layer = 255
  · simp [sample, hfull]
  · rw [if_neg (mt Weight.ofByte_eq_full_iff.mp hfull), if_neg hfull]
    dsimp only [Option.elim_none]
    split
    · rename_i hzero
      simp [sample, hzero]
    · rfl

end Mix

namespace FlatPainter

theorem weight_mono {a a' m m' : UInt8} (ha : a ≤ a') (hm : m ≤ m') :
    weight a m ≤ weight a' m' := by
  rw [weight_eq_scale, weight_eq_scale]
  exact Int.le_trans (Weight.scale_mono (Weight.ofByte_mono hm) (Weight.ofByte_nonneg a))
    (Weight.scale_mono_right (Weight.ofByte_nonneg m') (Weight.ofByte_mono ha))

end FlatPainter

def Brush.Plain : Brush → Prop
  | .fill _ | .tint _ _ => True
  | .overlay _ srcAlpha _ | .masked srcAlpha _ _ => srcAlpha = false

def Brush.pixel (colors i : Nat) : Brush → List UInt8
  | .fill color | .tint color _ => color
  | .overlay _ _ src | .masked _ src _ => Row.part src (i * colors) colors

def Brush.share (colors i : Nat) : Brush → Int
  | .fill color => FlatPainter.weight (color.getD colors 0) 255
  | .tint color mask => FlatPainter.weight (color.getD colors 0) (mask.getD i 0)
  | .overlay layer _ _ => Weight.ofLayer layer.alpha
  | .masked _ _ mask => Weight.ofByte (mask.getD i 0)

def Brush.goal (colors i k : Nat) (brush : Brush) : UInt8 :=
  if k < colors then (brush.pixel colors i).getD k 0 else 255

theorem Shape.getElem?_sourcePixels {shape : Shape} {count i : Nat} {src px : List UInt8}
    (h : (shape.sourcePixels count src)[i]? = some px) :
    px = Row.part src (i * shape.size) shape.size := by
  rw [sourcePixels] at h
  split at h
  · rename_i hzero
    rw [List.eq_of_mem_replicate (List.mem_of_getElem? h), hzero, Row.part, List.take_zero]
  · have hi : i < src.length / shape.size := by simpa using (List.getElem?_eq_some_iff.mp h).1
    exact Option.some.inj (h.symm.trans (Row.getElem?_takePixels src hi))

namespace Meeting

theorem getElem?_samples_alphaless {mix : Mix} {colors k : Nat} {px : List UInt8}
    (hpx : colors ≤ px.length) (hk : k ≤ colors) :
    (ofPixel mix (.alphaless colors) px).samples[k]? =
      some (if k < colors then px.getD k 0 else 255) := by
  have hlength : (px.take colors).length = colors := List.length_take_of_le hpx
  rw [samples, ofPixel]
  dsimp only [Shape.alphaless]
  split
  · rw [List.getElem?_append_left (by omega), List.getElem?_take_of_lt ‹_›,
      List.getD_eq_getElem?_getD, List.getElem?_eq_getElem (by omega), Option.getD_some]
  · rw [List.getElem?_append_right (by omega), show k - (px.take colors).length = 0 by omega]
    rfl

end Meeting

namespace Stroke

variable {s : Stroke} {row out : List UInt8} {f : Family}

/-- What an opaque brush brings is the way to a goal. -/
theorem meeting_goal (hplain : s.brush.Plain) {i k : Nat} {m : Meeting}
    (hm : s.meetings[i]? = some m) (hcolor : m.color.length = s.shape.colors)
    (hk : k < s.shape.size) :
    m.samples[k]? = some (s.brush.goal s.shape.colors i k) ∧
      ∀ src dst, m.mix.sample src dst = Sample.lerp src dst (s.brush.share s.shape.colors i) := by
  obtain ⟨families, shape, brush, start, count⟩ := s
  have hle : k ≤ shape.colors := by
    have := shape.alpha.toNat_le
    simp only [Shape.size] at hk
    omega
  have hlength (px : List UInt8) (h : (px.take shape.colors).length = shape.colors) :
      shape.colors ≤ px.length := by
    rw [List.length_take] at h
    omega
  cases brush with
  | fill color =>
    obtain rfl := List.eq_of_mem_replicate (List.mem_of_getElem? hm)
    refine ⟨Meeting.getElem?_samples_alphaless (hlength color hcolor) hle, fun src dst => ?_⟩
    rw [Brush.share, List.getD_eq_getElem?_getD]
    exact FlatPainter.sample_fillMix _ _ src dst
  | tint color mask =>
    simp only [meetings, List.getElem?_map, Option.map_eq_some_iff] at hm
    obtain ⟨cover, hcover, rfl⟩ := hm
    refine ⟨Meeting.getElem?_samples_alphaless (hlength color hcolor) hle, fun src dst => ?_⟩
    rw [Brush.share, List.getD_eq_getElem?_getD, List.getD_eq_getElem?_getD,
      (Row.getElem?_take_eq_some.mp hcover).2]
    exact Mix.sample_toward _ src dst
  | overlay layer srcAlpha src =>
    obtain rfl := hplain
    simp only [meetings, List.getElem?_map, Option.map_eq_some_iff] at hm
    obtain ⟨px, hpx, rfl⟩ := hm
    obtain rfl := Shape.getElem?_sourcePixels (Row.getElem?_take_eq_some.mp hpx).2
    exact ⟨Meeting.getElem?_samples_alphaless (hlength _ hcolor) hle, Mix.sample_ofLayer_none _⟩
  | masked srcAlpha src mask =>
    obtain rfl := hplain
    simp only [meetings, List.getElem?_map, Option.map_eq_some_iff] at hm
    obtain ⟨⟨px, cover⟩, ha, rfl⟩ := hm
    obtain ⟨hpx, hcover⟩ := List.getElem?_zip_eq_some.mp (Row.getElem?_take_eq_some.mp ha).2
    obtain rfl := Shape.getElem?_sourcePixels hpx
    refine ⟨Meeting.getElem?_samples_alphaless (hlength _ hcolor) hle, fun src dst => ?_⟩
    rw [Brush.share, List.getD_eq_getElem?_getD, hcover]
    exact (congrArg (·.sample src dst) (Mix.ofCoverage_none cover)).trans (Mix.sample_toward _ _ _)

def goal (s : Stroke) (b : Nat) : UInt8 :=
  s.brush.goal s.shape.colors ((b - s.start) / s.shape.size) ((b - s.start) % s.shape.size)

/-- How far byte `b` is drawn: by the share of its pixel where that is within reach. -/
def pull (s : Stroke) (row : List UInt8) (b : Nat) : Int :=
  if s.start ≤ b ∧ (b - s.start) / s.shape.size < s.reach (row.drop s.start) then
    s.brush.share s.shape.colors ((b - s.start) / s.shape.size)
  else 0

theorem getElem?_paint (hplain : s.brush.Plain) (h : s.paint row = .ok (f, out)) {b : Nat}
    {old : UInt8} (hold : row[b]? = some old) :
    out[b]? = some (Sample.lerp (s.goal b) old (s.pull row b)) := by
  have hcolor := (paint_meetings h).2.2
  rw [pull]
  split
  · rename_i hmet
    obtain ⟨hb, hreach⟩ := hmet
    obtain ⟨hstart, hfamily, painted, hpainted, rfl⟩ := paint_eq_ok_iff.mp h
    obtain ⟨m, hm, hpart⟩ := (paintIn_reach hfamily hpainted).2.1 _ hreach
    have hbefore := List.length_take_of_le hstart
    have hk := Nat.mod_lt (b - s.start) (size_pos_of_family hfamily)
    have hsplit := Nat.div_add_mod' (b - s.start) s.shape.size
    obtain ⟨hgoal, hmix⟩ := meeting_goal hplain hm (hcolor m (List.mem_of_getElem? hm)) hk
    rw [List.getElem?_append_right (by omega), hbefore, ← hsplit, ← Row.getElem?_part _ _ hk,
      hpart, Meeting.paint, List.getElem?_zipWith, hgoal, Row.getElem?_part _ _ hk, hsplit,
      List.getElem?_drop, Nat.add_sub_cancel' hb, hold]
    exact congrArg some (hmix _ old)
  · rename_i hmissed
    rw [Sample.lerp_zero, ← hold]
    apply getElem?_paint_outside h
    rcases Nat.lt_or_ge b s.start with hb | hb
    · exact Or.inl hb
    · have hfar := Nat.not_lt.mp fun hlt => hmissed ⟨hb, hlt⟩
      have hfamily := (paint_eq_ok_iff.mp h).2.1
      have hend := (Nat.le_div_iff_mul_le (size_pos_of_family hfamily)).mp hfar
      omega

end Stroke

structure Thickens (count : Nat) (mask mask' : List UInt8) : Prop where
  length_le : min count mask.length ≤ mask'.length
  le : ∀ i < count, mask.getD i 0 ≤ mask'.getD i 0

structure Deepens (colors : Nat) (color color' : List UInt8) : Prop where
  samples : color.take colors = color'.take colors
  length : colors < color.length ∧ colors < color'.length
  alpha_le : color.getD colors 0 ≤ color'.getD colors 0

/-- A brush with more of the same: more coverage, a deeper colour or a denser layer. -/
inductive Brush.Grows (colors count : Nat) : Brush → Brush → Prop
  | fill {color color' : List UInt8} (hcolor : Deepens colors color color') :
      Grows colors count (.fill color) (.fill color')
  | tint {color color' mask mask' : List UInt8} (hcolor : Deepens colors color color')
      (hmask : Thickens count mask mask') :
      Grows colors count (.tint color mask) (.tint color' mask')
  | overlay {layer layer' : Opacity} (hlayer : layer.alpha ≤ layer'.alpha) (src : List UInt8) :
      Grows colors count (.overlay layer false src) (.overlay layer' false src)
  | masked {mask mask' : List UInt8} (hmask : Thickens count mask mask') (src : List UInt8) :
      Grows colors count (.masked false src mask) (.masked false src mask')

namespace Brush.Grows

variable {colors count i : Nat} {b b' : Brush}

theorem plain_left (h : b.Grows colors count b') : b.Plain := by
  cases h <;> trivial

theorem plain_right (h : b.Grows colors count b') : b'.Plain := by
  cases h <;> trivial

theorem goal_eq (h : b.Grows colors count b') (i k : Nat) :
    b'.goal colors i k = b.goal colors i k := by
  have hcolor {color color' : List UInt8} (h : Deepens colors color color') (hk : k < colors) :
      color'.getD k 0 = color.getD k 0 := by
    rw [List.getD_eq_getElem?_getD, List.getD_eq_getElem?_getD, ← List.getElem?_take_of_lt hk,
      ← h.samples, List.getElem?_take_of_lt hk]
  rw [Brush.goal, Brush.goal]
  split
  · cases h with
    | fill h => exact hcolor h ‹_›
    | tint h _ => exact hcolor h ‹_›
    | overlay _ _ => rfl
    | masked _ _ => rfl
  · rfl

theorem share_le (h : b.Grows colors count b') (hi : i < count) :
    b.share colors i ≤ b'.share colors i := by
  cases h with
  | fill hcolor => exact FlatPainter.weight_mono hcolor.alpha_le (UInt8.le_refl _)
  | tint hcolor hmask => exact FlatPainter.weight_mono hcolor.alpha_le (hmask.le i hi)
  | overlay hlayer _ => exact Weight.ofLayer_mono hlayer
  | masked hmask _ => exact Weight.ofByte_mono (hmask.le i hi)

theorem held_le (h : b.Grows colors count b') :
    min count (b.held colors count) ≤ min count (b'.held colors count) := by
  cases h with
  | fill _ => exact Nat.le_refl _
  | tint _ hmask =>
    have := hmask.length_le
    simp only [Brush.held]
    omega
  | overlay _ _ => exact Nat.le_refl _
  | masked hmask _ =>
    have := hmask.length_le
    simp only [Brush.held]
    omega

end Brush.Grows

namespace Brush

variable (b : Brush) (colors i : Nat)

theorem share_nonneg : 0 ≤ b.share colors i := by
  cases b with
  | fill color => exact FlatPainter.weight_nonneg _ _
  | tint color mask => exact FlatPainter.weight_nonneg _ _
  | overlay layer srcAlpha src => exact Weight.ofLayer_nonneg _
  | masked srcAlpha src mask => exact Weight.ofByte_nonneg _

theorem share_le_full : b.share colors i ≤ Weight.full := by
  cases b with
  | fill color => exact FlatPainter.weight_le _ _
  | tint color mask => exact FlatPainter.weight_le _ _
  | overlay layer srcAlpha src => exact Weight.ofLayer_le _
  | masked srcAlpha src mask => exact Weight.ofByte_le _

end Brush

namespace FamilySet

theorem selectColor_congr {s : FamilySet} {kind : PainterKind} {colors : Nat}
    {color color' : List UInt8} {alphaOnly : Bool} (hcolor : colors < color.length)
    (hcolor' : colors < color'.length) :
    s.selectColor kind colors color' alphaOnly = s.selectColor kind colors color alphaOnly := by
  rw [selectColor, selectColor, if_neg (show ¬ color'.length < colors + 1 by omega),
    if_neg (show ¬ color.length < colors + 1 by omega)]

end FamilySet

namespace Stroke

def withBrush (s : Stroke) (brush : Brush) : Stroke := { s with brush }

section Grown

variable {s : Stroke} {brush' : Brush} (h : s.brush.Grows s.shape.colors s.count brush')
include h

theorem family_withBrush : (s.withBrush brush').family = s.family := by
  obtain ⟨families, shape, brush, start, count⟩ := s
  cases h with
  | fill hcolor => exact FamilySet.selectColor_congr hcolor.length.1 hcolor.length.2
  | tint hcolor _ => exact FamilySet.selectColor_congr hcolor.length.1 hcolor.length.2
  | overlay _ _ => rfl
  | masked _ _ => rfl

theorem goal_withBrush (b : Nat) : (s.withBrush brush').goal b = s.goal b :=
  h.goal_eq _ _

theorem Holds.withBrush {row : List UInt8} (hholds : s.Holds row) :
    (s.withBrush brush').Holds row := by
  refine ⟨hholds.1, ?_⟩
  have hheld := h.held_le
  rw [Nat.min_eq_left hholds.2] at hheld
  exact Nat.le_trans hheld (Nat.min_le_right _ _)

/-- No byte is drawn less: no pixel gets out of reach, and none has less of a share. -/
theorem pull_le_withBrush (row : List UInt8) (b : Nat) :
    0 ≤ s.pull row b ∧ s.pull row b ≤ (s.withBrush brush').pull row b ∧
      (s.withBrush brush').pull row b ≤ Weight.full := by
  have hheld := h.held_le
  have hshare := s.brush.share_nonneg s.shape.colors ((b - s.start) / s.shape.size)
  have hshare' := brush'.share_nonneg s.shape.colors ((b - s.start) / s.shape.size)
  have hfull := brush'.share_le_full s.shape.colors ((b - s.start) / s.shape.size)
  have hle (hi : (b - s.start) / s.shape.size < s.count) := h.share_le hi
  have hpos : 0 ≤ Weight.full := by decide
  -- within reach of the first brush is within reach of the second; out of reach nothing is drawn
  simp only [pull, reach, withBrush, Nat.lt_min] at *
  split <;> split <;> omega

/-- The same stroke of two brushes without source alpha, where the second has more coverage, a
deeper colour or a denser layer. Each sample goes from its old value toward the one of the colour
or the source, or toward 255 for an alpha; with the second brush it goes at least as far, never
back and never too far. On a row that holds all pixels both strokes get through. -/
theorem more_coverage_never_overshoots (row : List UInt8) :
    (∀ f paint, s.painter = .ok (f, paint) → s.shape.colors < sizeMax → s.start ≤ row.length →
      s.Holds (row.drop s.start) →
      ∃ near far, s.paint row = .ok (f, near) ∧ (s.withBrush brush').paint row = .ok (f, far)) ∧
    ∀ f g near far, s.paint row = .ok (f, near) → (s.withBrush brush').paint row = .ok (g, far) →
      ∀ b old, row[b]? = some old → ∃ r r', near[b]? = some r ∧ far[b]? = some r' ∧
        Sample.OnTheWay old r r' (s.goal b) := by
  constructor
  · intro f paint hpainter hsize hstart hholds
    have hfamily := (painter_eq_ok_iff.mp hpainter).1
    obtain ⟨near, hnear⟩ := exists_paint hsize hfamily hstart hholds
    obtain ⟨far, hfar⟩ := exists_paint (s := s.withBrush brush') hsize
      ((family_withBrush h).trans hfamily) hstart (Holds.withBrush h hholds)
    exact ⟨near, far, hnear, hfar⟩
  · intro f g near far hnear hfar b old hold
    have hfar' := getElem?_paint (s := s.withBrush brush') h.plain_right hfar hold
    rw [goal_withBrush h] at hfar'
    obtain ⟨hpull, hle, hfull⟩ := pull_le_withBrush h row b
    exact ⟨_, _, getElem?_paint h.plain_left hnear hold, hfar',
      Sample.onTheWay_lerp _ old hpull hle hfull⟩

end Grown

theorem more_coverage_never_overshoots_gray :
    let s : Stroke := ⟨.all, ⟨1, true⟩, .tint [50, 128] [0, 90], 0, 2⟩
    let deep : Brush := .tint [50, 200] [10, 90]
    let row : List UInt8 := [200, 30, 200, 30]
    s.brush.Grows 1 2 deep ∧
    ∃ near far, s.paint row = .ok (.gray, near) ∧ (s.withBrush deep).paint row = .ok (.gray, far) ∧
      (∃ r r', near[2]? = some r ∧ far[2]? = some r' ∧ Sample.OnTheWay 200 r r' 50) ∧
      ∃ r r', near[3]? = some r ∧ far[3]? = some r' ∧ Sample.OnTheWay 30 r r' 255 := by
  intro s deep row
  have hgrows : s.brush.Grows s.shape.colors s.count deep :=
    .tint ⟨rfl, by decide, by decide⟩ ⟨by decide, by decide⟩
  obtain ⟨htotal, hway⟩ := more_coverage_never_overshoots hgrows row
  obtain ⟨near, far, hnear, hfar⟩ :=
    htotal .gray (s.paintIn .gray) rfl (by decide) (by decide) (by decide)
  have hgray : s.goal 2 = 50 := by decide
  have halpha : s.goal 3 = 255 := by decide
  have hsample := hway _ _ near far hnear hfar
  exact ⟨hgrows, near, far, hnear, hfar, hgray ▸ hsample 2 200 rfl, halpha ▸ hsample 3 30 rfl⟩

end Stroke

end Scanline
