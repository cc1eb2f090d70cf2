import Scanline.Proofs.Pixmap.Refusals
/-! Pictures. A pixmap shows a picture, and it could show the same one with other bytes: with rows
further apart, with anything in the bytes that belong to no pixel, or in another place of device
space. Overlays only see the pictures, and where these lie relative to each other. -/
namespace Scanline

structure Layout.Whole (l : Layout) : Prop where
  right : l.x + l.width ≤ coordMax
  bottom : l.y + l.height ≤ coordMax

instance (l : Layout) : Decidable l.Whole :=
  decidable_of_iff (l.x + l.width ≤ coordMax ∧ l.y + l.height ≤ coordMax)
    ⟨fun ⟨hright, hbottom⟩ => ⟨hright, hbottom⟩, fun h => ⟨h.right, h.bottom⟩⟩

theorem Layout.Whole.bounds {l : Layout} (h : l.Whole) :
    l.bounds = ⟨l.x, l.y, l.x + l.width, l.y + l.height⟩ := by
  obtain ⟨hright, hbottom⟩ := h
  rw [Layout.bounds, Rect.ofSize, Int.min_eq_left hright, Int.min_eq_left hbottom]

theorem Layout.Whole.mem {l : Layout} (h : l.Whole) {i j : Nat} (hi : i < l.width)
    (hj : j < l.height) : (l.x + i, l.y + j) ∈ l.bounds := by
  rw [h.bounds, Rect.mem_iff]
  dsimp only
  omega

def Layout.Spare (l : Layout) (b : Nat) : Prop := ∀ x y, ¬ l.Owns x y b

namespace Pixmap

structure SamePicture (dx dy : Int) (p q : Pixmap) : Prop where
  x : q.layout.x = p.layout.x + dx
  y : q.layout.y = p.layout.y + dy
  width : q.layout.width = p.layout.width
  height : q.layout.height = p.layout.height
  channels : q.layout.channels = p.layout.channels
  hasAlpha : q.layout.hasAlpha = p.layout.hasAlpha
  pixel : ∀ i < p.layout.width, ∀ j < p.layout.height,
    q.pixel (q.layout.x + i) (q.layout.y + j) = p.pixel (p.layout.x + i) (p.layout.y + j)

/-- Two pixmaps that pass their check and show the same picture, both in places where no edge stops
early. -/
structure Redrawn (dx dy : Int) (p q : Pixmap) : Prop where
  picture : SamePicture dx dy p q
  check : p.check = .ok ()
  check' : q.check = .ok ()
  whole : p.layout.Whole
  whole' : q.layout.Whole

instance (dx dy : Int) (p q : Pixmap) : Decidable (SamePicture dx dy p q) :=
  decidable_of_iff (_ ∧ _ ∧ _ ∧ _ ∧ _ ∧ _ ∧ _)
    ⟨fun ⟨hx, hy, hwidth, hheight, hchannels, halpha, hpixel⟩ =>
      ⟨hx, hy, hwidth, hheight, hchannels, halpha, hpixel⟩,
    fun h => ⟨h.x, h.y, h.width, h.height, h.channels, h.hasAlpha, h.pixel⟩⟩

instance (dx dy : Int) (p q : Pixmap) : Decidable (Redrawn dx dy p q) :=
  decidable_of_iff (SamePicture dx dy p q ∧ p.check = .ok () ∧ q.check = .ok () ∧
      p.layout.Whole ∧ q.layout.Whole)
    ⟨fun ⟨hpicture, hcheck, hcheck', hwhole, hwhole'⟩ =>
      ⟨hpicture, hcheck, hcheck', hwhole, hwhole'⟩,
    fun h => ⟨h.picture, h.check, h.check', h.whole, h.whole'⟩⟩

/-- How two calls end that do the same on pixmaps with the same picture: both with the same
refusal, or both with the same picture and without a trace in the spare bytes. -/
inductive SameEnd (dx dy : Int) (dst dst' : Pixmap) :
    Except Failure Pixmap → Except Failure Pixmap → Prop
  | refused (refusal : Refusal) :
      SameEnd dx dy dst dst' (.error (.refused refusal)) (.error (.refused refusal))
  | painted {out out' : Pixmap} (alike : dst.Alike out) (alike' : dst'.Alike out')
      (picture : SamePicture dx dy out out')
      (spare : ∀ b, dst'.layout.Spare b → out'.samples[b]? = dst'.samples[b]?) :
      SameEnd dx dy dst dst' (.ok out) (.ok out')

section Picture

variable {dx dy : Int} {p q out out' : Pixmap} {x y : Int}

theorem SamePicture.colors (h : SamePicture dx dy p q) : q.layout.colors = p.layout.colors := by
  rw [Layout.colors, Layout.colors, h.channels, h.hasAlpha]

theorem SamePicture.shape (h : SamePicture dx dy p q) : q.layout.shape = p.layout.shape := by
  rw [Layout.shape, Layout.shape, h.colors, h.hasAlpha]

theorem Redrawn.bounds (h : Redrawn dx dy p q) : q.layout.bounds = p.layout.bounds.shift dx dy := by
  obtain ⟨hpicture, -, -, hwhole, hwhole'⟩ := h
  rw [hwhole.bounds, hwhole'.bounds, hpicture.x, hpicture.y, hpicture.width, hpicture.height,
    Rect.shift, Rect.mk.injEq]
  dsimp only
  omega

theorem Redrawn.mem_bounds (h : Redrawn dx dy p q) :
    (x + dx, y + dy) ∈ q.bounds ↔ (x, y) ∈ p.bounds := by
  rw [Pixmap.bounds, h.bounds, Rect.mem_shift]
  rfl

theorem Redrawn.pixel (h : Redrawn dx dy p q) (hmem : (x, y) ∈ p.bounds) :
    q.pixel (x + dx) (y + dy) = p.pixel x y := by
  obtain ⟨i, hi, j, hj, rfl, rfl⟩ := Layout.mem_bounds hmem
  rw [← h.picture.pixel i hi j hj, h.picture.x, h.picture.y, Int.add_right_comm,
    Int.add_right_comm p.layout.y]

theorem Redrawn.picture_of_pixels (h : Redrawn dx dy p q) (halike : p.Alike out)
    (halike' : q.Alike out')
    (hpixel : ∀ x y, (x, y) ∈ p.bounds → out'.pixel (x + dx) (y + dy) = out.pixel x y) :
    SamePicture dx dy out out' := by
  obtain ⟨hx, hy, hwidth, hheight, hchannels, halpha, -⟩ := h.picture
  rw [← halike.layout, ← halike'.layout] at hx hy hwidth hheight hchannels halpha
  refine ⟨hx, hy, hwidth, hheight, hchannels, halpha, ?_⟩
  intro i hi j hj
  rw [halike.layout] at hi hj
  rw [hx, hy, Int.add_right_comm, Int.add_right_comm out.layout.y, halike.layout]
  exact hpixel _ _ (h.whole.mem hi hj)

theorem Redrawn.painted {area area' : Rect}
    {rule rule' : Int → Int → List UInt8 → List UInt8 → Prop} (h : Redrawn dx dy p q)
    (hout : RegionPainted p out area rule) (hout' : RegionPainted q out' area' rule')
    (harea : ∀ x y, (x + dx, y + dy) ∈ area' ↔ (x, y) ∈ area)
    (hrule : ∀ x y old new new', (x, y) ∈ area → rule x y old new →
      rule' (x + dx) (y + dy) old new' → new' = new) :
    SameEnd dx dy p q (.ok out) (.ok out') := by
  refine .painted hout.alike hout'.alike ?_ fun b hb => hout'.outside b fun x y _ => hb x y
  apply h.picture_of_pixels hout.alike hout'.alike
  intro x y hbounds
  by_cases hinside : (x, y) ∈ area
  · obtain ⟨old, new, hold, hnew, hpaint⟩ := hout.inside x y hinside
    obtain ⟨old', new', hold', hnew', hpaint'⟩ := hout'.inside _ _ ((harea x y).mpr hinside)
    rw [h.pixel hbounds, hold] at hold'
    cases hold'
    rw [hnew, hnew', hrule x y old new new' hinside hpaint hpaint']
  · rw [hout.pixel_outside h.check hinside,
      hout'.pixel_outside h.check' (mt (harea x y).mp hinside)]
    exact h.pixel hbounds

/-- Calls with the same objections end in the same way, if what they paint is the same. -/
theorem SameEnd.of_answers {os : List Objection} {good good' : Pixmap → Prop}
    {result result' : Except Failure Pixmap} (h : Answers os good result)
    (h' : Answers os good' result')
    (hgood : ∀ out out', good out → good' out' → SameEnd dx dy p q (.ok out) (.ok out')) :
    SameEnd dx dy p q result result' := by
  rcases firstOf_or_none os with ⟨refusal, hfirst⟩ | hnone
  · rw [(h.refused refusal).mpr hfirst, (h'.refused refusal).mpr hfirst]
    exact .refused refusal
  · obtain ⟨out, hout, hpainted⟩ := h.served hnone
    obtain ⟨out', hout', hpainted'⟩ := h'.served hnone
    rw [hout, hout']
    exact hgood out out' hpainted hpainted'

end Picture

section Overlays

variable {dx dy : Int} {dst dst' src src' mask mask' : Pixmap} {families : FamilySet}
  {layer : UInt8} {clip : Rect} {x y : Int} {old new : List UInt8}

theorem Redrawn.layered (h : Redrawn dx dy src src') (hmem : (x, y) ∈ src.bounds) :
    Layered src' layer (x + dx) (y + dy) old new ↔ Layered src layer x y old new := by
  rw [Layered, Layered, h.pixel hmem, h.picture.shape]

theorem Redrawn.covered (h : Redrawn dx dy src src') (hmask : Redrawn dx dy mask mask')
    (hmem : (x, y) ∈ src.bounds) (hmem' : (x, y) ∈ mask.bounds) :
    Covered src' mask' (x + dx) (y + dy) old new ↔ Covered src mask x y old new := by
  rw [Covered, Covered, h.pixel hmem, hmask.pixel hmem', h.picture.shape]

theorem overlayObjections_redrawn (hdst : Redrawn dx dy dst dst') (hsrc : Redrawn dx dy src src')
    (families : FamilySet) (clip : Rect) :
    overlayObjections families dst'.layout src'.layout (clip.shift dx dy) =
      overlayObjections families dst.layout src.layout clip := by
  simp only [overlayObjections, hdst.picture.colors, hsrc.picture.colors, hdst.bounds, hsrc.bounds,
    Rect.common_shift]

theorem throughObjections_redrawn (hdst : Redrawn dx dy dst dst') (hsrc : Redrawn dx dy src src')
    (hmask : Redrawn dx dy mask mask') (families : FamilySet) :
    throughObjections families dst'.layout src'.layout mask'.layout =
      throughObjections families dst.layout src.layout mask.layout := by
  simp only [throughObjections, hdst.picture.colors, hsrc.picture.colors, hdst.bounds, hsrc.bounds,
    hmask.bounds, Rect.common_shift, hdst.picture.channels, hsrc.picture.channels,
    hmask.picture.channels, hdst.picture.hasAlpha, hsrc.picture.hasAlpha]

theorem overlay_redrawn (hdst : Redrawn dx dy dst dst') (hsrc : Redrawn dx dy src src')
    (families : FamilySet) (layer : UInt8) (clip : Rect) :
    SameEnd dx dy dst dst' (overlay families dst src layer clip)
      (overlay families dst' src' layer (clip.shift dx dy)) := by
  have hanswers := @overlay_answers families dst src hdst.check hsrc.check layer clip
  have hanswers' :=
    @overlay_answers families dst' src' hdst.check' hsrc.check' layer (clip.shift dx dy)
  rw [overlayObjections_redrawn hdst hsrc] at hanswers'
  refine .of_answers hanswers hanswers' ?_
  intro out out' hpainted hpainted'
  refine hdst.painted hpainted hpainted' ?_ ?_
  · intro x y
    rw [Rect.mem_inter_inter, Rect.mem_inter_inter, hdst.mem_bounds, hsrc.mem_bounds,
      Rect.mem_shift]
  · intro x y old new new' hmem hrule hrule'
    have hsource := (Rect.mem_inter_inter.mp hmem).2.1
    exact ((hsrc.layered hsource).mp hrule').unique hrule

theorem overlayThrough_redrawn (hdst : Redrawn dx dy dst dst') (hsrc : Redrawn dx dy src src')
    (hmask : Redrawn dx dy mask mask') (families : FamilySet) :
    SameEnd dx dy dst dst' (overlayThrough families dst src mask)
      (overlayThrough families dst' src' mask') := by
  have hanswers :=
    @overlayThrough_answers families dst src mask hdst.check hsrc.check hmask.check
  have hanswers' :=
    @overlayThrough_answers families dst' src' mask' hdst.check' hsrc.check' hmask.check'
  rw [throughObjections_redrawn hdst hsrc hmask] at hanswers'
  refine .of_answers hanswers hanswers' ?_
  intro out out' hpainted hpainted'
  refine hdst.painted hpainted hpainted' ?_ ?_
  · intro x y
    rw [Rect.mem_inter_inter, Rect.mem_inter_inter, hdst.mem_bounds, hsrc.mem_bounds,
      hmask.mem_bounds]
  · intro x y old new new' hmem hrule hrule'
    obtain ⟨-, hsource, hcover⟩ := Rect.mem_inter_inter.mp hmem
    exact ((hsrc.covered hmask hsource hcover).mp hrule').unique hrule

/-- Overlays depend on the pictures of their operands and on nothing else. With the same pictures,
all moved by `(dx, dy)` with the clip, but with any other strides and any other spare bytes, a call
ends with the same refusal or the same picture, and does not touch the spare bytes. -/
theorem overlays_see_pictures (hdst : Redrawn dx dy dst dst') (hsrc : Redrawn dx dy src src') :
    (∀ families layer clip, SameEnd dx dy dst dst' (overlay families dst src layer clip)
      (overlay families dst' src' layer (clip.shift dx dy))) ∧
    ∀ families mask mask', Redrawn dx dy mask mask' →
      SameEnd dx dy dst dst' (overlayThrough families dst src mask)
        (overlayThrough families dst' src' mask') :=
  ⟨fun families layer clip => overlay_redrawn hdst hsrc families layer clip,
    fun families _ _ hmask => overlayThrough_redrawn hdst hsrc hmask families⟩

/-- `paper` in rows without spare bytes, five to the right and three up. -/
def paperCopy : Pixmap := ⟨.tight 5 (-3) 2 2 2 true, [10, 20, 30, 40, 50, 60, 70, 80]⟩

def inkCopy : Pixmap := ⟨⟨5, -2, 2, 1, 2, true, 6⟩, [90, 100, 110, 255, 1, 2, 3]⟩

def stencilCopy : Pixmap := ⟨⟨6, -4, 2, 3, 1, false, 3⟩, [0, 0, 9, 0, 0, 9, 128, 255]⟩

theorem overlays_see_pictures_copies :
    Redrawn 5 (-3) paper paperCopy ∧ Redrawn 5 (-3) ink inkCopy ∧
    Redrawn 5 (-3) stencil stencilCopy ∧
    SameEnd 5 (-3) paper paperCopy (overlay .bare paper ink 128 ⟨1, 0, 2, 2⟩)
      (overlay .bare paperCopy inkCopy 128 ⟨6, -3, 7, -1⟩) ∧
    ∃ out out', overlayThrough .all paper ink stencil = .ok out ∧
      overlayThrough .all paperCopy inkCopy stencilCopy = .ok out' ∧
      SamePicture 5 (-3) out out' := by
  have hpaper : Redrawn 5 (-3) paper paperCopy := by decide
  have hink : Redrawn 5 (-3) ink inkCopy := by decide
  have hstencil : Redrawn 5 (-3) stencil stencilCopy := by decide
  obtain ⟨hoverlay, hthrough⟩ := overlays_see_pictures hpaper hink
  refine ⟨hpaper, hink, hstencil, hoverlay .bare 128 ⟨1, 0, 2, 2⟩, ?_⟩
  have hout : overlayThrough .all paper ink stencil =
      .ok ⟨paper.layout, [10, 20, 30, 40, 7, 50, 60, 89, 167]⟩ := by with_unfolding_all rfl
  have hsame := hthrough .all stencil stencilCopy hstencil
  rw [hout] at hsame
  generalize overlayThrough .all paperCopy inkCopy stencilCopy = result at hsame ⊢
  cases hsame with
  | painted _ _ picture _ => exact ⟨_, _, hout, rfl, picture⟩

end Overlays

end Pixmap

end Scanline
