import Scanline.Proofs.Pixmap.Overlay
import Scanline.Proofs.Pixmap.OverlayThrough
import Scanline.Proofs.Pixmap.StampWindow
/-! What calls are refused for. A call makes its objections in a fixed order, and the first that
holds is its answer; where none holds, the call succeeds. All objections are to layouts, to the
colour and to the families, and none to samples. -/
namespace Scanline

structure Objection where
  holds : Prop
  refusal : Refusal

def FirstOf : List Objection → Refusal → Prop
  | [], _ => False
  | o :: os, refusal => o.holds ∧ o.refusal = refusal ∨ ¬ o.holds ∧ FirstOf os refusal

/-- A result of a call with these objections, which is `good` where there is none. There is no
third way to end. -/
structure Answers (os : List Objection) (good : Pixmap → Prop) (result : Except Failure Pixmap) :
    Prop where
  refused : ∀ refusal, result = .error (.refused refusal) ↔ FirstOf os refusal
  served : (∀ o ∈ os, ¬ o.holds) → ∃ out, result = .ok out ∧ good out

namespace Answers

variable {o : Objection} {os : List Objection} {good : Pixmap → Prop}
  {result : Except Failure Pixmap}

theorem nil (h : ∃ out, result = .ok out ∧ good out) : Answers [] good result := by
  obtain ⟨out, rfl, hgood⟩ := h
  constructor
  · intro refusal
    exact iff_of_false nofun id
  · intro _
    exact ⟨out, rfl, hgood⟩

theorem first (h : o.holds) (hresult : result = .error (.refused o.refusal)) :
    Answers (o :: os) good result := by
  subst hresult
  constructor
  · intro refusal
    constructor
    · intro hrefused
      cases hrefused
      exact Or.inl ⟨h, rfl⟩
    · rintro (⟨-, rfl⟩ | ⟨hnot, -⟩)
      · rfl
      · exact absurd h hnot
  · intro hnone
    exact absurd h (hnone o List.mem_cons_self)

theorem skip (h : ¬ o.holds) (hrest : Answers os good result) : Answers (o :: os) good result := by
  constructor
  · intro refusal
    rw [hrest.refused, FirstOf]
    constructor
    · exact fun hfirst => Or.inr ⟨h, hfirst⟩
    · rintro (⟨hholds, -⟩ | ⟨-, hfirst⟩)
      · exact absurd hholds h
      · exact hfirst
  · intro hnone
    exact hrest.served fun o' ho' => hnone o' (List.mem_cons_of_mem _ ho')

theorem mono {good' : Pixmap → Prop} (h : Answers os good result)
    (hgood : ∀ out, good out → good' out) : Answers os good' result := by
  refine ⟨h.refused, ?_⟩
  intro hnone
  obtain ⟨out, hout, hresult⟩ := h.served hnone
  exact ⟨out, hout, hgood out hresult⟩

end Answers

theorem firstOf_or_none (os : List Objection) :
    (∃ refusal, FirstOf os refusal) ∨ ∀ o ∈ os, ¬ o.holds := by
  induction os with
  | nil => exact Or.inr (List.forall_mem_nil _)
  | cons o os ih =>
    by_cases ho : o.holds
    · exact Or.inl ⟨o.refusal, Or.inl ⟨ho, rfl⟩⟩
    rcases ih with ⟨refusal, hfirst⟩ | hnone
    · exact Or.inl ⟨refusal, Or.inr ⟨ho, hfirst⟩⟩
    · exact Or.inr (List.forall_mem_cons.mpr ⟨ho, hnone⟩)

namespace Pixmap

def overlayObjections (families : FamilySet) (dst src : Layout) (clip : Rect) : List Objection :=
  [⟨dst.colors ≠ src.colors, .channelMismatch dst.colors src.colors⟩,
   ⟨Rect.Common dst.bounds src.bounds clip ∧ families.family? dst.colors = none,
    .unserved .overlay dst.colors⟩]

def throughObjections (families : FamilySet) (dst src mask : Layout) : List Objection :=
  [⟨dst.channels ≠ src.channels, .channelMismatch dst.channels src.channels⟩,
   ⟨dst.hasAlpha ≠ src.hasAlpha, .channelMismatch dst.colors src.colors⟩,
   ⟨mask.channels ≠ 1, .maskChannels mask.channels⟩,
   ⟨Rect.Common dst.bounds src.bounds mask.bounds ∧ families.family? dst.colors = none,
    .unserved .masked dst.colors⟩]

/-- The objections to a stamp. The last two are only made where there is something to colour. -/
def stampObjections (families : FamilySet) (dst : Layout) (glyph : Glyph) (color : List UInt8)
    (x y : Int) (window : Window) : List Objection :=
  let colorful := ¬ (window.region x y).IsEmpty ∧ dst.colors ≠ 0
  [⟨¬ window.Fits glyph, .badGlyph (.window window.width window.height window.skipX window.skipY
      glyph.width glyph.height)⟩,
   ⟨¬ dst.bounds.Covers (window.region x y), .badGlyph (.outside (window.region x y) dst.bounds)⟩,
   ⟨colorful ∧ color.length < dst.colors + 1, .colorLength (dst.colors + 1) color.length⟩,
   ⟨colorful ∧ families.family? dst.colors = none, .unserved .fill dst.colors⟩]

variable {families : FamilySet} {dst src mask : Pixmap} {glyph : Glyph} {color : List UInt8}
  {x y : Int} {window : Window}

/-- Where families are not objected to, there is nothing to paint or a family that paints it. -/
theorem isEmpty_or_supports {r s t : Rect} {colors : Nat}
    (h : ¬ (Rect.Common r s t ∧ families.family? colors = none)) :
    ((r.inter s).inter t).IsEmpty ∨ families.supports colors = true := by
  by_cases hempty : ((r.inter s).inter t).IsEmpty
  · exact Or.inl hempty
  · refine Or.inr (eq_true_of_ne_false fun hnone => h ⟨Rect.common_iff.mpr hempty, ?_⟩)
    exact FamilySet.supports_eq_false_iff.mp hnone

theorem RegionPainted.eq_of_not_common {out : Pixmap} {r s t : Rect}
    {Pixel : Int → Int → List UInt8 → List UInt8 → Prop}
    (h : RegionPainted dst out ((r.inter s).inter t) Pixel) (hcommon : ¬ Rect.Common r s t) :
    out = dst :=
  h.eq_of_idle fun _ _ _ _ hmem => absurd ⟨_, Rect.mem_inter_inter.mp hmem⟩ hcommon

theorem overlay_answers (hdst : dst.check = .ok ()) (hsrc : src.check = .ok ()) (layer : UInt8)
    (clip : Rect) :
    Answers (overlayObjections families dst.layout src.layout clip)
      (fun out => RegionPainted dst out ((dst.bounds.inter src.bounds).inter clip)
        (Layered src layer))
      (overlay families dst src layer clip) := by
  by_cases hcolors : dst.layout.colors = src.layout.colors
  case neg => exact .first hcolors (overlay_mismatched hcolors)
  refine .skip (not_not_intro hcolors) ?_
  by_cases hunserved : Rect.Common dst.bounds src.bounds clip ∧
      families.family? dst.layout.colors = none
  · exact .first hunserved (overlay_unserved hcolors (Rect.common_iff.mp hunserved.1)
      (FamilySet.supports_eq_false_iff.mpr hunserved.2))
  refine .skip hunserved (.nil ?_)
  rcases isEmpty_or_supports hunserved with hempty | hserved
  · exact ⟨dst, overlay_empty hcolors hempty, .of_isEmpty hempty⟩
  · exact overlay_painted hdst hsrc hcolors hserved layer clip

theorem overlayThrough_answers (hdst : dst.check = .ok ()) (hsrc : src.check = .ok ())
    (hmask : mask.check = .ok ()) :
    Answers (throughObjections families dst.layout src.layout mask.layout)
      (fun out => RegionPainted dst out ((dst.bounds.inter src.bounds).inter mask.bounds)
        (Covered src mask))
      (overlayThrough families dst src mask) := by
  by_cases hchannels : dst.layout.channels = src.layout.channels
  case neg => exact .first hchannels (overlayThrough_channels hchannels)
  refine .skip (not_not_intro hchannels) ?_
  by_cases halpha : dst.layout.hasAlpha = src.layout.hasAlpha
  case neg => exact .first halpha (overlayThrough_alpha hchannels halpha)
  refine .skip (not_not_intro halpha) ?_
  by_cases hone : mask.layout.channels = 1
  case neg => exact .first hone (overlayThrough_maskChannels hchannels halpha hone)
  refine .skip (not_not_intro hone) ?_
  have hmatch : Matching dst src mask := ⟨hchannels, halpha, hone⟩
  by_cases hunserved : Rect.Common dst.bounds src.bounds mask.bounds ∧
      families.family? dst.layout.colors = none
  · exact .first hunserved (overlayThrough_unserved hmatch (Rect.common_iff.mp hunserved.1)
      (FamilySet.supports_eq_false_iff.mpr hunserved.2))
  refine .skip hunserved (.nil ?_)
  rcases isEmpty_or_supports hunserved with hempty | hserved
  · exact ⟨dst, overlayThrough_empty hmatch hempty, .of_isEmpty hempty⟩
  · exact overlayThrough_painted hdst hsrc hmask hchannels halpha hone hserved

theorem stamp_answers (hdst : dst.check = .ok ()) (hbuffer : dst.samples.length < sizeMax)
    (hdevice : window.InDevice x y) :
    Answers (stampObjections families dst.layout glyph color x y window)
      (fun out => RegionPainted dst out (window.region x y)
        (Stamped dst.layout glyph color x y window))
      (stamp families dst glyph color x y window) := by
  by_cases hfits : window.Fits glyph
  case neg => exact .first hfits (stamp_unfit hfits)
  refine .skip (not_not_intro hfits) ?_
  by_cases hcovers : dst.bounds.Covers (window.region x y)
  case neg => exact .first hcovers (stamp_uncovered hfits hcovers)
  refine .skip (not_not_intro hcovers) ?_
  by_cases hcolorful : ¬ (window.region x y).IsEmpty ∧ dst.layout.colors ≠ 0
  case neg =>
    refine .skip (fun h => hcolorful h.1) (.skip (fun h => hcolorful h.1) (.nil ?_))
    exact stamp_painted hdst hdevice hfits hcovers fun hne hcolors =>
      absurd ⟨hne, hcolors⟩ hcolorful
  obtain ⟨hne, hcolors⟩ := hcolorful
  have hsize := colors_lt_of_covers hdst hbuffer hcovers hne
  have hends := @stamp_unserved families dst glyph color x y window hfits hcovers hne hcolors hsize
  by_cases hshort : color.length < dst.layout.colors + 1
  · exact .first ⟨⟨hne, hcolors⟩, hshort⟩ (hends.1 hshort)
  refine .skip (fun h => hshort h.2) ?_
  have hlong := Nat.le_of_not_lt hshort
  cases hserved : families.supports dst.layout.colors with
  | false =>
    exact .first ⟨⟨hne, hcolors⟩, FamilySet.supports_eq_false_iff.mp hserved⟩ (hends.2 hlong hserved)
  | true =>
    refine .skip (fun h => ?_) (.nil ?_)
    · rw [FamilySet.supports_eq_false_iff.mpr h.2] at hserved
      cases hserved
    · exact stamp_painted hdst hdevice hfits hcovers fun _ _ => ⟨hsize, hlong, hserved⟩

end Pixmap

end Scanline
