import Scanline.Proofs.Pixmap.Overlay
import Scanline.Proofs.Pixmap.OverlayThrough
import Scanline.Proofs.Pixmap.StampWindow
/-! The families that are enabled decide whether a pixmap is painted, and never how. All sets that
serve the colour samples of a call give one and the same answer, and all others refuse it. -/
namespace Scanline

namespace FamilySet

structure Within (s t : FamilySet) : Prop where
  gray : s.gray = true → t.gray = true
  rgb : s.rgb = true → t.rgb = true
  cmyk : s.cmyk = true → t.cmyk = true
  general : s.general = true → t.general = true

variable {s t : FamilySet} {colors : Nat}

theorem Within.special? (h : s.Within t) {f : Family} (hs : s.special? colors = some f) :
    t.special? colors = some f := by
  unfold FamilySet.special? at hs ⊢
  split at hs
  · split at hs
    · exact (if_pos (h.gray ‹_›)).trans hs
    · cases hs
  · split at hs
    · exact (if_pos (h.rgb ‹_›)).trans hs
    · cases hs
  · split at hs
    · exact (if_pos (h.cmyk ‹_›)).trans hs
    · cases hs
  · cases hs

theorem Within.supports (h : s.Within t) (hs : s.supports colors = true) :
    t.supports colors = true := by
  obtain ⟨f, hf⟩ := Option.isSome_iff_exists.mp hs
  rcases Nat.eq_zero_or_pos colors with rfl | hpos
  · rfl
  have hne : colors ≠ 0 := Nat.ne_of_gt hpos
  rw [FamilySet.supports, family?, if_neg hne, Option.isSome_or, Bool.or_eq_true]
  rcases family?_eq_general_or hpos hf with rfl | hspecial
  · right
    rw [family?, if_neg hne] at hf
    cases hs' : s.special? colors with
    | some g =>
      rw [hs', Option.some_or] at hf
      exact absurd (Option.some.inj hf) (special?_colorful hs').2
    | none =>
      rw [hs', Option.none_or] at hf
      split at hf
      · rw [if_pos (h.general ‹_›)]
        rfl
      · cases hf
  · left
    rw [h.special? hspecial]
    rfl

end FamilySet

/-- Families only decide whether this call is served: all sets that serve it get one answer, and
the others a refusal. -/
def Impartial {α : Type} (call : FamilySet → Except Failure α) : Prop :=
  (∀ s t, call s = call t) ∨
  ∃ kind colors,
    (∀ s t, s.supports colors = true → t.supports colors = true → call s = call t) ∧
    ∀ s, s.supports colors = false → call s = .error (.refused (.unserved kind colors))

def Unserved {α : Type} (result : Except Failure α) : Prop :=
  ∃ kind colors, result = .error (.refused (.unserved kind colors))

namespace Impartial

variable {α β : Type} {call : FamilySet → Except Failure α} {s t : FamilySet}

theorem eq (h : Impartial call) (hs : ¬ Unserved (call s)) (ht : ¬ Unserved (call t)) :
    call s = call t := by
  rcases h with hconst | ⟨kind, colors, hserved, hunserved⟩
  · exact hconst s t
  · have hsupports : ∀ u, ¬ Unserved (call u) → u.supports colors = true := by
      intro u hu
      exact Bool.not_eq_false _ |>.mp fun hnot => hu ⟨kind, colors, hunserved u hnot⟩
    exact hserved s t (hsupports s hs) (hsupports t ht)

/-- More families never take a result away. -/
theorem mono (h : Impartial call) (hst : s.Within t) {a : α} (hok : call s = .ok a) :
    call t = .ok a := by
  rcases h with hconst | ⟨kind, colors, hserved, hunserved⟩
  · exact (hconst t s).trans hok
  · have hsupports : s.supports colors = true := by
      apply Bool.not_eq_false _ |>.mp
      intro hnot
      cases (hunserved s hnot).symm.trans hok
    exact (hserved t s (hst.supports hsupports) hsupports).trans hok

theorem bind (h : Impartial call) (f : α → Except Failure β) :
    Impartial fun families => (call families).bind f := by
  rcases h with hconst | ⟨kind, colors, hserved, hunserved⟩
  · exact Or.inl fun s t => congrArg (Except.bind · f) (hconst s t)
  · refine Or.inr ⟨kind, colors, ?_, ?_⟩
    · exact fun s t hs ht => congrArg (Except.bind · f) (hserved s t hs ht)
    · exact fun s hs => congrArg (Except.bind · f) (hunserved s hs)

theorem after {x : Except Failure β} (h : ∀ b, x = .ok b → Impartial call) :
    Impartial fun families => x.bind fun _ => call families := by
  cases x with
  | error failure => exact Or.inl fun _ _ => rfl
  | ok b => exact h b rfl

end Impartial

namespace Pixmap

variable {dst src mask : Pixmap}

theorem overlay_impartial (hdst : dst.check = .ok ()) (hsrc : src.check = .ok ()) (layer : UInt8)
    (clip : Rect) : Impartial fun families => overlay families dst src layer clip := by
  by_cases hcolors : dst.layout.colors = src.layout.colors
  case neg =>
    exact Or.inl fun s t => (overlay_mismatched hcolors).trans (overlay_mismatched hcolors).symm
  by_cases hempty : ((dst.bounds.inter src.bounds).inter clip).IsEmpty
  · exact Or.inl fun s t =>
      (overlay_empty hcolors hempty).trans (overlay_empty hcolors hempty).symm
  · refine Or.inr ⟨.overlay, dst.layout.colors, ?_, ?_⟩
    · intro s t hs ht
      obtain ⟨out, hout, hpainted⟩ := overlay_painted hdst hsrc hcolors hs layer clip
      obtain ⟨out', hout', hpainted'⟩ := overlay_painted hdst hsrc hcolors ht layer clip
      obtain rfl := hpainted.unique hpainted' fun _ _ _ _ _ => Layered.unique
      exact hout.trans hout'.symm
    · exact fun s hs => overlay_unserved hcolors hempty hs

theorem overlayThrough_impartial (hdst : dst.check = .ok ()) (hsrc : src.check = .ok ())
    (hmask : mask.check = .ok ()) :
    Impartial fun families => overlayThrough families dst src mask := by
  by_cases hmatch : Matching dst src mask
  case neg =>
    obtain ⟨refusal, hrefused⟩ := overlayThrough_mismatched hmatch
    exact Or.inl fun s t => (hrefused s dst rfl).trans (hrefused t dst rfl).symm
  by_cases hempty : ((dst.bounds.inter src.bounds).inter mask.bounds).IsEmpty
  · exact Or.inl fun s t =>
      (overlayThrough_empty hmatch hempty).trans (overlayThrough_empty hmatch hempty).symm
  · obtain ⟨hchannels, halpha, hone⟩ := id hmatch
    refine Or.inr ⟨.masked, dst.layout.colors, ?_, ?_⟩
    · intro s t hs ht
      obtain ⟨out, hout, hpainted⟩ :=
        overlayThrough_painted hdst hsrc hmask hchannels halpha hone hs
      obtain ⟨out', hout', hpainted'⟩ :=
        overlayThrough_painted hdst hsrc hmask hchannels halpha hone ht
      obtain rfl := hpainted.unique hpainted' fun _ _ _ _ _ => Covered.unique
      exact hout.trans hout'.symm
    · exact fun s hs => overlayThrough_unserved hmatch hempty hs

section Stamp

variable {families : FamilySet} {glyph : Glyph} {color : List UInt8} {x y : Int} {window : Window}

theorem paintAll_families {shape : Shape} {f g : Family} (hf : f = .rgb → shape.colors = 3)
    (hg : g = .rgb → shape.colors = 3) (hsize : Row.Walkable shape.size)
    (hcolor : shape.colors < color.length) {spans : List Span} {row : List UInt8}
    (hrow : (spans.flatMap Span.bytes).length * shape.size ≤ row.length) :
    Span.paintAll ⟨f, shape, color⟩ ⟨f, shape, color⟩ shape.size spans row =
      Span.paintAll ⟨g, shape, color⟩ ⟨g, shape, color⟩ shape.size spans row := by
  have halpha := List.getElem?_eq_getElem hcolor
  have hleft := Span.paintAll_eq_zipPaint (p := ⟨f, shape, color⟩) hf hsize halpha hrow
  have hright := Span.paintAll_eq_zipPaint (p := ⟨g, shape, color⟩) hg hsize halpha hrow
  exact hleft.trans hright.symm

/-- The window need not have device coordinates here: rows that are painted are as long as the
window is wide, wherever they lie. -/
theorem stamp_served_alike (hdst : dst.check = .ok ()) (hfits : window.Fits glyph)
    (hcovers : dst.bounds.Covers (window.region x y)) (hne : ¬ (window.region x y).IsEmpty)
    (hcolors : dst.layout.colors ≠ 0) (hsize : dst.layout.colors < sizeMax)
    (hcolor : dst.layout.colors + 1 ≤ color.length) {s t : FamilySet}
    (hs : s.supports dst.layout.colors = true) (ht : t.supports dst.layout.colors = true) :
    stamp s dst glyph color x y window = stamp t dst glyph color x y window := by
  obtain ⟨f, hf⟩ := Option.isSome_iff_exists.mp hs
  obtain ⟨g, hg⟩ := Option.isSome_iff_exists.mp ht
  have hchannels := Layout.shape_size (Layout.serves_of_check hdst).channels_pos
  rw [stamp_colorful hfits hcovers hne hcolors hsize hcolor hf,
    stamp_colorful hfits hcovers hne hcolors hsize hcolor hg]
  congr 2
  apply editRows?_congr
  intro r _ row hrow
  rw [← hchannels] at hrow ⊢
  refine paintAll_families (FamilySet.family?_eq_rgb hf) (FamilySet.family?_eq_rgb hg)
    (walkable_of_covers hdst hcovers hne) hcolor ?_
  rw [hrow]
  exact Nat.mul_le_mul_right _ (glyph.length_window_le _ _ _)

theorem stamp_impartial (hdst : dst.check = .ok ()) (glyph : Glyph) (color : List UInt8)
    (x y : Int) (window : Window) :
    Impartial fun families => stamp families dst glyph color x y window := by
  by_cases hfits : window.Fits glyph
  case neg => exact Or.inl fun s t => (stamp_unfit hfits).trans (stamp_unfit hfits).symm
  by_cases hcovers : dst.bounds.Covers (window.region x y)
  case neg =>
    exact Or.inl fun s t => (stamp_uncovered hfits hcovers).trans (stamp_uncovered hfits hcovers).symm
  by_cases hne : (window.region x y).IsEmpty
  · exact Or.inl fun s t => (stamp_empty hfits hne).trans (stamp_empty hfits hne).symm
  by_cases hcolors : dst.layout.colors = 0
  · left
    intro s t
    simp only [stamp]
    rw [if_pos hcolors, if_pos hcolors]
  rcases Nat.lt_or_ge dst.layout.colors sizeMax with hsize | hhuge
  · rcases Nat.lt_or_ge color.length (dst.layout.colors + 1) with hshort | hcolor
    · left
      intro s t
      exact ((stamp_unserved hfits hcovers hne hcolors hsize).1 hshort).trans
        ((stamp_unserved hfits hcovers hne hcolors hsize).1 hshort).symm
    · refine Or.inr ⟨.fill, dst.layout.colors, ?_, ?_⟩
      · intro s t hs ht
        exact stamp_served_alike hdst hfits hcovers hne hcolors hsize hcolor hs ht
      · intro s hs
        exact (stamp_unserved hfits hcovers hne hcolors hsize).2 hcolor hs
  · -- no colour value can be long enough, whatever the families
    have hfill (s : FamilySet) : s.fillPainter dst.layout.shape color = .error (.faulted .oversize) :=
      FamilySet.fillPainter_eq_error (if_pos (Nat.lt_succ_of_le hhuge))
    left
    intro s t
    simp only [stamp]
    rw [hfill, hfill]

end Stamp

end Pixmap

end Scanline
