import Scanline.Proofs.Pixmap.Refusals
import Scanline.Proofs.Pixmap.StampTiles
/-! How calls end. Whether a call is refused is a matter of layouts, of the colour and of the
families. The samples of the pixmap that it paints do not count, so a call ends alike on all
pixmaps of one layout. -/
namespace Scanline.Pixmap

/-- On all pixmaps like `p` a call is refused, or on all of them it paints its patch. -/
inductive Settled (p : Pixmap) (patch : Patch) (call : Pixmap → Except Failure Pixmap) : Prop where
  | refused (refusal : Refusal) (h : ∀ q, p.Alike q → call q = .error (.refused refusal))
  | painted (h : ∀ q, p.Alike q →
      ∃ out, call q = .ok out ∧ RegionPainted q out patch.area patch.rule)

namespace Settled

variable {p : Pixmap} {patch : Patch} {call call' : Pixmap → Except Failure Pixmap}

theorem congr (h : Settled p patch call) (hcall : ∀ q, p.Alike q → call' q = call q) :
    Settled p patch call' := by
  cases h with
  | refused refusal h => exact .refused refusal fun q hq => (hcall q hq).trans (h q hq)
  | painted h =>
    refine .painted ?_
    intro q hq
    obtain ⟨out, hout, hpainted⟩ := h q hq
    exact ⟨out, (hcall q hq).trans hout, hpainted⟩

theorem of_answers (os : List Objection) (hp : p.check = .ok ())
    (h : ∀ samples, samples.length = p.samples.length → check { p with samples } = .ok () →
      Answers os (fun out => RegionPainted { p with samples } out patch.area patch.rule)
        (call { p with samples })) : Settled p patch call := by
  have hanswers : ∀ q, p.Alike q →
      Answers os (fun out => RegionPainted q out patch.area patch.rule) (call q) := by
    intro q hq
    have hsize := hq.size
    have hcheck := hq.check hp
    obtain ⟨samples, rfl⟩ := hq.exists_samples
    exact h samples hsize hcheck
  rcases firstOf_or_none os with ⟨refusal, hfirst⟩ | hnone
  · exact .refused refusal fun q hq => ((hanswers q hq).refused refusal).mpr hfirst
  · exact .painted fun q hq => (hanswers q hq).served hnone

end Settled

def overlayPatch (dst src : Pixmap) (layer : UInt8) (clip : Rect) : Patch where
  area := (dst.bounds.inter src.bounds).inter clip
  rule := Layered src layer
  unique := Layered.unique

def throughPatch (dst src mask : Pixmap) : Patch where
  area := (dst.bounds.inter src.bounds).inter mask.bounds
  rule := Covered src mask
  unique := Covered.unique

variable (families : FamilySet) {dst src mask : Pixmap}

theorem overlay_settled (hdst : dst.check = .ok ()) (hsrc : src.check = .ok ()) (layer : UInt8)
    (clip : Rect) :
    Settled dst (overlayPatch dst src layer clip)
      fun q => overlay families q src layer clip :=
  .of_answers (overlayObjections families dst.layout src.layout clip) hdst
    fun _ _ hcheck => overlay_answers hcheck hsrc layer clip

theorem overlayThrough_settled (hdst : dst.check = .ok ()) (hsrc : src.check = .ok ())
    (hmask : mask.check = .ok ()) :
    Settled dst (throughPatch dst src mask) fun q => overlayThrough families q src mask :=
  .of_answers (throughObjections families dst.layout src.layout mask.layout) hdst
    fun _ _ hcheck => overlayThrough_answers hcheck hsrc hmask

theorem stamp_settled (glyph : Glyph) (color : List UInt8) {place : Placement}
    (hdst : dst.check = .ok ()) (hbuffer : dst.samples.length < sizeMax)
    (hdevice : place.InDevice) :
    Settled dst (stampPatch dst.layout glyph color place)
      fun q => stamp families q glyph color place.x place.y place.window :=
  .of_answers (stampObjections families dst.layout glyph color place.x place.y place.window) hdst
    fun _ hsize hcheck => stamp_answers hcheck (hsize ▸ hbuffer) hdevice

end Scanline.Pixmap
