import Scanline.Proofs.Pixmap.Refusals
import Scanline.Proofs.Scene.Run
/-! Refusals in full: which calls are refused, for what, and that a refused step is as good as
never made. -/
namespace Scanline.Scene

open Pixmap

theorem apply_of_result {s : Scene} {step : Step} {failure : Failure}
    (h : s.result step = .error failure) : s.apply step = .error failure := by
  unfold result at h
  cases happly : s.apply step with
  | error other =>
    rw [happly] at h
    cases h
    rfl
  | ok t =>
    rw [happly] at h
    cases h

/-- Refusals are exact and come in order. A call on pixmaps that pass their check is refused for the
first of its objections that holds, and succeeds where none does. Where there is nothing to paint,
or only a colour without opacity, it leaves its pixmap as it is. A step that is refused leaves the
scene to the steps behind it as though it had not been made. That a refused call has not begun to
paint is part of how results are modelled: a refusal carries no pixmap. -/
theorem refusals_in_order {families : FamilySet} {dst src : Pixmap} (hdst : dst.check = .ok ())
    (hsrc : src.check = .ok ()) :
    (∀ layer clip, Answers (overlayObjections families dst.layout src.layout clip)
      (fun out => ¬ Rect.Common dst.bounds src.bounds clip → out = dst)
      (overlay families dst src layer clip)) ∧
    (∀ mask : Pixmap, mask.check = .ok () →
      Answers (throughObjections families dst.layout src.layout mask.layout)
        (fun out => ¬ Rect.Common dst.bounds src.bounds mask.bounds → out = dst)
        (overlayThrough families dst src mask)) ∧
    (∀ glyph color x y, ∀ window : Window,
      dst.samples.length < sizeMax → window.InDevice x y →
      Answers (stampObjections families dst.layout glyph color x y window)
        (fun out => (window.region x y).IsEmpty ∨
          dst.layout.colors ≠ 0 ∧ color[dst.layout.colors]? = some 0 → out = dst)
        (stamp families dst glyph color x y window)) ∧
    ∀ (s : Scene) step refusal, s.result step = .error (.refused refusal) →
      ∀ steps, s.run (step :: steps) =
        (.error (.refused refusal) :: (s.run steps).1, (s.run steps).2) := by
  refine ⟨?_, ?_, ?_, ?_⟩
  · intro layer clip
    exact (overlay_answers hdst hsrc layer clip).mono fun _ hpainted => hpainted.eq_of_not_common
  · intro mask hmask
    exact (overlayThrough_answers hdst hsrc hmask).mono
      fun _ hpainted => hpainted.eq_of_not_common
  · intro glyph color x y window hbuffer hdevice
    refine (stamp_answers hdst hbuffer hdevice).mono ?_
    rintro out hpainted (hempty | ⟨hcolors, halpha⟩)
    · refine hpainted.eq_of_idle fun a b _ _ hmem => ?_
      exact absurd hmem (Rect.not_mem_of_isEmpty hempty _)
    · refine hpainted.eq_of_idle fun a b old new _ hold hrule => ?_
      have hlength := length_of_pixel hold
      rw [← Layout.shape_size (Layout.serves_of_check hdst).channels_pos] at hlength
      exact hrule.trans (Shape.stamped_clear hcolors halpha _ hlength)
  · intro s step refusal hrefused steps
    exact run_of_refused steps (apply_of_result hrefused)

def study : Scene := .ofLists [("page", grayPage), ("patch", grayPatch)] []

/-- No family is enabled for gray here. -/
theorem refusals_in_order_study :
    grayPage.check = .ok () ∧ grayPatch.check = .ok () ∧
    overlay .bare grayPage grayPatch 128 .everywhere = .error (.refused (.unserved .overlay 1)) ∧
    (∃ out, overlay .bare grayPage grayPatch 128 ⟨0, 0, 1, 2⟩ = .ok out ∧ out = grayPage) ∧
    overlayThrough .bare grayPage grayPatch stencil = .error (.refused (.channelMismatch 2 1)) ∧
    stamp .bare grayPage solidPair [200] 0 0 ⟨2, 1, 0, 0⟩ =
      .error (.refused (.colorLength 2 1)) ∧
    study.run [⟨.bare, "page", .overlay "patch" 128 .everywhere⟩] =
      ([.error (.refused (.unserved .overlay 1))], study) := by
  obtain ⟨hoverlay, hthrough, hstamp, hrun⟩ :=
    @refusals_in_order .bare grayPage grayPatch rfl rfl
  refine ⟨rfl, rfl, ?_, ?_, ?_, ?_, hrun study _ _ rfl []⟩
  · refine ((hoverlay 128 .everywhere).refused _).mpr (Or.inr ⟨by decide, Or.inl ⟨?_, rfl⟩⟩)
    exact ⟨by decide, rfl⟩
  · have hapart : ¬ Rect.Common grayPage.bounds grayPatch.bounds ⟨0, 0, 1, 2⟩ := by decide
    obtain ⟨out, hout, hsame⟩ := (hoverlay 128 ⟨0, 0, 1, 2⟩).served
      (List.forall_mem_cons.mpr ⟨by decide, List.forall_mem_singleton.mpr fun h => hapart h.1⟩)
    exact ⟨out, hout, hsame hapart⟩
  · exact ((hthrough stencil rfl).refused _).mpr (Or.inl ⟨by decide, rfl⟩)
  · have hdevice : Window.InDevice ⟨2, 1, 0, 0⟩ 0 0 := ⟨by decide, by decide, by decide, by decide⟩
    refine ((hstamp solidPair [200] 0 0 ⟨2, 1, 0, 0⟩ (by decide) hdevice).refused _).mpr ?_
    exact Or.inr ⟨by decide, Or.inr ⟨by decide, Or.inl ⟨by decide, rfl⟩⟩⟩

end Scanline.Scene
