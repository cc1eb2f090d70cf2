import Mathlib.Data.List.Forall2
import Scanline.Proofs.Pixmap.Families
import Scanline.Proofs.Scene.Run
/-! Scenes under different sets of families. Where no step is refused for want of a family, a
sequence of steps returns and draws the same under all of them. -/
namespace Scanline

def Step.SameDrawing (a b : Step) : Prop := a.dst = b.dst ∧ a.drawing = b.drawing

namespace Scene

theorem draw_impartial (s : Scene) (dst : String) (drawing : Drawing) :
    Impartial fun families => s.draw ⟨families, dst, drawing⟩ := by
  cases drawing with
  | overlay src layer clip =>
    simp only [draw_overlay]
    exact Impartial.after fun _ hdst => Impartial.after fun _ hsrc =>
      Pixmap.overlay_impartial hdst hsrc layer clip
  | overlayThrough src mask =>
    simp only [draw_overlayThrough]
    exact Impartial.after fun _ hdst => Impartial.after fun _ hsrc => Impartial.after fun _ hmask =>
      Pixmap.overlayThrough_impartial hdst hsrc hmask
  | stamp glyph color x y window =>
    simp only [draw_stamp]
    exact Impartial.after fun _ hdst => Impartial.after fun _ _ =>
      Pixmap.stamp_impartial hdst _ color x y window

theorem apply_impartial (s : Scene) (dst : String) (drawing : Drawing) :
    Impartial fun families => s.apply ⟨families, dst, drawing⟩ := by
  simp only [apply_eq_bind]
  exact (s.draw_impartial dst drawing).bind _

theorem apply_sameDrawing {s : Scene} {a b : Step} (h : a.SameDrawing b)
    (ha : ¬ Unserved (s.apply a)) (hb : ¬ Unserved (s.apply b)) : s.apply a = s.apply b := by
  obtain ⟨families, dst, drawing⟩ := a
  obtain ⟨families', _, _⟩ := b
  obtain ⟨rfl, rfl⟩ := h
  exact (s.apply_impartial dst drawing).eq ha hb

theorem served_of_run_cons {s : Scene} {step : Step} {steps : List Step}
    (h : ∀ r ∈ (s.run (step :: steps)).1, ¬ Unserved r) : ¬ Unserved (s.apply step) := by
  rintro ⟨kind, colors, hunserved⟩
  rw [run_of_refused steps hunserved] at h
  exact h _ List.mem_cons_self ⟨kind, colors, rfl⟩

theorem run_sameDrawing {s : Scene} {steps steps' : List Step}
    (hsame : List.Forall₂ Step.SameDrawing steps steps')
    (hserved : ∀ r ∈ (s.run steps).1, ¬ Unserved r)
    (hserved' : ∀ r ∈ (s.run steps').1, ¬ Unserved r) (k : Nat) :
    s.run (steps.take k) = s.run (steps'.take k) := by
  induction hsame generalizing s k with
  | nil => rfl
  | @cons a b steps steps' hab _ ih =>
    cases k with
    | zero => rfl
    | succ k =>
      have happly := apply_sameDrawing hab (served_of_run_cons hserved) (served_of_run_cons hserved')
      rw [List.take_succ_cons, List.take_succ_cons]
      cases h : s.apply b with
      | ok t =>
        have ha := happly.trans h
        rw [run_of_ok _ ha] at hserved
        rw [run_of_ok _ h] at hserved'
        rw [run_of_ok _ ha, run_of_ok _ h,
          ih (fun r hr => hserved r (List.mem_cons_of_mem _ hr))
            (fun r hr => hserved' r (List.mem_cons_of_mem _ hr)) k]
      | error failure =>
        have ha := happly.trans h
        cases failure with
        | refused refusal =>
          rw [run_of_refused _ ha] at hserved
          rw [run_of_refused _ h] at hserved'
          rw [run_of_refused _ ha, run_of_refused _ h,
            ih (fun r hr => hserved r (List.mem_cons_of_mem _ hr))
              (fun r hr => hserved' r (List.mem_cons_of_mem _ hr)) k]
        | faulted fault => rw [run_of_faulted _ ha, run_of_faulted _ h]

/-- The families that are enabled never show in a scene. Two sequences that draw the same, under
any families and without a step that wants one, return the same and leave the same scene behind
each step; and what succeeds under some families succeeds alike under more. -/
theorem families_never_show {s : Scene} {steps steps' : List Step}
    (hsame : List.Forall₂ Step.SameDrawing steps steps')
    (hserved : ∀ r ∈ (s.run steps).1, ¬ Unserved r)
    (hserved' : ∀ r ∈ (s.run steps').1, ¬ Unserved r) :
    (∀ k, s.run (steps.take k) = s.run (steps'.take k)) ∧
    ∀ (t out : Scene) (step : Step) (families : FamilySet), t.apply step = .ok out →
      step.families.Within families → t.apply { step with families } = .ok out := by
  refine ⟨run_sameDrawing hsame hserved hserved', ?_⟩
  rintro t out ⟨enabled, dst, drawing⟩ families hout hmore
  exact (t.apply_impartial dst drawing).mono hmore hout

def sketch : Scene := .ofLists
  [("page", ⟨.tight 0 0 2 1 3 false, [10, 20, 30, 40, 50, 60]⟩),
   ("ink", ⟨.tight 1 0 1 1 3 false, [200, 100, 0]⟩)] [("dash", Pixmap.dash)]

def sketchSteps (families : FamilySet) : List Step :=
  [⟨families, "page", .overlay "ink" 128 .everywhere⟩,
   ⟨families, "page", .stamp "dash" [9, 8, 7, 128] 0 0 ⟨2, 1, 0, 0⟩⟩]

theorem families_never_show_sketch :
    List.Forall₂ Step.SameDrawing (sketchSteps .all) (sketchSteps .generalOnly) ∧
    (∀ r ∈ (sketch.run (sketchSteps .all)).1, ¬ Unserved r) ∧
    (∀ r ∈ (sketch.run (sketchSteps .generalOnly)).1, ¬ Unserved r) ∧
    sketch.run (sketchSteps .all) = sketch.run (sketchSteps .generalOnly) ∧
    FamilySet.Within .generalOnly .all ∧
    ∃ out, sketch.apply ⟨.generalOnly, "page", .overlay "ink" 128 .everywhere⟩ = .ok out ∧
      sketch.apply ⟨.all, "page", .overlay "ink" 128 .everywhere⟩ = .ok out := by
  have hsame : List.Forall₂ Step.SameDrawing (sketchSteps .all) (sketchSteps .generalOnly) :=
    .cons ⟨rfl, rfl⟩ (.cons ⟨rfl, rfl⟩ .nil)
  have hall : (sketch.run (sketchSteps .all)).1 = [.ok (), .ok ()] := by with_unfolding_all rfl
  have hgeneral : (sketch.run (sketchSteps .generalOnly)).1 = [.ok (), .ok ()] := by
    with_unfolding_all rfl
  have hok : ∀ r ∈ [Except.ok (), .ok ()], ¬ Unserved r := by
    intro r hr
    obtain rfl : r = .ok () := by simpa using hr
    rintro ⟨_, _, h⟩
    cases h
  have hmore : FamilySet.Within .generalOnly .all := ⟨nofun, nofun, nofun, fun _ => rfl⟩
  obtain ⟨out, hout⟩ : ∃ out, sketch.apply
      ⟨.generalOnly, "page", .overlay "ink" 128 .everywhere⟩ = .ok out :=
    ⟨_, by with_unfolding_all rfl⟩
  obtain ⟨hrun, hmono⟩ := families_never_show hsame (hall ▸ hok) (hgeneral ▸ hok)
  exact ⟨hsame, hall ▸ hok, hgeneral ▸ hok, hrun 2, hmore, out, hout, hmono _ _ _ _ hout hmore⟩

end Scene

end Scanline
