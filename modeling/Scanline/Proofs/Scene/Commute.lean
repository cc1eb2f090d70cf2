import Scanline.Proofs.Pixmap.Settled
import Scanline.Proofs.Scene.Run
/-! Steps on one pixmap that stay out of each other's way. Such a step ends as it would if it came
first, whatever the others have drawn by then, and draws the same. So they can be run in any
order. -/
namespace Scanline.Scene

def Ready (s : Scene) (name : String) (step : Step) : Prop :=
  step.dst = name ∧
  match step.drawing with
  | .overlay src _ _ => src ≠ name ∧ (s.pixmaps src).check = .ok ()
  | .overlayThrough src mask =>
    (src ≠ name ∧ (s.pixmaps src).check = .ok ()) ∧
      mask ≠ name ∧ (s.pixmaps mask).check = .ok ()
  | .stamp glyph _ x y window => (s.glyphs glyph).check = .ok () ∧ window.InDevice x y

def area (s : Scene) (step : Step) : Rect :=
  match step.drawing with
  | .overlay src _ clip => ((s.pixmaps step.dst).bounds.inter (s.pixmaps src).bounds).inter clip
  | .overlayThrough src mask =>
    ((s.pixmaps step.dst).bounds.inter (s.pixmaps src).bounds).inter (s.pixmaps mask).bounds
  | .stamp _ _ x y window => window.region x y

def patch (s : Scene) (step : Step) : Pixmap.Patch :=
  match step.drawing with
  | .overlay src layer clip => (s.pixmaps step.dst).overlayPatch (s.pixmaps src) layer clip
  | .overlayThrough src mask => (s.pixmaps step.dst).throughPatch (s.pixmaps src) (s.pixmaps mask)
  | .stamp glyph color x y window =>
    Pixmap.stampPatch (s.pixmaps step.dst).layout (s.glyphs glyph) color ⟨x, y, window⟩

variable {s : Scene} {name : String} {step : Step} {steps order : List Step} {q : Pixmap}

theorem area_patch (s : Scene) (step : Step) : (s.patch step).area = s.area step := by
  unfold patch area
  cases step.drawing with
  | overlay => rfl
  | overlayThrough => rfl
  | stamp => rfl

theorem draw_settled (hdst : (s.pixmaps name).check = .ok ())
    (hbuffer : (s.pixmaps name).samples.length < sizeMax) (hready : s.Ready name step) :
    Pixmap.Settled (s.pixmaps name) (s.patch step) fun q => (s.put name q).draw step := by
  obtain ⟨families, dst, drawing⟩ := step
  obtain ⟨rfl, hready⟩ := hready
  cases drawing with
  | overlay src layer clip =>
    obtain ⟨hne, hsrc⟩ := hready
    refine (Pixmap.overlay_settled families hdst hsrc layer clip).congr ?_
    intro q hq
    simp [draw_overlay, hne, hq.check hdst, hsrc, Except.bind]
  | overlayThrough src mask =>
    obtain ⟨⟨hne, hsrc⟩, hne', hmask⟩ := hready
    refine (Pixmap.overlayThrough_settled families hdst hsrc hmask).congr ?_
    intro q hq
    simp [draw_overlayThrough, hne, hne', hq.check hdst, hsrc, hmask, Except.bind]
  | stamp glyph color x y window =>
    obtain ⟨hglyph, hdevice⟩ := hready
    have hplace : Placement.InDevice ⟨x, y, window⟩ := hdevice
    refine (Pixmap.stamp_settled families (s.glyphs glyph) color hdst hbuffer hplace).congr ?_
    intro q hq
    rw [draw_stamp, pixmaps_put_self, glyphs_put, hq.check hdst, hglyph]
    rfl

/-- On a pixmap like its own a step ends as in the scene itself, and paints the same patch. -/
theorem apply_put (hdst : (s.pixmaps name).check = .ok ())
    (hbuffer : (s.pixmaps name).samples.length < sizeMax) (hready : s.Ready name step)
    (hq : (s.pixmaps name).Alike q) :
    (∃ refusal, s.result step = .error (.refused refusal) ∧
      (s.put name q).apply step = .error (.refused refusal)) ∨
    (s.result step = .ok () ∧ ∃ out, (s.put name q).apply step = .ok (s.put name out) ∧
      q.RegionPainted out (s.patch step).area (s.patch step).rule) := by
  have hself := Pixmap.Alike.refl (s.pixmaps name)
  rcases draw_settled hdst hbuffer hready with ⟨refusal, hrefused⟩ | hpainted
  · left
    have hdraw := hrefused _ hself
    rw [put_self] at hdraw
    refine ⟨refusal, ?_, ?_⟩
    · rw [result, apply_eq_bind, hdraw]
      rfl
    · rw [apply_eq_bind, hrefused q hq]
      rfl
  · right
    obtain ⟨_, hdraw, -⟩ := hpainted _ hself
    obtain ⟨out, hout, hregion⟩ := hpainted q hq
    rw [put_self] at hdraw
    refine ⟨?_, out, ?_, hregion⟩
    · rw [result, apply_eq_bind, hdraw]
      rfl
    · rw [apply_eq_bind, hout, hready.1, ← put_put s name q out]
      rfl

def patches (s : Scene) (steps : List Step) : List Pixmap.Patch :=
  (steps.filter fun step => (s.result step).isOk).map s.patch

theorem patches_cons_of_ok (steps : List Step) (h : s.result step = .ok ()) :
    s.patches (step :: steps) = s.patch step :: s.patches steps := by
  rw [patches, List.filter_cons_of_pos (by rw [h]; rfl)]
  rfl

theorem patches_cons_of_error (steps : List Step) {failure : Failure}
    (h : s.result step = .error failure) : s.patches (step :: steps) = s.patches steps := by
  rw [patches, List.filter_cons_of_neg (by rw [h]; exact Bool.false_ne_true)]
  rfl

theorem separate_patches (h : steps.Pairwise fun a b => (s.area a).Apart (s.area b)) :
    Pixmap.Patch.Separate (s.patches steps) := by
  apply List.pairwise_map.mpr
  apply (h.filter _).imp
  intro a b hab
  rw [area_patch, area_patch]
  exact hab

/-- Each step ends as it would on its own, and paints its patch on what the steps before it have
left. -/
theorem run_put (hdst : (s.pixmaps name).check = .ok ())
    (hbuffer : (s.pixmaps name).samples.length < sizeMax)
    (hready : ∀ step ∈ steps, s.Ready name step) (hq : (s.pixmaps name).Alike q) :
    ∃ out, (s.put name q).run steps = (steps.map s.result, s.put name out) ∧
      q.PaintedBy (s.patches steps) out := by
  induction steps generalizing q with
  | nil => exact ⟨q, rfl, .nil q⟩
  | cons step steps ih =>
    obtain ⟨hfirst, hrest⟩ := List.forall_mem_cons.mp hready
    rw [List.map_cons]
    rcases apply_put hdst hbuffer hfirst hq with
      ⟨refusal, hresult, happly⟩ | ⟨hresult, mid, happly, hpainted⟩
    · obtain ⟨out, hrun, hpatches⟩ := ih hrest hq
      refine ⟨out, ?_, ?_⟩
      · rw [run_of_refused steps happly, hrun, hresult]
      · rw [patches_cons_of_error steps hresult]
        exact hpatches
    · obtain ⟨out, hrun, hpatches⟩ := ih hrest (hq.trans hpainted.alike)
      refine ⟨out, ?_, ?_⟩
      · rw [run_of_ok steps happly, hrun, hresult]
      · rw [patches_cons_of_ok steps hresult]
        exact .cons hpainted hpatches

/-- Steps with areas that do not overlap can be run in any order. Each returns what it returns on
its own, which is never a fault, and all orders leave the same scene. -/
theorem disjoint_steps_commute (hdst : (s.pixmaps name).check = .ok ())
    (hbuffer : (s.pixmaps name).samples.length < sizeMax)
    (hready : ∀ step ∈ steps, s.Ready name step)
    (hapart : steps.Pairwise fun a b => (s.area a).Apart (s.area b))
    (horder : order.Perm steps) :
    (∀ step ∈ steps, ∀ fault, s.result step ≠ .error (.faulted fault)) ∧
    ∃ out, s.run steps = (steps.map s.result, s.put name out) ∧
      s.run order = (order.map s.result, s.put name out) := by
  have hself := Pixmap.Alike.refl (s.pixmaps name)
  constructor
  · intro step hstep fault hfault
    rcases apply_put hdst hbuffer (hready step hstep) hself with ⟨_, hresult, -⟩ | ⟨hresult, -⟩
    · cases hresult.symm.trans hfault
    · cases hresult.symm.trans hfault
  · have hready' : ∀ step ∈ order, s.Ready name step :=
      fun step hstep => hready step (horder.mem_iff.mp hstep)
    obtain ⟨out, hrun, hpainted⟩ := run_put hdst hbuffer hready hself
    obtain ⟨out', hrun', hpainted'⟩ := run_put hdst hbuffer hready' hself
    have hperm : (s.patches order).Perm (s.patches steps) := (horder.filter _).map _
    obtain rfl := hpainted.eq_of_perm hpainted' hdst (separate_patches hapart) hperm
    rw [put_self] at hrun hrun'
    exact ⟨out, hrun, hrun'⟩

def desk : Scene := .ofLists
  [("page", ⟨.tight 0 0 4 1 1 false, [10, 20, 30, 40]⟩),
   ("ink", ⟨.tight 2 0 2 1 1 false, [200, 90]⟩),
   ("stencil", ⟨.tight 3 0 1 1 1 false, [128]⟩)] [("dash", Pixmap.dash)]

def deskSteps : List Step :=
  [⟨.all, "page", .overlay "ink" 128 ⟨2, 0, 3, 1⟩⟩,
   ⟨.generalOnly, "page", .overlayThrough "ink" "stencil"⟩,
   ⟨.all, "page", .stamp "dash" [9, 128] 0 0 ⟨2, 1, 0, 0⟩⟩]

theorem disjoint_steps_commute_desk :
    (desk.pixmaps "page").check = .ok () ∧ (desk.pixmaps "page").samples.length < sizeMax ∧
    (∀ step ∈ deskSteps, desk.Ready "page" step) ∧
    (deskSteps.Pairwise fun a b => (desk.area a).Apart (desk.area b)) ∧
    deskSteps.map desk.result = [.ok (), .ok (), .ok ()] ∧
    ∃ out, desk.run deskSteps = (deskSteps.map desk.result, desk.put "page" out) ∧
      desk.run deskSteps.reverse = (deskSteps.reverse.map desk.result, desk.put "page" out) := by
  have hready : ∀ step ∈ deskSteps, desk.Ready "page" step := by
    simp only [deskSteps, List.forall_mem_cons]
    refine ⟨⟨rfl, by decide, rfl⟩, ⟨rfl, ⟨by decide, rfl⟩, by decide, rfl⟩, ⟨rfl, rfl, ?_⟩,
      List.forall_mem_nil _⟩
    exact ⟨by decide, by decide, by decide, by decide⟩
  have hapart : deskSteps.Pairwise fun a b => (desk.area a).Apart (desk.area b) := by
    decide +kernel
  have hbuffer : (desk.pixmaps "page").samples.length < sizeMax := by decide
  obtain ⟨-, hrun⟩ := disjoint_steps_commute rfl hbuffer hready hapart (List.reverse_perm _)
  exact ⟨rfl, hbuffer, hready, hapart, by with_unfolding_all rfl, hrun⟩

end Scanline.Scene
