import Scanline.Scene
/-! Steps and sequences of steps. A step checks its operands one after the other and then draws;
a sequence goes on from what its first step has left. -/
namespace Scanline.Scene

variable (s : Scene) (families : FamilySet) (dst : String)

theorem draw_overlay (src : String) (layer : UInt8) (clip : Rect) :
    s.draw ⟨families, dst, .overlay src layer clip⟩ =
      (s.pixmaps dst).check.bind fun _ => (s.pixmaps src).check.bind fun _ =>
        (s.pixmaps dst).overlay families (s.pixmaps src) layer clip := rfl

theorem draw_overlayThrough (src mask : String) :
    s.draw ⟨families, dst, .overlayThrough src mask⟩ =
      (s.pixmaps dst).check.bind fun _ => (s.pixmaps src).check.bind fun _ =>
        (s.pixmaps mask).check.bind fun _ =>
          (s.pixmaps dst).overlayThrough families (s.pixmaps src) (s.pixmaps mask) := rfl

theorem draw_stamp (glyph : String) (color : List UInt8) (x y : Int) (window : Window) :
    s.draw ⟨families, dst, .stamp glyph color x y window⟩ =
      (s.pixmaps dst).check.bind fun _ => ((s.glyphs glyph).check.mapError .refused).bind fun _ =>
        (s.pixmaps dst).stamp families (s.glyphs glyph) color x y window := rfl

theorem apply_eq_bind (step : Step) :
    s.apply step = (s.draw step).bind fun p => .ok (s.put step.dst p) := rfl

@[simp] theorem pixmaps_put_self (name : String) (p : Pixmap) : (s.put name p).pixmaps name = p :=
  if_pos rfl

@[simp] theorem pixmaps_put_of_ne {name other : String} (h : other ≠ name) (p : Pixmap) :
    (s.put name p).pixmaps other = s.pixmaps other := if_neg h

@[simp] theorem glyphs_put (name : String) (p : Pixmap) : (s.put name p).glyphs = s.glyphs := rfl

@[simp] theorem put_put (name : String) (p q : Pixmap) :
    (s.put name p).put name q = s.put name q := by
  apply congrArg (mk · s.glyphs)
  funext other
  by_cases h : other = name
  · simp [h]
  · simp [h]

@[simp] theorem put_self (name : String) : s.put name (s.pixmaps name) = s := by
  apply congrArg (mk · s.glyphs)
  funext other
  by_cases h : other = name
  · rw [if_pos h, h]
  · rw [if_neg h]

variable {s} {step : Step} (steps : List Step)

theorem run_of_ok {t : Scene} (h : s.apply step = .ok t) :
    s.run (step :: steps) = (.ok () :: (t.run steps).1, (t.run steps).2) := by
  rw [run, h]

theorem run_of_refused {refusal : Refusal} (h : s.apply step = .error (.refused refusal)) :
    s.run (step :: steps) = (.error (.refused refusal) :: (s.run steps).1, (s.run steps).2) := by
  rw [run, h]

theorem run_of_faulted {fault : Fault} (h : s.apply step = .error (.faulted fault)) :
    s.run (step :: steps) = ([.error (.faulted fault)], s) := by
  rw [run, h]

end Scanline.Scene
