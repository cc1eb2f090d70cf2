import Scanline.Proofs.Pixmap.Edit
/-! Patches: regions with a rule for their pixels. Patches that do not overlap each find their
region as it was at the start, so all of them together are one rule for the whole pixmap, and the
order in which they are painted does not show. -/
namespace Scanline.Pixmap

/-- A region and what becomes of its pixels. There is only one thing that can become of a pixel. -/
structure Patch where
  area : Rect
  rule : Int → Int → List UInt8 → List UInt8 → Prop
  unique : ∀ {x y old new new'}, rule x y old new → rule x y old new' → new = new'

inductive PaintedBy : Pixmap → List Patch → Pixmap → Prop where
  | nil (p : Pixmap) : PaintedBy p [] p
  | cons {p q u : Pixmap} {patch : Patch} {patches : List Patch}
      (first : RegionPainted p q patch.area patch.rule) (rest : PaintedBy q patches u) :
      PaintedBy p (patch :: patches) u

namespace Patch

/-- What patches make of a pixel when at most one of them reaches it. -/
def Rules (patches : List Patch) (x y : Int) (old new : List UInt8) : Prop :=
  (∃ patch ∈ patches, (x, y) ∈ patch.area ∧ patch.rule x y old new) ∨
  ((∀ patch ∈ patches, (x, y) ∉ patch.area) ∧ new = old)

def Separate (patches : List Patch) : Prop :=
  patches.Pairwise fun a b => a.area.Apart b.area

variable {patch : Patch} {patches others : List Patch} {x y : Int} {old new new' : List UInt8}

theorem rules_of_free (h : ∀ patch ∈ patches, (x, y) ∉ patch.area) :
    Rules patches x y old new ↔ new = old := by
  constructor
  · rintro (⟨patch, hpatch, hmem, -⟩ | ⟨-, hsame⟩)
    · exact absurd hmem (h patch hpatch)
    · exact hsame
  · intro hsame
    exact Or.inr ⟨h, hsame⟩

theorem rules_nil : Rules [] x y old new ↔ new = old := rules_of_free (List.forall_mem_nil _)

theorem rules_cons_of_not_mem (h : (x, y) ∉ patch.area) :
    Rules (patch :: patches) x y old new ↔ Rules patches x y old new := by
  simp only [Rules, List.mem_cons, exists_eq_or_imp, forall_eq_or_imp, h, false_and, false_or,
    not_false_iff, true_and]

theorem Separate.free (h : Separate (patch :: patches)) (hmem : (x, y) ∈ patch.area) :
    ∀ other ∈ patches, (x, y) ∉ other.area :=
  fun other hother => (List.pairwise_cons.mp h).1 other hother _ hmem

theorem Rules.head (h : Rules (patch :: patches) x y old new) (hmem : (x, y) ∈ patch.area)
    (hfree : ∀ other ∈ patches, (x, y) ∉ other.area) : patch.rule x y old new := by
  rcases h with ⟨other, hother, hmem', hrule⟩ | ⟨hnone, -⟩
  · rcases List.mem_cons.mp hother with rfl | hother
    · exact hrule
    · exact absurd hmem' (hfree other hother)
  · exact absurd hmem (hnone patch List.mem_cons_self)

theorem Separate.unique (hseparate : Separate patches) (h : Rules patches x y old new)
    (h' : Rules patches x y old new') : new = new' := by
  induction patches with
  | nil => exact (rules_nil.mp h).trans (rules_nil.mp h').symm
  | cons patch patches ih =>
    by_cases hmem : (x, y) ∈ patch.area
    · have hfree := hseparate.free hmem
      exact patch.unique (h.head hmem hfree) (h'.head hmem hfree)
    · exact ih (List.pairwise_cons.mp hseparate).2 ((rules_cons_of_not_mem hmem).mp h)
        ((rules_cons_of_not_mem hmem).mp h')

theorem Separate.perm (h : Separate patches) (hperm : others.Perm patches) : Separate others :=
  (hperm.pairwise_iff Rect.Apart.symm).mpr h

theorem Rules.perm (h : Rules others x y old new) (hperm : others.Perm patches) :
    Rules patches x y old new := by
  rcases h with ⟨patch, hpatch, hrule⟩ | ⟨hfree, hsame⟩
  · exact Or.inl ⟨patch, hperm.mem_iff.mp hpatch, hrule⟩
  · exact Or.inr ⟨fun patch hpatch => hfree patch (hperm.mem_iff.mpr hpatch), hsame⟩

end Patch

variable {p q q' : Pixmap} {patches others : List Patch}

/-- Patches that do not overlap, as one rule for all pixels. -/
theorem PaintedBy.regionPainted (h : PaintedBy p patches q) (hp : p.check = .ok ())
    (hseparate : Patch.Separate patches) :
    RegionPainted p q p.bounds (Patch.Rules patches) := by
  induction h with
  | nil p =>
    refine ⟨rfl, rfl, ?_, fun _ _ => rfl⟩
    intro x y hmem
    obtain ⟨px, hpx⟩ := exists_pixel hp hmem
    exact ⟨px, px, hpx, hpx, Patch.rules_nil.mpr rfl⟩
  | @cons p q u patch patches first _ ih =>
    have hrest := ih (first.alike.check hp) (List.pairwise_cons.mp hseparate).2
    rw [first.alike.bounds] at hrest
    refine ⟨hrest.layout.trans first.layout, hrest.size.trans first.size, ?_, ?_⟩
    · intro x y hbounds
      obtain ⟨mid, new, hmid, hnew, hrule⟩ := hrest.inside x y hbounds
      by_cases hmem : (x, y) ∈ patch.area
      · obtain ⟨old, mid', hold, hmid', hpaint⟩ := first.inside x y hmem
        cases hmid.symm.trans hmid'
        obtain rfl := (Patch.rules_of_free (hseparate.free hmem)).mp hrule
        exact ⟨old, new, hold, hnew, Or.inl ⟨patch, List.mem_cons_self, hmem, hpaint⟩⟩
      · exact ⟨mid, new, (first.pixel_outside hp hmem).symm.trans hmid, hnew,
          (Patch.rules_cons_of_not_mem hmem).mpr hrule⟩
    · intro b hb
      -- a byte without a pixel stays in both steps
      have hfree : ∀ x y, ¬ p.layout.Owns x y b := by
        rintro x y ⟨start, hstart, howns⟩
        exact hb x y (Layout.mem_bounds_of_offset? hstart) ⟨start, hstart, howns⟩
      rw [hrest.outside b fun x y _ => first.layout ▸ hfree x y,
        first.outside b fun x y _ => hfree x y]

/-- Patches that make the same of each pixel leave the same pixmap. -/
theorem PaintedBy.eq_of_rules (h : PaintedBy p patches q) (h' : PaintedBy p others q')
    (hp : p.check = .ok ()) (hseparate : Patch.Separate patches)
    (hseparate' : Patch.Separate others)
    (hrules : ∀ x y old new, Patch.Rules others x y old new → Patch.Rules patches x y old new) :
    q = q' := by
  have hsame := (h'.regionPainted hp hseparate').mono fun x y _ => hrules x y
  exact (h.regionPainted hp hseparate).unique hsame fun _ _ _ _ _ => hseparate.unique

/-- The order of patches that do not overlap does not show. -/
theorem PaintedBy.eq_of_perm (h : PaintedBy p patches q) (h' : PaintedBy p others q')
    (hp : p.check = .ok ()) (hseparate : Patch.Separate patches) (hperm : others.Perm patches) :
    q = q' :=
  h.eq_of_rules h' hp hseparate (hseparate.perm hperm) fun _ _ _ _ hrules => hrules.perm hperm

end Scanline.Pixmap
