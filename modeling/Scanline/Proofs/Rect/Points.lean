import Mathlib.Data.Int.Interval
import Mathlib.Data.Set.Card
import Scanline.Proofs.Rect
/-! Rectangles as sets of points. The corners of a rectangle that has points are fixed by them,
and all empty intersections are the same value. So what holds of sets of points holds of
intersections as values, and not only of the points in them. -/
namespace Scanline.Rect

variable {r s : Rect}

theorem last_mem (h : ¬ r.IsEmpty) : (r.x1 - 1, r.y1 - 1) ∈ r := by
  simp only [IsEmpty] at h
  simp only [mem_iff]
  omega

theorem covers_iff : r.Covers s ↔ ∀ p ∈ s, p ∈ r := by
  constructor
  · intro h p hp
    exact mem_of_covers h hp
  · intro h
    by_cases hempty : s.IsEmpty
    · exact Or.inl hempty
    · have hfirst := h _ (corner_mem hempty)
      have hlast := h _ (last_mem hempty)
      simp only [mem_iff] at hfirst hlast
      exact Or.inr (by omega)

theorem isEmpty_congr (h : ∀ p, p ∈ r ↔ p ∈ s) : r.IsEmpty ↔ s.IsEmpty := by
  simp only [isEmpty_iff, h]

/-- Either the rectangle has points, or it is the one value for those that have none. -/
def Normal (r : Rect) : Prop := r.IsEmpty → r = empty

theorem normal_inter (r s : Rect) : (r.inter s).Normal := by
  intro h
  rw [inter] at h ⊢
  split
  · rfl
  · rename_i hne
    rw [if_neg hne] at h
    exact absurd h hne

theorem normal_of_not_isEmpty (h : ¬ r.IsEmpty) : r.Normal := fun hempty => absurd hempty h

/-- Points tell rectangles apart, as long as there is but one without points. -/
theorem Normal.ext (hr : r.Normal) (hs : s.Normal) (h : ∀ p, p ∈ r ↔ p ∈ s) : r = s := by
  by_cases hempty : r.IsEmpty
  · rw [hr hempty, hs ((isEmpty_congr h).mp hempty)]
  · have hempty' : ¬ s.IsEmpty := mt (isEmpty_congr h).mpr hempty
    -- each covers the other, and so no corner of one can lie outside the other
    have hrs : r.Covers s := covers_iff.mpr fun p hp => (h p).mpr hp
    have hsr : s.Covers r := covers_iff.mpr fun p hp => (h p).mp hp
    obtain ⟨hx0, hy0, hx1, hy1⟩ := hrs.resolve_left hempty'
    obtain ⟨hx0', hy0', hx1', hy1'⟩ := hsr.resolve_left hempty
    cases r
    cases s
    simp only [mk.injEq]
    dsimp only at *
    omega

theorem inter_comm (r s : Rect) : r.inter s = s.inter r := by
  apply (normal_inter r s).ext (normal_inter s r)
  intro p
  simp [and_comm]

theorem inter_assoc (r s t : Rect) : (r.inter s).inter t = r.inter (s.inter t) := by
  apply (normal_inter _ t).ext (normal_inter r _)
  intro p
  simp [and_assoc]

/-- The corners are device coordinates, in whatever order. -/
structure InDevice (r : Rect) : Prop where
  x0 : coordMin ≤ r.x0 ∧ r.x0 ≤ coordMax
  y0 : coordMin ≤ r.y0 ∧ r.y0 ≤ coordMax
  x1 : coordMin ≤ r.x1 ∧ r.x1 ≤ coordMax
  y1 : coordMin ≤ r.y1 ∧ r.y1 ≤ coordMax

theorem InDevice.mem_everywhere (h : r.InDevice) {p : Int × Int} (hp : p ∈ r) :
    p ∈ everywhere := by
  obtain ⟨hx0, hy0, hx1, hy1⟩ := h
  simp only [Membership.mem, everywhere] at hp ⊢
  omega

theorem InDevice.inter_everywhere (h : r.InDevice) (hne : ¬ r.IsEmpty) :
    r.inter everywhere = r := by
  apply (normal_inter r _).ext (normal_of_not_isEmpty hne)
  intro p
  simpa using h.mem_everywhere

theorem InDevice.crop (hr : r.InDevice) (hs : s.InDevice) : (r.crop s).InDevice := by
  obtain ⟨hx0, hy0, hx1, hy1⟩ := hr
  obtain ⟨hx0', hy0', hx1', hy1'⟩ := hs
  refine ⟨?_, ?_, ?_, ?_⟩ <;> simp only [Rect.crop] <;> omega

theorem inDevice_empty : empty.InDevice := ⟨by decide, by decide, by decide, by decide⟩

theorem InDevice.inter (hr : r.InDevice) (hs : s.InDevice) : (r.inter s).InDevice := by
  rw [Rect.inter]
  split
  · exact inDevice_empty
  · exact hr.crop hs

/-- A size can exceed the largest coordinate, but not the distance of the outermost ones. -/
theorem InDevice.size_le (h : r.InDevice) :
    (r.width : Int) ≤ coordMax - coordMin ∧ (r.height : Int) ≤ coordMax - coordMin := by
  obtain ⟨hx0, hy0, hx1, hy1⟩ := h
  simp only [coordMin, coordMax] at *
  rw [width, height]
  split <;> omega

theorem width_mul_height (r : Rect) :
    r.width * r.height = (r.x1 - r.x0).toNat * (r.y1 - r.y0).toNat := by
  rw [width, height]
  split
  · rename_i h
    rcases h with h | h
    · rw [Int.toNat_of_nonpos (by omega : r.x1 - r.x0 ≤ 0), Nat.zero_mul, Nat.zero_mul]
    · rw [Int.toNat_of_nonpos (by omega : r.y1 - r.y0 ≤ 0), Nat.mul_zero, Nat.mul_zero]
  · rfl

theorem encard_points (r : Rect) :
    {p : Int × Int | p ∈ r}.encard = (r.width * r.height : Nat) := by
  have hpoints : {p : Int × Int | p ∈ r} =
      (Finset.Ico r.x0 r.x1 ×ˢ Finset.Ico r.y0 r.y1 : Finset (Int × Int)) := by
    ext ⟨x, y⟩
    simp only [Set.mem_ofPred_eq, mem_iff, Finset.mem_coe, Finset.mem_product, Finset.mem_Ico,
      and_assoc]
  rw [hpoints, Set.encard_coe_eq_coe_finsetCard, Finset.card_product, Int.card_Ico, Int.card_Ico,
    width_mul_height]

/-- What a clip leaves has the points of the intersection, also with its corners out of order. -/
theorem mem_clip {p : Int × Int} : p ∈ (r.clip s).2 ↔ p ∈ r.inter s := by
  simp [clip]

theorem clip_eq_true_iff : (r.clip s).1 = true ↔ ∃ p, p ∈ r.inter s := by
  simp [clip, not_isEmpty_iff]

/-- Rectangles with corners in any order behave as the sets of their points. Intersection, clipping,
containment, size and the test for points say of a rectangle what they say of the set, and
intersections that are the same set are the same value. None of this leaves the device. -/
theorem rects_are_point_sets {a b : Rect} (ha : a.InDevice) (hb : b.InDevice) (c : Rect) :
    (∀ p, p ∈ a.inter b ↔ p ∈ a ∧ p ∈ b) ∧
    a.inter b = b.inter a ∧ (a.inter b).inter c = a.inter (b.inter c) ∧
    (¬ a.IsEmpty → a.inter everywhere = a ∧ everywhere.inter a = a) ∧
    ((a.inter b).IsEmpty → a.inter b = empty) ∧
    (∀ p, p ∈ (a.clip b).2 ↔ p ∈ a.inter b) ∧ ((a.clip b).1 = true ↔ ∃ p, p ∈ a.inter b) ∧
    (a.IsEmpty ↔ ∀ p, p ∉ a) ∧
    (a.Covers b ↔ ∀ p ∈ b, p ∈ a) ∧
    {p : Int × Int | p ∈ a}.encard = (a.width * a.height : Nat) ∧
    ((a.width : Int) ≤ coordMax - coordMin ∧ (a.height : Int) ≤ coordMax - coordMin) ∧
    ((a.inter b).InDevice ∧ (a.clip b).2.InDevice ∧ ∀ p ∈ a, p ∈ everywhere) ∧
    ∀ (x y px py : Int) (width height : Nat), (px, py) ∈ ofSize x y width height ↔
      x ≤ px ∧ px < min (x + width) coordMax ∧ y ≤ py ∧ py < min (y + height) coordMax := by
  refine ⟨fun _ => mem_inter, inter_comm a b, inter_assoc a b c, ?_, normal_inter a b,
    fun _ => mem_clip, clip_eq_true_iff, isEmpty_iff, covers_iff, encard_points a, ha.size_le,
    ⟨ha.inter hb, ha.crop hb, fun _ => ha.mem_everywhere⟩, fun _ _ _ _ _ _ => mem_iff⟩
  intro hne
  have hwhole := ha.inter_everywhere hne
  exact ⟨hwhole, (inter_comm everywhere a).trans hwhole⟩

def expanse : Rect := ⟨coordMin, coordMin, coordMax, 0⟩

def crossed : Rect := ⟨5, -3, 2, -1⟩

/-- A part without points may come first or last: what is left is one value. -/
theorem rects_are_point_sets_crossed :
    expanse.InDevice ∧ crossed.InDevice ∧
    (expanse.inter crossed).inter everywhere = expanse.inter (crossed.inter everywhere) ∧
    expanse.inter everywhere = expanse ∧ (expanse.clip crossed).1 = false ∧
    (¬ ∃ p, p ∈ expanse.inter crossed) ∧
    {p : Int × Int | p ∈ expanse}.encard = (4294967295 * 2147483648 : Nat) := by
  have hexpanse : expanse.InDevice := ⟨by decide, by decide, by decide, by decide⟩
  have hcrossed : crossed.InDevice := ⟨by decide, by decide, by decide, by decide⟩
  have hleft : (expanse.clip crossed).1 = false := by decide
  obtain ⟨-, -, hassoc, hwhole, -, -, hclip, -, -, hcount, -⟩ :=
    rects_are_point_sets hexpanse hcrossed everywhere
  refine ⟨hexpanse, hcrossed, hassoc, (hwhole (by decide)).1, hleft, ?_, hcount⟩
  rw [← hclip, hleft]
  exact Bool.false_ne_true

end Scanline.Rect
