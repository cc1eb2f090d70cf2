import Scanline.Rect
/-! Rectangles by their points. -/
namespace Scanline.Rect

@[simp] theorem mem_crop {r s : Rect} {p : Int × Int} : p ∈ r.crop s ↔ p ∈ r ∧ p ∈ s := by
  simp only [Membership.mem, crop]
  omega

theorem not_mem_of_isEmpty {r : Rect} (h : r.IsEmpty) (p : Int × Int) : p ∉ r := by
  intro hp
  simp only [Membership.mem] at hp
  simp only [IsEmpty] at h
  omega

@[simp] theorem not_mem_empty (p : Int × Int) : p ∉ empty := not_mem_of_isEmpty (by decide) p

@[simp] theorem mem_inter {r s : Rect} {p : Int × Int} : p ∈ r.inter s ↔ p ∈ r ∧ p ∈ s := by
  rw [← mem_crop, inter]
  split
  · rename_i h
    simp [not_mem_of_isEmpty h p]
  · rfl

theorem mem_inter_inter {r s t : Rect} {p : Int × Int} :
    p ∈ (r.inter s).inter t ↔ p ∈ r ∧ p ∈ s ∧ p ∈ t := by
  simp [and_assoc]

theorem mem_iff_exists {r : Rect} {x y : Int} :
    (x, y) ∈ r ↔ ∃ i < r.width, ∃ j < r.height, x = r.x0 + i ∧ y = r.y0 + j := by
  rw [mem_iff]
  unfold width height
  by_cases h : r.IsEmpty
  · rw [if_pos h, if_pos h]
    unfold IsEmpty at h
    constructor
    · intro hp
      omega
    · rintro ⟨i, hi, -⟩
      omega
  · rw [if_neg h, if_neg h]
    unfold IsEmpty at h
    constructor
    · intro hp
      exact ⟨(x - r.x0).toNat, by omega, (y - r.y0).toNat, by omega, by omega, by omega⟩
    · rintro ⟨i, hi, j, hj, rfl, rfl⟩
      omega

theorem mem_of_covers {r s : Rect} (h : r.Covers s) {p : Int × Int} (hp : p ∈ s) : p ∈ r := by
  rcases h with hempty | hcorners
  · exact absurd hp (not_mem_of_isEmpty hempty p)
  · simp only [Membership.mem] at hp ⊢
    omega

theorem corner_mem {r : Rect} (h : ¬ r.IsEmpty) : (r.x0, r.y0) ∈ r := by
  simp only [IsEmpty] at h
  simp only [mem_iff]
  omega

theorem isEmpty_iff {r : Rect} : r.IsEmpty ↔ ∀ p, p ∉ r := by
  constructor
  · exact not_mem_of_isEmpty
  · intro h
    exact Decidable.of_not_not fun hne => h _ (corner_mem hne)

theorem not_isEmpty_iff {r : Rect} : ¬ r.IsEmpty ↔ ∃ p, p ∈ r := by
  simp only [isEmpty_iff, Classical.not_forall, Classical.not_not]

theorem width_pos {r : Rect} (h : ¬ r.IsEmpty) : 0 < r.width := by
  rw [width, if_neg h]
  simp only [IsEmpty] at h
  omega

def Apart (r s : Rect) : Prop := ∀ p ∈ r, p ∉ s

theorem Apart.symm {r s : Rect} (h : r.Apart s) : s.Apart r := fun p hs hr => h p hr hs

theorem apart_iff {r s : Rect} : r.Apart s ↔ (r.crop s).IsEmpty := by
  simp only [isEmpty_iff, mem_crop, not_and]
  exact Iff.rfl

instance (r s : Rect) : Decidable (r.Apart s) := decidable_of_iff _ apart_iff.symm

def Common (r s t : Rect) : Prop := ∃ p, p ∈ r ∧ p ∈ s ∧ p ∈ t

theorem common_iff {r s t : Rect} : Common r s t ↔ ¬ ((r.inter s).inter t).IsEmpty := by
  simp only [not_isEmpty_iff, mem_inter_inter]
  exact Iff.rfl

instance (r s t : Rect) : Decidable (Common r s t) := decidable_of_iff _ common_iff.symm

def shift (r : Rect) (dx dy : Int) : Rect := ⟨r.x0 + dx, r.y0 + dy, r.x1 + dx, r.y1 + dy⟩

@[simp] theorem mem_shift {r : Rect} {dx dy x y : Int} :
    (x + dx, y + dy) ∈ r.shift dx dy ↔ (x, y) ∈ r := by
  simp only [mem_iff, shift]
  omega

theorem common_shift (r s t : Rect) (dx dy : Int) :
    Common (r.shift dx dy) (s.shift dx dy) (t.shift dx dy) ↔ Common r s t := by
  constructor
  · rintro ⟨⟨x, y⟩, hp⟩
    rw [← Int.sub_add_cancel x dx, ← Int.sub_add_cancel y dy, mem_shift, mem_shift, mem_shift] at hp
    exact ⟨_, hp⟩
  · rintro ⟨⟨x, y⟩, hp⟩
    exact ⟨(x + dx, y + dy), mem_shift.mpr hp.1, mem_shift.mpr hp.2.1, mem_shift.mpr hp.2.2⟩

end Scanline.Rect
