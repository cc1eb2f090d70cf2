import Scanline.Pixmap.Stamp
import Scanline.Proofs.Rect
/-! Windows in device space. The region of a window takes its size modulo `sizeModulus` and stops
at the largest coordinate. Where the corners of the window are device coordinates neither
happens, and the region is the window. A region that stops early still tells whether the window
lies on a layout, as long as the layout ends before the largest coordinate. -/
namespace Scanline.Window

structure InDevice (w : Window) (x y : Int) : Prop where
  left : coordMin ≤ x
  top : coordMin ≤ y
  right : x + w.width ≤ coordMax
  bottom : y + w.height ≤ coordMax

/-- All of a window at `(x, y)` lies on the pixels of a layout. Nothing stops at the largest
coordinate here. -/
def Inside (w : Window) (l : Layout) (x y : Int) : Prop :=
  0 ≤ x - l.x ∧ x - l.x + w.width ≤ l.width ∧ 0 ≤ y - l.y ∧ y - l.y + w.height ≤ l.height

instance (w : Window) (l : Layout) (x y : Int) : Decidable (w.Inside l x y) :=
  inferInstanceAs (Decidable (_ ∧ _ ∧ _ ∧ _))

/-- What it takes for the region of a window to stand for the window on a layout. The sizes are
below `sizeModulus`, and in each direction the far edge is a device coordinate, or the window
starts and the layout ends before the largest one. -/
structure Resolved (w : Window) (l : Layout) (x y : Int) : Prop where
  left : coordMin ≤ x
  top : coordMin ≤ y
  width : w.width < sizeModulus
  height : w.height < sizeModulus
  right : x + w.width ≤ coordMax ∨ x < coordMax ∧ l.x + l.width < coordMax
  bottom : y + w.height ≤ coordMax ∨ y < coordMax ∧ l.y + l.height < coordMax

variable {w : Window} {x y : Int}

theorem region_eq (h : w.InDevice x y) : w.region x y = ⟨x, y, x + w.width, y + w.height⟩ := by
  obtain ⟨hleft, htop, hright, hbottom⟩ := h
  simp only [coordMin, coordMax] at hleft htop hright hbottom
  simp only [region, Rect.ofSize, sizeModulus, coordMax, Rect.mk.injEq, true_and]
  omega

theorem pos_of_region (h : ¬ (w.region x y).IsEmpty) : 0 < w.width ∧ 0 < w.height := by
  rw [Rect.IsEmpty, region, Rect.ofSize] at h
  dsimp only at h
  have hwidth := Nat.mod_le w.width sizeModulus
  have hheight := Nat.mod_le w.height sizeModulus
  omega

theorem width_region (h : w.InDevice x y) (hne : ¬ (w.region x y).IsEmpty) :
    (w.region x y).width = w.width := by
  rw [Rect.width, if_neg hne, region_eq h]
  dsimp only
  omega

theorem height_region (h : w.InDevice x y) (hne : ¬ (w.region x y).IsEmpty) :
    (w.region x y).height = w.height := by
  rw [Rect.height, if_neg hne, region_eq h]
  dsimp only
  omega

/-- The device pixels of a window are counted from its corner. -/
theorem mem_region_iff (h : w.InDevice x y) {a b : Int} :
    (a, b) ∈ w.region x y ↔ ∃ i < w.width, ∃ r < w.height, a = x + i ∧ b = y + r := by
  rw [region_eq h, Rect.mem_iff]
  dsimp only
  constructor
  · intro hmem
    exact ⟨(a - x).toNat, by omega, (b - y).toNat, by omega, by omega, by omega⟩
  · rintro ⟨i, hi, r, hr, rfl, rfl⟩
    omega

theorem covers_region_iff {l : Layout} (h : w.Resolved l x y) (hwidth : 0 < w.width)
    (hheight : 0 < w.height) : l.bounds.Covers (w.region x y) ↔ w.Inside l x y := by
  obtain ⟨-, -, hw, hh, hright, hbottom⟩ := h
  have hne : ¬ (w.region x y).IsEmpty := by
    rw [Rect.IsEmpty, region, Rect.ofSize, Nat.mod_eq_of_lt hw, Nat.mod_eq_of_lt hh]
    dsimp only
    omega
  rw [Rect.Covers, or_iff_right hne, region, Nat.mod_eq_of_lt hw, Nat.mod_eq_of_lt hh]
  simp only [Layout.bounds, Rect.ofSize, Inside]
  omega

/-- A window on the pixels of a layout reaches the largest coordinate only with the layout. -/
theorem Resolved.inDevice {l : Layout} (h : w.Resolved l x y) (hin : w.Inside l x y) :
    w.InDevice x y := by
  obtain ⟨hleft, htop, -, -, hright, hbottom⟩ := h
  obtain ⟨-, hx, -, hy⟩ := hin
  exact ⟨hleft, htop, by omega, by omega⟩

end Scanline.Window
