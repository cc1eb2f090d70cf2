import Scanline.Mix
import Scanline.Painter.Select
import Scanline.Row
/-! Which families two sets can choose for one count of samples. Only the general one is chosen
for more than one count, so two choices that differ are the general and a specialised one. -/
namespace Scanline

theorem Shape.walkable {colors : Nat} (h₀ : 0 < colors) (h : colors < sizeMax) (alpha : Bool) :
    Row.Walkable (Shape.mk colors alpha).size := by
  have := alpha.toNat_le
  simp only [Row.Walkable, Shape.size]
  omega

namespace FamilySet

theorem special?_cases {s : FamilySet} {colors : Nat} {f : Family}
    (h : s.special? colors = some f) :
    (colors = 1 ∧ f = .gray) ∨ (colors = 3 ∧ f = .rgb) ∨ (colors = 4 ∧ f = .cmyk) := by
  unfold special? at h
  split at h
  · split at h
    · exact Or.inl ⟨rfl, (Option.some.inj h).symm⟩
    · cases h
  · split at h
    · exact Or.inr (Or.inl ⟨rfl, (Option.some.inj h).symm⟩)
    · cases h
  · split at h
    · exact Or.inr (Or.inr ⟨rfl, (Option.some.inj h).symm⟩)
    · cases h
  · cases h

theorem special?_unique {s t : FamilySet} {colors : Nat} {f g : Family}
    (hs : s.special? colors = some f) (ht : t.special? colors = some g) : f = g := by
  have hg := special?_cases ht
  rcases special?_cases hs with ⟨rfl, rfl⟩ | ⟨rfl, rfl⟩ | ⟨rfl, rfl⟩
  · exact Eq.symm (by simpa using hg)
  · exact Eq.symm (by simpa using hg)
  · exact Eq.symm (by simpa using hg)

theorem special?_colorful {s : FamilySet} {colors : Nat} {f : Family}
    (h : s.special? colors = some f) : f ≠ .alphaOnly ∧ f ≠ .general := by
  rcases special?_cases h with ⟨-, rfl⟩ | ⟨-, rfl⟩ | ⟨-, rfl⟩
  · exact ⟨nofun, nofun⟩
  · exact ⟨nofun, nofun⟩
  · exact ⟨nofun, nofun⟩

theorem family?_eq_general_or {s : FamilySet} {colors : Nat} {f : Family} (hcolors : 0 < colors)
    (h : s.family? colors = some f) : f = .general ∨ s.special? colors = some f := by
  rw [family?, if_neg (by omega)] at h
  cases hspecial : s.special? colors with
  | none =>
    rw [hspecial, Option.none_or] at h
    split at h
    · exact Or.inl (Option.some.inj h).symm
    · cases h
  | some g =>
    rw [hspecial, Option.some_or] at h
    exact Or.inr h

theorem family?_ne_alphaOnly {s : FamilySet} {colors : Nat} {f : Family} (hcolors : 0 < colors)
    (h : s.family? colors = some f) : f ≠ .alphaOnly := by
  rcases family?_eq_general_or hcolors h with rfl | hspecial
  · simp
  · exact (special?_colorful hspecial).1

theorem family?_differ {s t : FamilySet} {colors : Nat} {f g : Family} (hcolors : 0 < colors)
    (hs : s.family? colors = some f) (ht : t.family? colors = some g) (hne : f ≠ g) :
    (f ≠ .general ∧ g = .general) ∨ (f = .general ∧ g ≠ .general) := by
  rcases family?_eq_general_or hcolors hs with rfl | hf
  · exact Or.inr ⟨rfl, hne.symm⟩
  rcases family?_eq_general_or hcolors ht with rfl | hg
  · exact Or.inl ⟨hne, rfl⟩
  · exact absurd (special?_unique hf hg) hne

theorem select_eq_ok {s : FamilySet} {colors : Nat} {f : Family} (h : s.family? colors = some f)
    (hf : f ≠ .alphaOnly) (kind : PainterKind) (alphaOnly : Bool) :
    s.select kind colors alphaOnly = .ok f := by
  rw [select, h]
  cases f <;> simp at hf ⊢

theorem selectColor_eq_ok {s : FamilySet} {colors : Nat} {f : Family} {color : List UInt8}
    (h : s.family? colors = some f) (hf : f ≠ .alphaOnly) (hsize : colors < sizeMax)
    (hcolor : colors + 1 ≤ color.length) (kind : PainterKind) (alphaOnly : Bool) :
    s.selectColor kind colors color alphaOnly = .ok f := by
  rw [selectColor, if_neg (by omega), if_neg (by omega), select_eq_ok h hf]
  rfl

theorem selectColor_inv {s : FamilySet} {kind : PainterKind} {colors : Nat} {f : Family}
    {color : List UInt8} {alphaOnly : Bool} (h : s.selectColor kind colors color alphaOnly = .ok f) :
    colors < sizeMax ∧ colors + 1 ≤ color.length ∧ s.supports colors = true := by
  rw [selectColor] at h
  split at h
  · cases h
  split at h
  · cases h
  refine ⟨by omega, by omega, ?_⟩
  cases hf : s.family? colors with
  | none =>
    rw [select, hf] at h
    cases h
  | some g => rw [supports, hf, Option.isSome_some]

theorem selectColor_short {s : FamilySet} {colors : Nat} {color : List UInt8}
    (hsize : colors < sizeMax) (hcolor : color.length < colors + 1) (kind : PainterKind)
    (alphaOnly : Bool) :
    s.selectColor kind colors color alphaOnly =
      .error (.refused (.colorLength (colors + 1) color.length)) := by
  rw [selectColor, if_neg (by omega), if_pos hcolor]

theorem supports_eq_false_iff {s : FamilySet} {colors : Nat} :
    s.supports colors = false ↔ s.family? colors = none := by
  rw [supports, Option.isSome_eq_false_iff, Option.isNone_iff_eq_none]

theorem select_unserved {s : FamilySet} {colors : Nat} (h : s.supports colors = false)
    (kind : PainterKind) (alphaOnly : Bool) :
    s.select kind colors alphaOnly = .error (.unserved kind colors) := by
  rw [select, supports_eq_false_iff.mp h]

theorem selectColor_unserved {s : FamilySet} {colors : Nat} {color : List UInt8}
    (hsize : colors < sizeMax) (hcolor : colors + 1 ≤ color.length)
    (h : s.supports colors = false) (kind : PainterKind) (alphaOnly : Bool) :
    s.selectColor kind colors color alphaOnly = .error (.refused (.unserved kind colors)) := by
  rw [selectColor, if_neg (by omega), if_neg (by omega), select_unserved h]
  rfl

theorem family?_eq_rgb {s : FamilySet} {colors : Nat} {f : Family}
    (h : s.family? colors = some f) (hf : f = .rgb) : colors = 3 := by
  subst hf
  rcases Nat.eq_zero_or_pos colors with rfl | hpos
  · cases h
  rcases family?_eq_general_or hpos h with hgeneral | hspecial
  · cases hgeneral
  · rcases special?_cases hspecial with ⟨-, hgray⟩ | ⟨hcolors, -⟩ | ⟨-, hcmyk⟩
    · cases hgray
    · exact hcolors
    · cases hcmyk

end FamilySet

end Scanline
