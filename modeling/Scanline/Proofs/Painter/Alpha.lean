import Scanline.Proofs.Painter.Premultiplied
/-! The alpha of a destination does not drift away. Every product is floored, so a mix can take
one from an alpha of 255; but no mix takes anything from an alpha up to 254, and so the loss does
not add up. Only a translucent source in a layer that is not solid thins an alpha out. -/
namespace Scanline

theorem byte_ofInt_rest (a : UInt8) : UInt8.ofInt (255 - (a.toNat : Int)) = 255 - a := by
  have ha := a.toNat_lt
  have hrest : (255 - a).toNat = 255 - a.toNat := UInt8.toNat_sub_of_le _ _ (byte_le_full a)
  rw [← UInt8.toNat_inj, hrest, ← Int.ofNat_inj, toNat_byte_ofInt (by omega) (by omega)]
  omega

namespace Weight

theorem ofByte_rest (a : UInt8) : ofByte (255 - a) = full - ofByte a := by
  have ha := a.toNat_lt
  have hrest : (255 - a).toNat = 255 - a.toNat := UInt8.toNat_sub_of_le _ _ (byte_le_full a)
  simp only [ofByte, hrest, full]
  omega

/-- Below the byte `a` a sample up to 254 loses no more than `a`. A sample of 255 may lose one
more, since from 128 on the weight of `a` is one more than `a`. -/
theorem sub_le_scale_rest (a : UInt8) {d : Int} (hd : d ≤ 254) :
    d - a.toNat ≤ scale d (full - ofByte a) := by
  have hshare : d * ofByte a ≤ 256 * a.toNat :=
    calc d * ofByte a ≤ 254 * ofByte a := Int.mul_le_mul_of_nonneg_right hd (ofByte_nonneg a)
      _ ≤ 256 * a.toNat := by
        have ha := a.toNat_lt
        simp only [ofByte]
        omega
  rw [scale, full, Int.le_ediv_iff_mul_le (by decide), Int.mul_sub]
  omega

theorem le_overlay_rest (a old : UInt8) :
    min (old.toNat : Int) 254 ≤ overlay a.toNat old.toNat (full - ofByte a) := by
  have hmono := scale_mono (Int.min_le_left old.toNat 254) (Int.sub_nonneg.mpr (ofByte_le a))
  have hloss := sub_le_scale_rest a (Int.min_le_right old.toNat 254)
  rw [overlay]
  omega

end Weight

namespace Mix

/-- An alpha that meets the alpha `a` loses nothing, unless it is 255 and becomes 254. -/
def KeepsAlpha (a : UInt8) (m : Mix) : Prop :=
  ∀ old : UInt8, min (old.toNat : Int) 254 ≤ m.exact a old

variable {m : Mix} {a : UInt8}

theorem KeepsAlpha.sample (h : m.KeepsAlpha a) (hm : m.Within a) (old : UInt8) :
    min old.toNat 254 ≤ (m.sample a old).toNat := by
  have hexact := exact_within hm (UInt8.le_refl a) old
  have hle := h old
  rw [← toNat_byte_ofInt hexact.1 hexact.2, ← sample_eq_ofInt] at hle
  omega

theorem keepsAlpha_of_plain (h : m.Plain) : m.KeepsAlpha 255 := by
  intro old
  have hold := old.toNat_lt
  cases m with
  | keep => exact Int.min_le_left _ _
  | copy =>
    show min (old.toNat : Int) 254 ≤ 255
    omega
  | lerp w =>
    have hscale := Weight.scale_nonneg (x := 255 - old.toNat) (by omega) h.1
    show min (old.toNat : Int) 254 ≤ old.toNat + Weight.scale (255 - old.toNat) w
    omega
  | overlay t => exact h.elim
  | sum source below => exact h.elim

theorem keepsAlpha_keep (a : UInt8) : keep.KeepsAlpha a := fun _ => Int.min_le_left _ _

theorem keepsAlpha_ofLayer {layer : UInt8} {srcAlpha : Option UInt8}
    (h : layer = 255 ∨ srcAlpha = none) :
    (ofLayer layer srcAlpha).KeepsAlpha (srcAlpha.getD 255) := by
  cases srcAlpha with
  | none => exact keepsAlpha_of_plain (plain_ofLayer layer)
  | some a =>
    obtain rfl := h.resolve_right nofun
    rw [ofLayer, if_pos Weight.ofByte_full]
    dsimp only [Option.elim_some, Option.getD_some]
    split
    · exact keepsAlpha_keep a
    split
    · rename_i hrest
      have hfull : a = 255 := Weight.ofByte_eq_full_iff.mp (by omega)
      exact hfull ▸ keepsAlpha_of_plain trivial
    · exact Weight.le_overlay_rest a

theorem keepsAlpha_ofCoverage (cover : UInt8) (srcAlpha : Option UInt8) :
    (ofCoverage cover srcAlpha).KeepsAlpha (srcAlpha.getD 255) := by
  cases srcAlpha with
  | none => exact keepsAlpha_of_plain (plain_ofCoverage cover)
  | some a =>
    rw [ofCoverage]
    dsimp only [Option.elim_some, Option.getD_some]
    split
    · exact keepsAlpha_keep a
    split
    · split
      · rename_i hrest
        have hfull : a = 255 := by simpa using hrest
        exact hfull ▸ keepsAlpha_of_plain trivial
      · rw [Weight.ofByte_rest]
        exact Weight.le_overlay_rest a
    · intro old
      -- a source that is cut to its share acts as one whose alpha is the share
      have ha := a.toNat_lt
      have hscale₀ := Weight.scale_nonneg (Int.natCast_nonneg a.toNat) (Weight.ofByte_nonneg cover)
      have hscale := Weight.scale_le (Int.natCast_nonneg a.toNat) (Weight.ofByte_le cover)
      have hshare := toNat_byte_ofInt hscale₀ (by omega)
      generalize UInt8.ofInt (Weight.scale a.toNat (Weight.ofByte cover)) = share at hshare
      have hloss := Weight.le_overlay_rest share old
      rwa [exact, Weight.sum, ← hshare, byte_ofInt_rest, Weight.ofByte_rest]

end Mix

/-- No layer of this brush thins an alpha out: it is solid, or its source brings no alpha. -/
def Brush.KeepsAlpha : Brush → Prop
  | .fill _ | .tint _ _ | .masked _ _ _ => True
  | .overlay layer srcAlpha _ => layer.alpha = 255 ∨ srcAlpha = false

instance : (b : Brush) → Decidable b.KeepsAlpha
  | .fill _ | .tint _ _ | .masked _ _ _ => isTrue trivial
  | .overlay _ _ _ => inferInstanceAs (Decidable (_ ∨ _))

namespace Meeting

structure KeepsAlpha (m : Meeting) : Prop where
  within : m.mix.Within m.alpha
  keeps : m.mix.KeepsAlpha m.alpha

theorem KeepsAlpha.paint {m : Meeting} (h : m.KeepsAlpha) {px : List UInt8} {old : UInt8}
    (hold : px[m.color.length]? = some old) :
    ∃ new, (m.paint px)[m.color.length]? = some new ∧ min old.toNat 254 ≤ new.toNat := by
  refine ⟨m.mix.sample m.alpha old, ?_, h.keeps.sample h.within old⟩
  rw [Meeting.paint, samples, List.getElem?_zipWith, List.getElem?_concat_length, hold]

end Meeting

namespace Stroke

variable {s : Stroke} {row out : List UInt8} {f : Family}

theorem keepsAlpha_meetings (h : s.brush.KeepsAlpha) : ∀ m ∈ s.meetings, m.KeepsAlpha := by
  intro m hm
  rcases meetings_cases hm with ⟨mix, color, hplain, rfl⟩ | ⟨layer, srcAlpha, _, hbrush, px, -, rfl⟩ |
    ⟨_, _, _, hbrush, px, -, cover, rfl⟩
  · exact ⟨Mix.within_of_plain hplain _, Mix.keepsAlpha_of_plain hplain⟩
  · rw [hbrush] at h
    refine ⟨Mix.within_ofLayer _ _, Mix.keepsAlpha_ofLayer (h.imp_right ?_)⟩
    rintro rfl
    rfl
  · exact ⟨Mix.within_ofCoverage _ _, Mix.keepsAlpha_ofCoverage _ _⟩

theorem paint_keepsAlpha (halpha : s.shape.alpha = true) (hstart : s.shape.size ∣ s.start)
    (hbrush : s.brush.KeepsAlpha) (h : s.paint row = .ok (f, out)) {i : Nat} {old : UInt8}
    (hold : row[i * s.shape.size + s.shape.colors]? = some old) :
    ∃ new, out[i * s.shape.size + s.shape.colors]? = some new ∧ min old.toNat 254 ≤ new.toNat := by
  have hsize : s.shape.size = s.shape.colors + 1 := by rw [Shape.size, halpha, Bool.toNat_true]
  have hlt : s.shape.colors < s.shape.size := by omega
  have hend : (i + 1) * s.shape.size ≤ row.length := by
    have := (List.getElem?_eq_some_iff.mp hold).1
    rw [Nat.succ_mul]
    omega
  rw [← Row.getElem?_part _ _ hlt] at hold ⊢
  rcases paint_pixel (by omega) hstart h hend with hsame | ⟨m, hm, hcolor, hmet⟩
  · exact ⟨old, hsame ▸ hold, Nat.min_le_left _ _⟩
  · rw [hmet, ← hcolor]
    exact (keepsAlpha_meetings hbrush m hm).paint (hcolor ▸ hold)

/-- A sequence of strokes on whole pixels. What one stroke may take from an alpha of 255 no later
one takes again. -/
theorem paintAll_keepsAlpha {shape : Shape} {strokes : List Stroke} (halpha : shape.alpha = true)
    (hshape : ∀ s ∈ strokes, s.shape = shape) (hstart : ∀ s ∈ strokes, shape.size ∣ s.start)
    (hbrush : ∀ s ∈ strokes, s.brush.KeepsAlpha) (h : paintAll row strokes = .ok out) {i : Nat}
    {old : UInt8} (hold : row[i * shape.size + shape.colors]? = some old) :
    ∃ new, out[i * shape.size + shape.colors]? = some new ∧ min old.toNat 254 ≤ new.toNat := by
  induction strokes generalizing row old with
  | nil =>
    cases h
    exact ⟨old, hold, Nat.min_le_left _ _⟩
  | cons s strokes ih =>
    simp only [List.forall_mem_cons] at hshape hstart hbrush
    obtain ⟨rfl, hshape⟩ := hshape
    rw [paintAll] at h
    split at h
    · rename_i hpaint
      obtain ⟨mid, hmid, hkept⟩ := paint_keepsAlpha halpha hstart.1 hbrush.1 hpaint hold
      obtain ⟨new, hnew, hrest⟩ := ih hshape hstart.2 hbrush.2 h hmid
      exact ⟨new, hnew, by omega⟩
    · exact ih hshape hstart.2 hbrush.2 h hold
    · cases h

/-- However many strokes a row with alpha has taken, no alpha of it has fallen below 254 or below
what it was at the start. Strokes are on whole pixels; fills, tints and masks may bring any colour
and any source, premultiplied or not, and layers a source without alpha or any source if they are
solid. -/
theorem strokes_keep_alpha {shape : Shape} {strokes : List Stroke} (halpha : shape.alpha = true)
    (hshape : ∀ s ∈ strokes, s.shape = shape) (hstart : ∀ s ∈ strokes, shape.size ∣ s.start)
    (hbrush : ∀ s ∈ strokes, s.brush.KeepsAlpha) (row : List UInt8) :
    ∀ done, done <+: strokes → ∀ out, paintAll row done = .ok out →
      ∀ i old, row[i * shape.size + shape.colors]? = some old →
        ∃ new, out[i * shape.size + shape.colors]? = some new ∧ min old.toNat 254 ≤ new.toNat := by
  intro done hdone out hout i old hold
  have hmem : ∀ s ∈ done, s ∈ strokes := fun s hs => hdone.subset hs
  exact paintAll_keepsAlpha halpha (fun s hs => hshape s (hmem s hs))
    (fun s hs => hstart s (hmem s hs)) (fun s hs => hbrush s (hmem s hs)) hout hold

/-- Gray with alpha: a fill, twice a translucent source in a solid layer, and one under a mask.
An alpha of 255 falls to 254 at the first of the layers. -/
def varnish : List Stroke :=
  [⟨.all, ⟨1, true⟩, .fill [200, 128], 2, 1⟩,
   ⟨.all, ⟨1, true⟩, .overlay .solid true [60, 200, 255, 7], 0, 2⟩,
   ⟨.all, ⟨1, true⟩, .overlay .solid true [90, 200, 10, 90], 0, 2⟩,
   ⟨.generalOnly, ⟨1, true⟩, .masked true [60, 200, 7, 7] [200, 77], 0, 2⟩]

theorem strokes_keep_alpha_varnish :
    (∀ s ∈ varnish, s.shape = ⟨1, true⟩) ∧ (∀ s ∈ varnish, 2 ∣ s.start) ∧
    (∀ s ∈ varnish, s.brush.KeepsAlpha) ∧
    ∃ out, paintAll [10, 255, 30, 30] varnish = .ok out ∧
      (∃ new, out[1]? = some new ∧ 254 ≤ new.toNat) ∧ ∃ new, out[3]? = some new ∧ 30 ≤ new.toNat := by
  have hshape : ∀ s ∈ varnish, s.shape = ⟨1, true⟩ := by decide
  have hstart : ∀ s ∈ varnish, Shape.size ⟨1, true⟩ ∣ s.start := by decide
  have hbrush : ∀ s ∈ varnish, s.brush.KeepsAlpha := by decide
  have hout : paintAll [10, 255, 30, 30] varnish = .ok [86, 254, 82, 184] := by
    with_unfolding_all rfl
  have hkept := strokes_keep_alpha rfl hshape hstart hbrush [10, 255, 30, 30] varnish
    (List.prefix_refl _) _ hout
  exact ⟨hshape, hstart, hbrush, _, hout, hkept 0 255 rfl, hkept 1 30 rfl⟩

end Stroke

end Scanline
