import Scanline.Painter.Source
import Scanline.Proofs.Mix
import Scanline.Proofs.Painter.Select
import Scanline.Proofs.Row
/-! All families compose a source row alike. They differ in how they walk: the general walk
asks for a pixel only where the mask covers it, and the specialised ones end with the first
operand that runs out. -/
namespace Scanline

namespace FamilySet

theorem overlayPainter_eq_ok {s : FamilySet} {colors : Nat} {f : Family}
    (h : s.family? colors = some f) (hf : f ≠ .alphaOnly) (da sa : Bool) :
    s.overlayPainter colors da sa = .ok ⟨f, colors, da, sa⟩ := by
  rw [overlayPainter, select_eq_ok h hf]
  rfl

theorem maskPainter_eq_ok {s : FamilySet} {colors : Nat} {f : Family}
    (h : s.family? colors = some f) (hf : f ≠ .alphaOnly) (da sa : Bool) :
    s.maskPainter colors da sa = .ok ⟨f, colors, da, sa⟩ := by
  rw [maskPainter, select_eq_ok h hf]
  rfl

end FamilySet

namespace SourcePainter

theorem pixel_eq (p : SourcePainter) (m : Mix) {s d : List UInt8} (hs : s.length = p.src.size)
    (hd : d.length = p.dst.size) : p.pixel m s d = m.pixel p.src s d := by
  have hle : p.src.colors ≤ s.length := hs ▸ Nat.le_add_right p.colors _
  have hapart := m.apart_eq_pixel p.src p.dst rfl hle hd
  have hwhole := m.whole_eq_pixel p.src p.dst rfl hs hd
  unfold pixel
  split
  · exact hapart
  · exact hapart
  · exact hwhole
  · exact hwhole
  · exact hwhole

def compose (src : Shape) (layer : UInt8) (s : List UInt8) : List UInt8 → List UInt8 :=
  (Mix.ofLayer layer (src.alpha? s)).pixel src s

def cover (src : Shape) (a : List UInt8 × UInt8) : List UInt8 → List UInt8 :=
  (Mix.ofCoverage a.2 (src.alpha? a.1)).pixel src a.1

theorem length_of_mem_pixels {size count : Nat} {row px : List UInt8}
    (h : px ∈ (Row.takePixels size (row.length / size) row).take count) : px.length = size :=
  Row.length_of_mem_takePixels (Nat.div_mul_le_self _ _) (List.mem_of_mem_take h)

/-- No part of this depends on the family. A clear layer has no walk, and one that changes
nothing comes to the same. -/
theorem overlay_eq_zipPaint (p : SourcePainter) (hsrc : Row.Walkable p.src.size)
    (hdst : Row.Walkable p.dst.size) (layer : UInt8) (row src : List UInt8) (count : Nat) :
    p.overlay (.ofByte layer) row src count =
      some (Row.zipPaint p.dst.size (compose p.src layer)
        ((Row.takePixels p.src.size (src.length / p.src.size) src).take count) row) := by
  unfold overlay
  split
  · rename_i hclear
    obtain rfl := Opacity.ofByte_eq_clear_iff.mp hclear
    rw [Row.zipPaint_eq_self]
    intro s hs d hd
    have hle : p.colors ≤ s.length := length_of_mem_pixels hs ▸ Nat.le_add_right _ _
    simpa [compose] using Mix.pixel_keep p.src p.dst rfl hle hd
  · rw [Row.pixels?, if_pos hsrc, Option.bind_eq_bind, Option.bind_some, Row.zipPaint?,
      if_pos hdst, Opacity.alpha_ofByte]
    congr 1
    apply Row.zipPaint_congr
    intro s hs d hd
    exact p.pixel_eq _ (length_of_mem_pixels hs) hd

theorem length_compose {p : SourcePainter} {layer : UInt8} {s d : List UInt8}
    (hs : s.length = p.src.size) (hd : d.length = p.dst.size) :
    (compose p.src layer s d).length = p.dst.size := by
  have hle : p.colors ≤ s.length := hs ▸ Nat.le_add_right _ _
  exact (Mix.length_pixel p.src p.dst _ rfl hle hd).trans hd

theorem overlay_row (p : SourcePainter) (hsrc : Row.Walkable p.src.size)
    (hdst : Row.Walkable p.dst.size) (layer : UInt8) {row src : List UInt8} {count : Nat}
    (hrow : row.length = count * p.dst.size) (hlen : src.length = count * p.src.size) :
    ∃ out, p.overlay (.ofByte layer) row src count = some out ∧
      out.length = count * p.dst.size ∧
      ∀ i < count, Row.part out (i * p.dst.size) p.dst.size =
        compose p.src layer (Row.part src (i * p.src.size) p.src.size)
          (Row.part row (i * p.dst.size) p.dst.size) := by
  have hcount : src.length / p.src.size = count := by
    rw [hlen, Nat.mul_div_cancel _ hsrc.1]
  have hpixels := Row.length_takePixels p.src.size count src
  have hsize : ∀ s ∈ Row.takePixels p.src.size count src, ∀ d : List UInt8,
      d.length = p.dst.size → (compose p.src layer s d).length = p.dst.size :=
    fun s hs d hd =>
      length_compose (Row.length_of_mem_takePixels (Nat.le_of_eq hlen.symm) hs) hd
  have hle : (Row.takePixels p.src.size count src).length * p.dst.size ≤ row.length := by
    simp [hrow]
  refine ⟨_, overlay_eq_zipPaint p hsrc hdst layer row src count, ?_, ?_⟩
  · rw [hcount, List.take_of_length_le (Nat.le_of_eq hpixels), Row.length_zipPaint hsize, hrow]
  · intro i hi
    rw [hcount, List.take_of_length_le (Nat.le_of_eq hpixels)]
    exact Row.part_zipPaint hsize hle (Row.getElem?_takePixels src hi)

theorem cover_uncovered {p : SourcePainter} {s d : List UInt8} (hs : s.length = p.src.size)
    (hd : d.length = p.dst.size) : cover p.src (s, 0) d = d := by
  have hle : p.colors ≤ s.length := hs ▸ Nat.le_add_right _ _
  simpa [cover] using Mix.pixel_keep p.src p.dst rfl hle hd

/-- Behind the first pixel that an operand lacks, the general walk meets no coverage and so
leaves the row as it is. -/
theorem walk_short {p : SourcePainter} {mask row src out : List UInt8}
    (hshort : row.length < p.dst.size ∨ src.length < p.src.size)
    (h : p.walk mask row src = some out) : out = row := by
  induction mask generalizing row src out with
  | nil => exact (Option.some.inj h).symm
  | cons m mask ih =>
    simp only [walk] at h
    split at h
    · obtain ⟨rest, hrest, rfl⟩ := Option.map_eq_some_iff.mp h
      have hnext := ih (by rw [List.length_drop, List.length_drop]; omega) hrest
      rw [hnext, List.take_append_drop]
    · split at h
      · rename_i hfull
        rw [List.length_take, List.length_take] at hfull
        omega
      · cases h

/-- Where the general walk gets through, it has painted what the walk over whole pixels paints. -/
theorem eq_zipPaint_of_walk {p : SourcePainter} {mask row src out : List UInt8}
    (hsrc : 0 < p.src.size) (h : p.walk mask row src = some out) :
    out = Row.zipPaint p.dst.size (cover p.src)
      ((Row.takePixels p.src.size (src.length / p.src.size) src).zip mask) row := by
  induction mask generalizing row src out with
  | nil =>
    rw [List.zip_nil_right]
    exact (Option.some.inj h).symm
  | cons m mask ih =>
    -- the walk over whole pixels ends here, and the general one may only pass without coverage
    by_cases hs : src.length < p.src.size
    · rw [Nat.div_eq_of_lt hs]
      exact walk_short (Or.inr hs) h
    rw [Nat.div_eq_sub_div hsrc (by omega), ← List.length_drop]
    simp only [Row.takePixels, List.zip_cons_cons, Row.zipPaint]
    split
    · exact walk_short (Or.inl ‹_›) h
    rename_i hd
    have htakeSrc : (src.take p.src.size).length = p.src.size := by rw [List.length_take]; omega
    have htakeRow : (row.take p.dst.size).length = p.dst.size := by rw [List.length_take]; omega
    simp only [walk] at h
    split at h
    · obtain ⟨rest, hrest, rfl⟩ := Option.map_eq_some_iff.mp h
      rename_i hm
      rw [hm, cover_uncovered htakeSrc htakeRow, ih hrest]
    · rw [if_pos ⟨htakeRow, htakeSrc⟩] at h
      obtain ⟨rest, hrest, rfl⟩ := Option.map_eq_some_iff.mp h
      rw [p.pixel_eq _ htakeSrc htakeRow, ih hrest]
      rfl

/-- The families without a count of their own walk pixel by pixel. -/
theorem masked_eq_walk {p : SourcePainter} (hf : p.family = .alphaOnly ∨ p.family = .general)
    (row src mask : List UInt8) (count : Nat) :
    p.masked row src mask count = (Row.slice? mask 0 count).bind (p.walk · row src) := by
  rcases hf with hf | hf
  · rw [masked, hf]
    rfl
  · rw [masked, hf]
    rfl

theorem masked_special {p : SourcePainter} (hf : p.family ≠ .alphaOnly ∧ p.family ≠ .general)
    (hsrc : Row.Walkable p.src.size) (hdst : Row.Walkable p.dst.size)
    (row src mask : List UInt8) (count : Nat) :
    p.masked row src mask count = some (Row.zipPaint p.dst.size (cover p.src)
      (((Row.takePixels p.src.size (src.length / p.src.size) src).zip mask).take count) row) := by
  have hwalk : p.masked row src mask count = Row.zipPaint? p.dst.size
      (fun a => p.pixel (.ofCoverage a.2 (p.src.alpha? a.1)) a.1)
      (((Row.takePixels p.src.size (src.length / p.src.size) src).zip mask).take count) row := by
    obtain ⟨hne, hne'⟩ := hf
    unfold masked
    rw [Row.pixels?, if_pos hsrc]
    cases h : p.family with
    | alphaOnly => exact absurd h hne
    | general => exact absurd h hne'
    | gray => rfl
    | rgb => rfl
    | cmyk => rfl
  rw [hwalk, Row.zipPaint?, if_pos hdst]
  congr 1
  apply Row.zipPaint_congr
  intro a ha d hd
  have hmem := (List.of_mem_zip (List.mem_of_mem_take ha)).1
  exact p.pixel_eq _ (Row.length_of_mem_takePixels (Nat.div_mul_le_self _ _) hmem) hd

theorem eq_zipPaint_of_masked_general {p : SourcePainter} (hf : p.family = .general)
    (hsrc : Row.Walkable p.src.size) {row src mask out : List UInt8} {count : Nat}
    (h : p.masked row src mask count = some out) :
    out = Row.zipPaint p.dst.size (cover p.src)
      (((Row.takePixels p.src.size (src.length / p.src.size) src).zip mask).take count) row := by
  rw [masked_eq_walk (Or.inr hf), Row.slice?] at h
  split at h
  · rw [Option.bind_some, List.drop_zero] at h
    rw [eq_zipPaint_of_walk hsrc.1 h, Row.zip_take]
  · cases h

/-- `p` paints through every mask, and `q` paints the same wherever it gets through. -/
def Completes (p q : SourcePainter) : Prop :=
  ∀ row src mask count, ∃ out, p.masked row src mask count = some out ∧
    ∀ out', q.masked row src mask count = some out' → out' = out

theorem completes_general {f : Family} (hf : f ≠ .alphaOnly ∧ f ≠ .general) {n : Nat}
    {da sa : Bool} (hsrc : Row.Walkable (Shape.mk n sa).size)
    (hdst : Row.Walkable (Shape.mk n da).size) :
    Completes ⟨f, n, da, sa⟩ ⟨.general, n, da, sa⟩ := by
  intro row src mask count
  refine ⟨_, masked_special (p := ⟨f, n, da, sa⟩) hf hsrc hdst row src mask count, ?_⟩
  intro out' h
  exact eq_zipPaint_of_masked_general (p := ⟨.general, n, da, sa⟩) rfl hsrc h

/-- Two sets that choose different families for a count compose the same rows, whatever the
operands hold and wherever they end. Through a mask the general family may overrun an operand;
the specialised one never does. -/
theorem source_families_agree {n : Nat} (hn : n = 1 ∨ n = 3 ∨ n = 4) {s t : FamilySet}
    {f g : Family} (hs : s.family? n = some f) (ht : t.family? n = some g) (hne : f ≠ g)
    (da sa : Bool) :
    (∃ p q, s.overlayPainter n da sa = .ok p ∧ t.overlayPainter n da sa = .ok q ∧
      p.family = f ∧ q.family = g ∧
      ∀ layer row src count, ∃ out,
        p.overlay (.ofByte layer) row src count = some out ∧
        q.overlay (.ofByte layer) row src count = some out) ∧
    (∃ p q, s.maskPainter n da sa = .ok p ∧ t.maskPainter n da sa = .ok q ∧
      p.family = f ∧ q.family = g ∧
      ((g = .general ∧ p.Completes q) ∨ (f = .general ∧ q.Completes p))) := by
  have hpos : 0 < n := by omega
  have hf := FamilySet.family?_ne_alphaOnly hpos hs
  have hg := FamilySet.family?_ne_alphaOnly hpos ht
  have hlt : n < sizeMax := by
    simp only [sizeMax]
    omega
  have hsrc := Shape.walkable hpos hlt sa
  have hdst := Shape.walkable hpos hlt da
  constructor
  · refine ⟨⟨f, n, da, sa⟩, ⟨g, n, da, sa⟩, FamilySet.overlayPainter_eq_ok hs hf da sa,
      FamilySet.overlayPainter_eq_ok ht hg da sa, rfl, rfl, ?_⟩
    intro layer row src count
    exact ⟨_, overlay_eq_zipPaint ⟨f, n, da, sa⟩ hsrc hdst layer row src count,
      overlay_eq_zipPaint ⟨g, n, da, sa⟩ hsrc hdst layer row src count⟩
  · refine ⟨⟨f, n, da, sa⟩, ⟨g, n, da, sa⟩, FamilySet.maskPainter_eq_ok hs hf da sa,
      FamilySet.maskPainter_eq_ok ht hg da sa, rfl, rfl, ?_⟩
    rcases FamilySet.family?_differ hpos hs ht hne with ⟨hf', rfl⟩ | ⟨rfl, hg'⟩
    · exact Or.inl ⟨rfl, completes_general ⟨hf, hf'⟩ hsrc hdst⟩
    · exact Or.inr ⟨rfl, completes_general ⟨hg, hg'⟩ hsrc hdst⟩

theorem source_families_agree_rgb :
    FamilySet.all.family? 3 = some .rgb ∧ FamilySet.generalOnly.family? 3 = some .general ∧
    (∃ p q, FamilySet.all.overlayPainter 3 true false = .ok p ∧
      FamilySet.generalOnly.overlayPainter 3 true false = .ok q ∧
      p.family = .rgb ∧ q.family = .general ∧
      ∀ layer row src count, ∃ out,
        p.overlay (.ofByte layer) row src count = some out ∧
        q.overlay (.ofByte layer) row src count = some out) ∧
    (∃ p q, FamilySet.all.maskPainter 3 true false = .ok p ∧
      FamilySet.generalOnly.maskPainter 3 true false = .ok q ∧
      p.family = .rgb ∧ q.family = .general ∧
      ((Family.general = .general ∧ p.Completes q) ∨ (Family.rgb = .general ∧ q.Completes p))) :=
  ⟨rfl, rfl, source_families_agree (by decide) rfl rfl (by decide) true false⟩

end SourcePainter

end Scanline
