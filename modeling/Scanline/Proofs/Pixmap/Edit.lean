import Scanline.Pixmap.Basic
import Scanline.Proofs.Pixmap.Layout
import Scanline.Proofs.Row
/-! Repainting rows one after the other. As long as the strips that are painted do not overlap,
each is painted as it was at the start, and the bytes between them keep their values. -/
namespace Scanline.Pixmap

structure Alike (p q : Pixmap) : Prop where
  layout : q.layout = p.layout
  size : q.samples.length = p.samples.length

theorem Alike.refl (p : Pixmap) : p.Alike p := ⟨rfl, rfl⟩

theorem Alike.trans {p q u : Pixmap} (h : p.Alike q) (h' : q.Alike u) : p.Alike u :=
  ⟨h'.layout.trans h.layout, h'.size.trans h.size⟩

theorem Alike.exists_samples {p q : Pixmap} (h : p.Alike q) : ∃ samples, q = { p with samples } :=
  ⟨q.samples, by rw [← h.layout]⟩

theorem Alike.bounds {p q : Pixmap} (h : p.Alike q) : q.bounds = p.bounds :=
  congrArg Layout.bounds h.layout

theorem Alike.check {p q : Pixmap} (h : p.Alike q) (hp : p.check = .ok ()) : q.check = .ok () := by
  rw [Pixmap.check, h.layout, h.size]
  exact hp

structure Strips (p : Pixmap) (x y : Int) (width height : Nat) (start : Nat → Nat) : Prop where
  offset : ∀ r < height, p.layout.offset? x (y + r) = some (start r)
  within : ∀ r < height, start r + width * p.layout.channels ≤ p.samples.length
  apart : ∀ r r', r < r' → r' < height → start r + width * p.layout.channels ≤ start r'

structure Repainted (p q : Pixmap) (start : Nat → Nat) (length height : Nat)
    (paint : Nat → List UInt8 → Option (List UInt8)) : Prop where
  layout : q.layout = p.layout
  size : q.samples.length = p.samples.length
  inside : ∀ r < height, paint r (Row.part p.samples (start r) length) =
    some (Row.part q.samples (start r) length)
  outside : ∀ b, (∀ r < height, b < start r ∨ start r + length ≤ b) →
    q.samples[b]? = p.samples[b]?

variable {p q : Pixmap} {x y : Int} {width height : Nat} {start : Nat → Nat}
  {paint : Nat → List UInt8 → Option (List UInt8)}

theorem Repainted.alike {length : Nat} (h : Repainted p q start length height paint) :
    p.Alike q := ⟨h.layout, h.size⟩

theorem editSpan?_eq_overwrite {offset : Nat} {f : List UInt8 → Option (List UInt8)}
    {out : List UInt8} (hoffset : p.layout.offset? x y = some offset)
    (hwithin : offset + width * p.layout.channels ≤ p.samples.length)
    (hf : f (Row.part p.samples offset (width * p.layout.channels)) = some out) :
    p.editSpan? x y width f = some { p with samples := Row.overwrite p.samples offset out } := by
  simp only [editSpan?, Row.edit?, hoffset, Row.slice?_eq_part hwithin, hf, Option.bind_eq_bind,
    Option.bind_some]
  rfl

theorem editRows?_succ (p : Pixmap) (x y : Int) (width height : Nat)
    (paint : Nat → List UInt8 → Option (List UInt8)) :
    p.editRows? x y width (height + 1) paint =
      (p.editRows? x y width height paint).bind fun q =>
        q.editSpan? x (y + height) width (paint height) := by
  simp only [editRows?, List.range_succ, List.foldlM_append, List.foldlM_cons, List.foldlM_nil]
  simp

theorem editSpan?_cases {f : List UInt8 → Option (List UInt8)}
    (h : p.editSpan? x y width f = some q) :
    ∃ offset out, p.layout.offset? x y = some offset ∧
      offset + width * p.layout.channels ≤ p.samples.length ∧
      f (Row.part p.samples offset (width * p.layout.channels)) = some out ∧
      q = { p with samples := Row.overwrite p.samples offset out } := by
  obtain ⟨offset, hoffset, h⟩ := Option.bind_eq_some_iff.mp h
  obtain ⟨samples, hedit, hq⟩ := Option.bind_eq_some_iff.mp h
  obtain ⟨part, hpart, hpainted⟩ := Option.bind_eq_some_iff.mp hedit
  obtain ⟨out, hout, hsamples⟩ := Option.bind_eq_some_iff.mp hpainted
  by_cases hwithin : offset + width * p.layout.channels ≤ p.samples.length
  · rw [Row.slice?_eq_part hwithin] at hpart
    obtain rfl := Option.some.inj hpart
    obtain rfl := Option.some.inj hsamples
    exact ⟨offset, out, hoffset, hwithin, hout, (Option.some.inj hq).symm⟩
  · rw [Row.slice?, if_neg hwithin] at hpart
    cases hpart

theorem layout_of_editRows? (h : p.editRows? x y width height paint = some q) :
    q.layout = p.layout := by
  induction height generalizing q with
  | zero =>
    cases h
    rfl
  | succ n ih =>
    rw [editRows?_succ] at h
    obtain ⟨u, hu, h⟩ := Option.bind_eq_some_iff.mp h
    obtain ⟨_, _, -, -, -, rfl⟩ := editSpan?_cases h
    exact show u.layout = p.layout from ih hu

theorem editSpan?_congr {f g : List UInt8 → Option (List UInt8)}
    (h : ∀ row : List UInt8, row.length = width * p.layout.channels → f row = g row) :
    p.editSpan? x y width f = p.editSpan? x y width g := by
  rw [editSpan?, editSpan?]
  cases p.layout.offset? x y with
  | none => rfl
  | some offset =>
    simp only [Option.bind_eq_bind, Option.bind_some, Row.edit?]
    by_cases hwithin : offset + width * p.layout.channels ≤ p.samples.length
    · rw [Row.slice?_eq_part hwithin, Option.bind_some, Option.bind_some,
        h _ (by simp [hwithin])]
    · rw [Row.slice?, if_neg hwithin]
      rfl

/-- Only what a paint makes of rows of the right length counts. -/
theorem editRows?_congr {paint' : Nat → List UInt8 → Option (List UInt8)}
    (h : ∀ r < height, ∀ row : List UInt8, row.length = width * p.layout.channels →
      paint r row = paint' r row) :
    p.editRows? x y width height paint = p.editRows? x y width height paint' := by
  induction height with
  | zero => rfl
  | succ n ih =>
    rw [editRows?_succ, editRows?_succ, ← ih fun r hr => h r (Nat.lt_succ_of_lt hr)]
    cases hq : p.editRows? x y width n paint with
    | none => rfl
    | some q =>
      rw [Option.bind_some, Option.bind_some]
      apply editSpan?_congr
      rw [layout_of_editRows? hq]
      exact h n (Nat.lt_succ_self n)

/-- Rows that are repainted one after the other, wherever they lie: nothing behind or between
their strips changes, as long as the paint keeps the length of a strip. -/
theorem editRows?_outside
    (hlength : ∀ r < height, ∀ row out : List UInt8, row.length = width * p.layout.channels →
      paint r row = some out → out.length = row.length)
    (h : p.editRows? x y width height paint = some q) :
    q.layout = p.layout ∧ q.samples.length = p.samples.length ∧
      ∀ b, (∀ r < height, ∀ offset, p.layout.offset? x (y + r) = some offset →
        b < offset ∨ offset + width * p.layout.channels ≤ b) →
        q.samples[b]? = p.samples[b]? := by
  induction height generalizing q with
  | zero =>
    cases h
    exact ⟨rfl, rfl, fun _ _ => rfl⟩
  | succ n ih =>
    rw [editRows?_succ] at h
    obtain ⟨u, hu, h⟩ := Option.bind_eq_some_iff.mp h
    obtain ⟨hlayout, hsize, hsame⟩ := ih (fun r hr => hlength r (Nat.lt_succ_of_lt hr)) hu
    obtain ⟨offset, out, hoffset, hwithin, hout, rfl⟩ := editSpan?_cases h
    rw [hlayout] at hoffset hwithin hout
    have hrow := Row.length_part hwithin
    have hkeep := hlength n (Nat.lt_succ_self n) _ out hrow hout
    rw [← hkeep.trans hrow] at hwithin
    refine ⟨hlayout, (Row.length_overwrite hwithin).trans hsize, ?_⟩
    intro b hb
    have hstrip := hb n (Nat.lt_succ_self n) offset hoffset
    rw [← hkeep.trans hrow] at hstrip
    rw [← hsame b fun r hr => hb r (Nat.lt_succ_of_lt hr)]
    exact Row.getElem?_overwrite hwithin hstrip

/-- One more strip. It is still as it was, since the earlier strips end before it. -/
theorem Repainted.step {length : Nat} {out : List UInt8}
    (h : Repainted p q start length height paint)
    (hwithin : start height + length ≤ p.samples.length)
    (hapart : ∀ r < height, start r + length ≤ start height)
    (hout : paint height (Row.part p.samples (start height) length) = some out)
    (hlength : out.length = length) :
    Repainted p { q with samples := Row.overwrite q.samples (start height) out } start length
      (height + 1) paint := by
  subst hlength
  have hwithin' : start height + out.length ≤ q.samples.length := h.size ▸ hwithin
  refine ⟨h.layout, (Row.length_overwrite hwithin').trans h.size, ?_, ?_⟩
  · intro r hr
    rcases Nat.lt_succ_iff_lt_or_eq.mp hr with hr | rfl
    · rw [h.inside r hr]
      congr 1
      apply Row.part_congr
      intro b hb hb'
      have := hapart r hr
      exact (Row.getElem?_overwrite hwithin' (Or.inl (by omega))).symm
    · rw [hout]
      congr 1
      exact (Row.part_overwrite hwithin').symm
  · intro b hb
    rw [← h.outside b fun r hr => hb r (Nat.lt_succ_of_lt hr)]
    exact Row.getElem?_overwrite hwithin' (hb height (Nat.lt_succ_self _))

theorem editRows?_repainted (hstrips : Strips p x y width height start)
    (hpaint : ∀ r < height, ∃ out,
      paint r (Row.part p.samples (start r) (width * p.layout.channels)) = some out ∧
        out.length = width * p.layout.channels) :
    ∃ q, p.editRows? x y width height paint = some q ∧
      Repainted p q start (width * p.layout.channels) height paint := by
  -- over the rows that are done: the next strip is still as it was in `p`
  have hrun : ∀ n ≤ height, ∃ q, p.editRows? x y width n paint = some q ∧
      Repainted p q start (width * p.layout.channels) n paint := by
    intro n
    induction n with
    | zero => exact fun _ => ⟨p, rfl, rfl, rfl, nofun, fun _ _ => rfl⟩
    | succ n ih =>
      intro hn
      obtain ⟨q, hq, hrepainted⟩ := ih (by omega)
      obtain ⟨out, hout, hlength⟩ := hpaint n hn
      have hwithin := hstrips.within n hn
      have hsame : Row.part q.samples (start n) (width * p.layout.channels) =
          Row.part p.samples (start n) (width * p.layout.channels) := by
        apply Row.part_congr
        intro b hb _
        apply hrepainted.outside
        intro r hr
        have := hstrips.apart r n hr hn
        omega
      have hedit : q.editSpan? x (y + n) width (paint n) =
          some { q with samples := Row.overwrite q.samples (start n) out } := by
        apply editSpan?_eq_overwrite
        · rw [hrepainted.layout]
          exact hstrips.offset n hn
        · rw [hrepainted.layout, hrepainted.size]
          exact hwithin
        · rw [hrepainted.layout, hsame, hout]
      refine ⟨_, ?_, hrepainted.step hwithin (fun r hr => hstrips.apart r n hr hn) hout hlength⟩
      rw [editRows?_succ, hq, Option.bind_some, hedit]
  exact hrun height (Nat.le_refl _)

section Region

variable {area : Rect}

theorem span?_region (hp : p.check = .ok ()) (harea : ∀ a ∈ area, a ∈ p.bounds)
    (hwidth : 0 < area.width) {r : Nat} (hr : r < area.height) :
    p.span? area.x0 (area.y0 + r) area.width =
      some (Row.part p.samples (p.layout.regionStart area r) (area.width * p.layout.channels)) := by
  rw [span?, Layout.offset?_regionStart harea hwidth hr, Option.bind_eq_bind, Option.bind_some]
  exact Row.slice?_eq_part (Layout.regionStart_le (Layout.serves_of_check hp) harea hwidth hr)

theorem walkable_of_mem (hp : p.check = .ok ()) {a : Int × Int} (ha : a ∈ p.bounds) :
    Row.Walkable p.layout.shape.size := by
  have hserves := Layout.serves_of_check hp
  obtain ⟨i, hi, -⟩ := Layout.mem_bounds ha
  have hrow : p.layout.channels ≤ p.layout.rowBytes := Nat.le_mul_of_pos_left _ (by omega)
  rw [Layout.shape_size hserves.channels_pos]
  exact ⟨hserves.channels_pos, Nat.le_trans hrow hserves.rowBytes_le⟩

theorem walkable_region (hp : p.check = .ok ()) (harea : ∀ a ∈ area, a ∈ p.bounds)
    (hwidth : 0 < area.width) (hheight : 0 < area.height) :
    Row.Walkable p.layout.shape.size :=
  walkable_of_mem hp (harea _ (Rect.mem_iff_exists.mpr ⟨0, hwidth, 0, hheight, rfl, rfl⟩))

theorem pixel_region (hp : p.check = .ok ()) (harea : ∀ a ∈ area, a ∈ p.bounds) {i r : Nat}
    (hi : i < area.width) (hr : r < area.height) :
    p.pixel (area.x0 + i) (area.y0 + r) = .ok (Row.part
      (Row.part p.samples (p.layout.regionStart area r) (area.width * p.layout.channels))
      (i * p.layout.channels) p.layout.channels) := by
  have hrow := Layout.regionStart_le (Layout.serves_of_check hp) harea (by omega) hr
  have hlast := Nat.mul_le_mul_right p.layout.channels (show i + 1 ≤ area.width from hi)
  rw [Nat.succ_mul] at hlast
  rw [Row.part_part _ hlast, pixel, Layout.offset?_region harea hi hr]
  simp only [part]
  rw [Row.slice?_eq_part (by omega)]

theorem strips_region (hp : p.check = .ok ()) (harea : ∀ a ∈ area, a ∈ p.bounds)
    (hwidth : 0 < area.width) :
    Strips p area.x0 area.y0 area.width area.height (p.layout.regionStart area) where
  offset _ hr := Layout.offset?_regionStart harea hwidth hr
  within _ hr := Layout.regionStart_le (Layout.serves_of_check hp) harea hwidth hr
  apart _ _ hr hr' := Layout.regionStart_apart (Layout.serves_of_check hp) harea hwidth hr hr'

/-- Every byte of a strip belongs to a pixel. -/
theorem owns_of_strip (hp : p.check = .ok ()) (harea : ∀ a ∈ area, a ∈ p.bounds) {r b : Nat}
    (hr : r < area.height) (hb : p.layout.regionStart area r ≤ b)
    (hb' : b < p.layout.regionStart area r + area.width * p.layout.channels) :
    ∃ x y, (x, y) ∈ area ∧ p.layout.Owns x y b := by
  obtain ⟨i, hi, hle, hlt⟩ :=
    Layout.exists_column (Layout.serves_of_check hp).channels_pos hb hb'
  exact ⟨area.x0 + i, area.y0 + r, Rect.mem_iff_exists.mpr ⟨i, hi, r, hr, rfl, rfl⟩, _,
    Layout.offset?_region harea hi hr, hle, hlt⟩

theorem getElem?_of_pixel {px : List UInt8} {offset b : Nat} (hpx : p.pixel x y = .ok px)
    (hoffset : p.layout.offset? x y = some offset) (hb : offset ≤ b)
    (hb' : b < offset + p.layout.channels) : px[b - offset]? = p.samples[b]? := by
  simp only [pixel, hoffset, part] at hpx
  by_cases hwithin : offset + p.layout.channels ≤ p.samples.length
  · rw [Row.slice?_eq_part hwithin] at hpx
    cases hpx
    rw [Row.part, List.getElem?_take_of_lt (by omega), List.getElem?_drop,
      Nat.add_sub_cancel' hb]
  · rw [Row.slice?, if_neg hwithin] at hpx
    cases hpx

theorem length_of_pixel {px : List UInt8} (hpx : p.pixel x y = .ok px) :
    px.length = p.layout.channels := by
  rw [pixel] at hpx
  split at hpx
  · rename_i start hstart
    rw [part] at hpx
    by_cases hwithin : start + p.layout.channels ≤ p.samples.length
    · rw [Row.slice?_eq_part hwithin] at hpx
      cases hpx
      simp [hwithin]
    · rw [Row.slice?, if_neg hwithin] at hpx
      cases hpx
  · cases hpx

theorem offset_within (hp : p.check = .ok ()) (hmem : (x, y) ∈ p.bounds) :
    ∃ offset, p.layout.offset? x y = some offset ∧
      offset + p.layout.channels ≤ p.samples.length :=
  Layout.offset?_within (Layout.serves_of_check hp) hmem

theorem exists_pixel (hp : p.check = .ok ()) (hmem : (x, y) ∈ p.bounds) :
    ∃ px, p.pixel x y = .ok px := by
  obtain ⟨offset, hoffset, hend⟩ := offset_within hp hmem
  simp only [pixel, hoffset, part, Row.slice?_eq_part hend]
  exact ⟨_, rfl⟩

/-- In `q` each pixel of a region comes by `Pixel` from the one in `p`, and every byte that
belongs to none of them is as it was. -/
structure RegionPainted (p q : Pixmap) (area : Rect)
    (Pixel : Int → Int → List UInt8 → List UInt8 → Prop) : Prop where
  layout : q.layout = p.layout
  size : q.samples.length = p.samples.length
  inside : ∀ x y, (x, y) ∈ area →
    ∃ old new, p.pixel x y = .ok old ∧ q.pixel x y = .ok new ∧ Pixel x y old new
  outside : ∀ b, (∀ x y, (x, y) ∈ area → ¬ p.layout.Owns x y b) → q.samples[b]? = p.samples[b]?

theorem RegionPainted.alike {Pixel : Int → Int → List UInt8 → List UInt8 → Prop}
    (h : RegionPainted p q area Pixel) : p.Alike q := ⟨h.layout, h.size⟩

theorem RegionPainted.of_isEmpty {Pixel : Int → Int → List UInt8 → List UInt8 → Prop}
    (h : area.IsEmpty) : RegionPainted p p area Pixel :=
  ⟨rfl, rfl, fun _ _ hmem => absurd hmem (Rect.not_mem_of_isEmpty h _), fun _ _ => rfl⟩

theorem RegionPainted.pixel_outside {Pixel : Int → Int → List UInt8 → List UInt8 → Prop}
    (h : RegionPainted p q area Pixel) (hp : p.check = .ok ()) {x y : Int} (hmem : (x, y) ∉ area) :
    q.pixel x y = p.pixel x y := by
  rw [pixel, pixel, h.layout]
  cases hoffset : p.layout.offset? x y with
  | none => rfl
  | some start =>
    have hsame : Row.part q.samples start p.layout.channels =
        Row.part p.samples start p.layout.channels := by
      apply Row.part_congr
      intro b hb hb'
      apply h.outside
      intro x' y' hmem' howns
      obtain ⟨rfl, rfl⟩ := Layout.owns_unique (Layout.serves_of_check hp) howns
        ⟨start, hoffset, hb, hb'⟩
      exact hmem hmem'
    simp only [part, Row.slice?, h.size]
    rw [← Row.part, ← Row.part, hsame]

theorem RegionPainted.mono {Pixel Pixel' : Int → Int → List UInt8 → List UInt8 → Prop}
    (h : RegionPainted p q area Pixel)
    (hpixel : ∀ x y, (x, y) ∈ area → ∀ old new, Pixel x y old new → Pixel' x y old new) :
    RegionPainted p q area Pixel' := by
  refine ⟨h.layout, h.size, ?_, h.outside⟩
  intro x y hmem
  obtain ⟨old, new, hold, hnew, hrule⟩ := h.inside x y hmem
  exact ⟨old, new, hold, hnew, hpixel x y hmem old new hrule⟩

/-- What is painted fixes the result, where the paint of a pixel does. -/
theorem RegionPainted.unique {Pixel : Int → Int → List UInt8 → List UInt8 → Prop} {q' : Pixmap}
    (h : RegionPainted p q area Pixel) (h' : RegionPainted p q' area Pixel)
    (hpixel : ∀ x y old new new', Pixel x y old new → Pixel x y old new' → new = new') :
    q = q' := by
  have hlayout : q.layout = q'.layout := h.layout.trans h'.layout.symm
  have hsamples : q.samples = q'.samples := by
    apply List.ext_getElem?
    intro b
    by_cases howned : ∃ x y, (x, y) ∈ area ∧ p.layout.Owns x y b
    · obtain ⟨x, y, hmem, start, hstart, hb, hb'⟩ := howned
      obtain ⟨old, new, hold, hnew, hrule⟩ := h.inside x y hmem
      obtain ⟨old', new', hold', hnew', hrule'⟩ := h'.inside x y hmem
      cases hold.symm.trans hold'
      rw [← hpixel x y old new new' hrule hrule'] at hnew'
      rw [← getElem?_of_pixel hnew (h.layout ▸ hstart) hb (h.layout ▸ hb'),
        getElem?_of_pixel hnew' (h'.layout ▸ hstart) hb (h'.layout ▸ hb')]
    · have hfree : ∀ x y, (x, y) ∈ area → ¬ p.layout.Owns x y b :=
        fun x y hmem howns => howned ⟨x, y, hmem, howns⟩
      rw [h.outside b hfree, h'.outside b hfree]
  cases q
  cases q'
  simp only at hlayout hsamples
  rw [hlayout, hsamples]

/-- A paint that leaves the pixels of its region as they are leaves the pixmap as it is. -/
theorem RegionPainted.eq_of_idle {Pixel : Int → Int → List UInt8 → List UInt8 → Prop}
    (h : RegionPainted p q area Pixel)
    (hidle : ∀ x y old new, (x, y) ∈ area → p.pixel x y = .ok old → Pixel x y old new →
      new = old) : q = p := by
  have hpainted : RegionPainted p q area fun _ _ old new => new = old := by
    refine ⟨h.layout, h.size, ?_, h.outside⟩
    intro x y hmem
    obtain ⟨old, new, hold, hnew, hrule⟩ := h.inside x y hmem
    exact ⟨old, new, hold, hnew, hidle x y old new hmem hold hrule⟩
  have hself : RegionPainted p p area fun _ _ old new => new = old := by
    refine ⟨rfl, rfl, ?_, fun _ _ => rfl⟩
    intro x y hmem
    obtain ⟨old, _, hold, -⟩ := h.inside x y hmem
    exact ⟨old, old, hold, hold, rfl⟩
  exact hpainted.unique hself fun _ _ _ _ _ hnew hnew' => hnew.trans hnew'.symm

/-- A paint that does its pixels on each row does them on the whole region. -/
theorem editRows?_region {Pixel : Int → Int → List UInt8 → List UInt8 → Prop}
    (hp : p.check = .ok ()) (harea : ∀ a ∈ area, a ∈ p.bounds) (hwidth : 0 < area.width)
    (hpaint : ∀ r < area.height, ∀ row : List UInt8,
      row.length = area.width * p.layout.channels → ∃ out, paint r row = some out ∧
        out.length = area.width * p.layout.channels ∧
        ∀ i < area.width, Pixel (area.x0 + i) (area.y0 + r)
          (Row.part row (i * p.layout.channels) p.layout.channels)
          (Row.part out (i * p.layout.channels) p.layout.channels)) :
    ∃ q, p.editRows? area.x0 area.y0 area.width area.height paint = some q ∧
      RegionPainted p q area Pixel := by
  have hstrips := strips_region hp harea hwidth
  have hrow : ∀ r < area.height, (Row.part p.samples (p.layout.regionStart area r)
      (area.width * p.layout.channels)).length = area.width * p.layout.channels :=
    fun r hr => Row.length_part (hstrips.within r hr)
  have hstrip : ∀ r < area.height, ∃ out,
      paint r (Row.part p.samples (p.layout.regionStart area r)
        (area.width * p.layout.channels)) = some out ∧
      out.length = area.width * p.layout.channels := by
    intro r hr
    obtain ⟨out, hout, hlength, -⟩ := hpaint r hr _ (hrow r hr)
    exact ⟨out, hout, hlength⟩
  obtain ⟨q, hq, hrepainted⟩ := editRows?_repainted hstrips hstrip
  refine ⟨q, hq, hrepainted.layout, hrepainted.size, ?_, ?_⟩
  · intro x y hmem
    obtain ⟨i, hi, r, hr, rfl, rfl⟩ := Rect.mem_iff_exists.mp hmem
    obtain ⟨out, hout, -, hpixel⟩ := hpaint r hr _ (hrow r hr)
    have hareaq : ∀ a ∈ area, a ∈ q.bounds := by
      rw [bounds, hrepainted.layout]
      exact harea
    have hnew := pixel_region (hrepainted.alike.check hp) hareaq hi hr
    rw [hrepainted.layout, Option.some.inj ((hrepainted.inside r hr).symm.trans hout)] at hnew
    exact ⟨_, _, pixel_region hp harea hi hr, hnew, hpixel i hi⟩
  · intro b hb
    apply hrepainted.outside
    intro r hr
    rcases Nat.lt_or_ge b (p.layout.regionStart area r) with hlt | hge
    · exact Or.inl hlt
    rcases Nat.lt_or_ge b (p.layout.regionStart area r + area.width * p.layout.channels)
      with hlt | hge'
    · obtain ⟨x, y, hmem, howns⟩ := owns_of_strip hp harea hr hge hlt
      exact absurd howns (hb x y hmem)
    · exact Or.inr hge'

end Region

end Scanline.Pixmap
