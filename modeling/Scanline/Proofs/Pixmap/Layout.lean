import Scanline.Pixmap.Layout
import Scanline.Proofs.Rect
/-! Addresses. Pixel `i` of row `j` stands at `j * stride + i * channels`. In a layout that
serves its buffer all of these are inside, and no two pixels share a byte. -/
namespace Scanline.Layout

structure Serves (l : Layout) (length : Nat) : Prop where
  channels_pos : 0 < l.channels
  rowBytes_le : l.rowBytes ≤ sizeMax
  row_le_stride : l.rowBytes ≤ l.stride
  needed_le : l.needed ≤ length

theorem serves_of_check {l : Layout} {length : Nat} (h : l.check length = .ok ()) :
    l.Serves length := by
  unfold check at h
  split at h
  · cases h
  split at h
  · cases h
  split at h
  · cases h
  split at h
  · cases h
  split at h
  · cases h
  exact ⟨by omega, by omega, by omega, by omega⟩

def position (l : Layout) (i j : Nat) : Nat := j * l.stride + i * l.channels

theorem position_add (l : Layout) (i n j : Nat) :
    l.position (i + n) j = l.position i j + n * l.channels := by
  unfold position
  rw [Nat.add_mul, Nat.add_assoc]

theorem position_le_row {l : Layout} {i : Nat} (hi : i ≤ l.width) (j : Nat) :
    l.position i j ≤ j * l.stride + l.rowBytes :=
  Nat.add_le_add_left (Nat.mul_le_mul_right _ hi) _

theorem position_le {l : Layout} {length i j : Nat} (hl : l.Serves length) (hi : i ≤ l.width)
    (hj : j < l.height) : l.position i j ≤ length := by
  have hneeded := hl.needed_le
  have hrow := Nat.mul_le_mul_right l.stride (show j ≤ l.height - 1 by omega)
  have := position_le_row hi j
  rw [needed, if_neg (by omega)] at hneeded
  omega

theorem position_lt_rows {l : Layout} {length i i' j j' : Nat} (hl : l.Serves length)
    (hi : i ≤ l.width) (hj : j < j') : l.position i j ≤ l.position i' j' := by
  have hrow := Nat.mul_le_mul_right l.stride (show j + 1 ≤ j' by omega)
  have := position_le_row hi j
  have := hl.row_le_stride
  rw [Nat.succ_mul] at hrow
  simp only [position] at *
  omega

theorem mem_bounds {l : Layout} {x y : Int} (h : (x, y) ∈ l.bounds) :
    ∃ i < l.width, ∃ j < l.height, x = l.x + i ∧ y = l.y + j := by
  simp only [bounds, Rect.mem_iff, Rect.ofSize] at h
  exact ⟨(x - l.x).toNat, by omega, (y - l.y).toNat, by omega, by omega, by omega⟩

theorem offset?_eq_position {l : Layout} {x y : Int} (h : (x, y) ∈ l.bounds) :
    ∃ i < l.width, ∃ j < l.height, x = l.x + i ∧ y = l.y + j ∧
      l.offset? x y = some (l.position i j) := by
  obtain ⟨i, hi, j, hj, hx, hy⟩ := mem_bounds h
  refine ⟨i, hi, j, hj, hx, hy, ?_⟩
  rw [offset?, if_pos h, position, show (x - l.x).toNat = i by omega,
    show (y - l.y).toNat = j by omega]

theorem mem_bounds_of_offset? {l : Layout} {x y : Int} {start : Nat}
    (h : l.offset? x y = some start) : (x, y) ∈ l.bounds := by
  rw [offset?] at h
  split at h
  · assumption
  · cases h

theorem offset?_within {l : Layout} {length : Nat} (hl : l.Serves length) {x y : Int}
    (h : (x, y) ∈ l.bounds) :
    ∃ start, l.offset? x y = some start ∧ start + l.channels ≤ length := by
  obtain ⟨i, hi, j, hj, -, -, hoffset⟩ := offset?_eq_position h
  have hend := position_le hl (show i + 1 ≤ _ from hi) hj
  rw [position_add, Nat.one_mul] at hend
  exact ⟨_, hoffset, hend⟩

theorem colors_add_alpha {l : Layout} (h : 0 < l.channels) :
    l.colors + l.hasAlpha.toNat = l.channels := by
  have := l.hasAlpha.toNat_le
  simp only [colors]
  omega

theorem shape_size {l : Layout} (h : 0 < l.channels) : l.shape.size = l.channels :=
  colors_add_alpha h

theorem hasAlpha_of_colors_eq_zero {l : Layout} (h : 0 < l.channels) (hcolors : l.colors = 0) :
    l.hasAlpha = true := by
  have hadd := colors_add_alpha h
  cases halpha : l.hasAlpha with
  | false =>
    rw [halpha, Bool.toNat_false] at hadd
    omega
  | true => rfl

theorem channels_of_colors_eq_zero {l : Layout} (h : 0 < l.channels) (hcolors : l.colors = 0) :
    l.channels = 1 := by
  have hadd := colors_add_alpha h
  rw [hcolors, hasAlpha_of_colors_eq_zero h hcolors] at hadd
  exact hadd.symm

theorem exists_column {start width channels b : Nat} (hchannels : 0 < channels) (hb : start ≤ b)
    (hb' : b < start + width * channels) :
    ∃ i < width, start + i * channels ≤ b ∧ b < start + i * channels + channels := by
  have hi : (b - start) / channels < width := (Nat.div_lt_iff_lt_mul hchannels).mpr (by omega)
  have hle : (b - start) / channels * channels ≤ b - start := Nat.div_mul_le_self _ _
  have hlt : b - start < (b - start) / channels * channels + channels :=
    Nat.lt_div_mul_add hchannels
  exact ⟨_, hi, by omega, by omega⟩

/-- The row and the column of a byte in a strip of pixels, which need not end with the row. -/
theorem column_of_strip {l : Layout} (hl : 0 < l.channels) {x y : Int} {start width b : Nat}
    (hstart : l.offset? x y = some start) (hb : start ≤ b)
    (hb' : b < start + width * l.channels) :
    ∃ i : Nat, ∃ j < l.height, x ≤ l.x + i ∧ l.x + i < x + width ∧ y = l.y + j ∧
      l.position i j ≤ b ∧ b < l.position (i + 1) j := by
  obtain ⟨k, hk, hle, hlt⟩ := exists_column hl hb hb'
  obtain ⟨i, -, j, hj, hx, hy, hposition⟩ := offset?_eq_position (mem_bounds_of_offset? hstart)
  obtain rfl := Option.some.inj (hstart.symm.trans hposition)
  rw [← position_add] at hle hlt
  refine ⟨i + k, j, hj, by omega, by omega, hy, hle, ?_⟩
  rw [position_add, Nat.one_mul]
  exact hlt

section Region

variable {l : Layout} {area : Rect} {length : Nat}

def regionStart (l : Layout) (area : Rect) (r : Nat) : Nat :=
  l.position (area.x0 - l.x).toNat (area.y0 + r - l.y).toNat

theorem exists_corners (harea : ∀ p ∈ area, p ∈ l.bounds) (hwidth : 0 < area.width)
    (hheight : 0 < area.height) :
    ∃ i j : Nat, i + area.width ≤ l.width ∧ j + area.height ≤ l.height ∧
      ∀ r, l.regionStart area r = l.position i (j + r) := by
  obtain ⟨i, _, j, _, hx, hy⟩ := mem_bounds
    (harea _ (Rect.mem_iff_exists.mpr ⟨0, hwidth, 0, hheight, rfl, rfl⟩))
  obtain ⟨i', hi', j', hj', hx', hy'⟩ := mem_bounds
    (harea _ (Rect.mem_iff_exists.mpr
      ⟨area.width - 1, by omega, area.height - 1, by omega, rfl, rfl⟩))
  refine ⟨i, j, by omega, by omega, ?_⟩
  intro r
  rw [regionStart]
  congr 1 <;> omega

theorem offset?_region (harea : ∀ p ∈ area, p ∈ l.bounds) {i r : Nat} (hi : i < area.width)
    (hr : r < area.height) :
    l.offset? (area.x0 + i) (area.y0 + r) = some (l.regionStart area r + i * l.channels) := by
  have hmem := harea _ (Rect.mem_iff_exists.mpr ⟨i, hi, r, hr, rfl, rfl⟩)
  have hfirst := harea _ (Rect.mem_iff_exists.mpr ⟨0, by omega, r, hr, rfl, rfl⟩)
  obtain ⟨_, _, _, _, hx, _⟩ := mem_bounds hfirst
  rw [offset?, if_pos hmem, regionStart, ← position_add, position]
  congr 3
  omega

theorem offset?_regionStart (harea : ∀ p ∈ area, p ∈ l.bounds) (hwidth : 0 < area.width)
    {r : Nat} (hr : r < area.height) :
    l.offset? area.x0 (area.y0 + r) = some (l.regionStart area r) := by
  simpa using offset?_region harea hwidth hr

theorem regionStart_le (hl : l.Serves length) (harea : ∀ p ∈ area, p ∈ l.bounds)
    (hwidth : 0 < area.width) {r : Nat} (hr : r < area.height) :
    l.regionStart area r + area.width * l.channels ≤ length := by
  obtain ⟨i, j, hi, hj, hstart⟩ := exists_corners harea hwidth (by omega)
  rw [hstart, ← position_add]
  exact position_le hl hi (by omega)

theorem regionStart_apart (hl : l.Serves length) (harea : ∀ p ∈ area, p ∈ l.bounds)
    (hwidth : 0 < area.width) {r r' : Nat} (hr : r < r') (hr' : r' < area.height) :
    l.regionStart area r + area.width * l.channels ≤ l.regionStart area r' := by
  obtain ⟨i, j, hi, hj, hstart⟩ := exists_corners harea hwidth (by omega)
  rw [hstart, hstart, ← position_add]
  exact position_lt_rows hl hi (by omega)

end Region

def Owns (l : Layout) (x y : Int) (b : Nat) : Prop :=
  ∃ start, l.offset? x y = some start ∧ start ≤ b ∧ b < start + l.channels

theorem exists_position_of_owns {l : Layout} {x y : Int} {b : Nat} (h : l.Owns x y b) :
    ∃ i j : Nat, i < l.width ∧ x = l.x + i ∧ y = l.y + j ∧
      l.position i j ≤ b ∧ b < l.position (i + 1) j := by
  obtain ⟨start, hstart, hb, hb'⟩ := h
  obtain ⟨i, hi, j, -, hx, hy, hposition⟩ := offset?_eq_position (mem_bounds_of_offset? hstart)
  obtain rfl := Option.some.inj (hstart.symm.trans hposition)
  refine ⟨i, j, hi, hx, hy, hb, ?_⟩
  rw [position_add, Nat.one_mul]
  exact hb'

/-- No two pixels share a byte. -/
theorem owns_unique {l : Layout} {length : Nat} (hl : l.Serves length) {x y x' y' : Int} {b : Nat}
    (h : l.Owns x y b) (h' : l.Owns x' y' b) : x = x' ∧ y = y' := by
  obtain ⟨i, j, hi, rfl, rfl, hb, hlt⟩ := exists_position_of_owns h
  obtain ⟨i', j', hi', rfl, rfl, hb', hlt'⟩ := exists_position_of_owns h'
  rcases Nat.lt_trichotomy j j' with hj | rfl | hj
  · have : l.position (i + 1) j ≤ l.position i' j' := position_lt_rows hl hi hj
    omega
  · rcases Nat.lt_trichotomy i i' with hii | rfl | hii
    · have := Nat.mul_le_mul_right l.channels (show i + 1 ≤ i' from hii)
      simp only [position] at *
      omega
    · exact ⟨rfl, rfl⟩
    · have := Nat.mul_le_mul_right l.channels (show i' + 1 ≤ i from hii)
      simp only [position] at *
      omega
  · have : l.position (i' + 1) j' ≤ l.position i j := position_lt_rows hl hi' hj
    omega

end Scanline.Layout
