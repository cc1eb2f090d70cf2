import Scanline.Proofs.Pixmap.Edit
/-! What the check of a layout is good for. It passes if and only if there are samples and every
row has its place in the buffer, and a layout that has passed it finds all of its pixels there,
each in bytes of its own, and in the row that it belongs to. -/
namespace Scanline

namespace Layout

variable {l : Layout} {length : Nat}

/-- It is the last row that needs the most. -/
theorem needed_le_iff :
    l.needed ≤ length ↔ ∀ y < l.height, y * l.stride + l.rowBytes ≤ length := by
  rw [needed]
  split
  · rename_i hheight
    exact iff_of_true (Nat.zero_le _) fun y hy => absurd hy (by omega)
  · constructor
    · intro h y hy
      have hrows := Nat.mul_le_mul_right l.stride (show y ≤ l.height - 1 by omega)
      omega
    · intro h
      exact h (l.height - 1) (by omega)

section Check

variable (hrow : l.rowBytes ≤ sizeMax) (hneeded : l.needed ≤ sizeMax)
include hrow hneeded

theorem check_eq_ok_iff :
    l.check length = .ok () ↔
      1 ≤ l.channels ∧ l.rowBytes ≤ l.stride ∧ l.needed ≤ length := by
  constructor
  · intro h
    have hserves := serves_of_check h
    exact ⟨hserves.channels_pos, hserves.row_le_stride, hserves.needed_le⟩
  · rintro ⟨hchannels, hstride, hlength⟩
    rw [check, if_neg (Nat.ne_of_gt hchannels), if_neg (Nat.not_lt.mpr hrow),
      if_neg (Nat.not_lt.mpr hstride), if_neg (Nat.not_lt.mpr hneeded),
      if_neg (Nat.not_lt.mpr hlength)]

/-- Where no size is too large a check has but two ends. -/
theorem check_ok_or_flaw :
    l.check length = .ok () ∨ ∃ flaw, l.check length = .error (.refused (.badLayout flaw)) := by
  rw [check, if_neg (Nat.not_lt.mpr hrow), if_neg (Nat.not_lt.mpr hneeded)]
  split
  · exact Or.inr ⟨_, rfl⟩
  split
  · exact Or.inr ⟨_, rfl⟩
  split
  · exact Or.inr ⟨_, rfl⟩
  · exact Or.inl rfl

end Check

/-- If the bytes of two pixels met, the later of the two starts would be a byte of both. -/
theorem offsets_apart (hl : l.Serves length) {x y x' y' : Int} {start start' : Nat}
    (h : l.offset? x y = some start) (h' : l.offset? x' y' = some start')
    (hne : (x, y) ≠ (x', y')) :
    start + l.channels ≤ start' ∨ start' + l.channels ≤ start := by
  rcases Nat.lt_or_ge start' (start + l.channels) with hlt | hge
  case inr => exact Or.inl hge
  rcases Nat.lt_or_ge start (start' + l.channels) with hlt' | hge'
  case inr => exact Or.inr hge'
  have hpos := hl.channels_pos
  have howns : l.Owns x y (max start start') := ⟨start, h, by omega, by omega⟩
  have howns' : l.Owns x' y' (max start start') := ⟨start', h', by omega, by omega⟩
  obtain ⟨rfl, rfl⟩ := owns_unique hl howns howns'
  exact absurd rfl hne

end Layout

namespace Pixmap

variable {p : Pixmap}

theorem row_eq_part (hp : p.check = .ok ()) {j : Nat} (hj : j < p.layout.height) :
    p.row j = .ok (Row.part p.samples (j * p.layout.stride) p.layout.rowBytes) := by
  have hwithin := Layout.needed_le_iff.mp (Layout.serves_of_check hp).needed_le j hj
  rw [row, if_pos hj, part, Row.slice?_eq_part hwithin]

/-- A pixel lies in its row, as many pixels behind the start as in device space. -/
theorem pixel_of_row (hp : p.check = .ok ()) {i j : Nat}
    (hmem : (p.layout.x + i, p.layout.y + j) ∈ p.bounds) :
    ∃ row px, p.row j = .ok row ∧ p.pixel (p.layout.x + i) (p.layout.y + j) = .ok px ∧
      Row.slice? row (i * p.layout.channels) p.layout.channels = some px := by
  obtain ⟨i', hi', j', hj', hx, hy, hoffset⟩ := Layout.offset?_eq_position hmem
  obtain rfl : i = i' := by omega
  obtain rfl : j = j' := by omega
  have hserves := Layout.serves_of_check hp
  have hrow := Layout.needed_le_iff.mp hserves.needed_le j hj'
  have hlast : i * p.layout.channels + p.layout.channels ≤ p.layout.rowBytes := by
    rw [← Nat.succ_mul]
    exact Nat.mul_le_mul_right _ hi'
  have hend : p.layout.position i j + p.layout.channels ≤ p.samples.length := by
    rw [Layout.position]
    omega
  refine ⟨_, Row.part p.samples (p.layout.position i j) p.layout.channels, row_eq_part hp hj',
    ?_, ?_⟩
  · simp only [pixel, hoffset, part, Row.slice?_eq_part hend]
  · rw [Row.slice?_eq_part (by simpa [hrow] using hlast), Row.part_part _ hlast]
    rfl

end Pixmap

namespace Layout

variable {l : Layout} {length : Nat}

/-- The pixels of a layout in a buffer: how far they are from the first one, that they are inside,
that no two share a byte, and where they are in their rows. -/
structure Addresses (l : Layout) (length : Nat) : Prop where
  near : ∀ x y, (x, y) ∈ l.bounds →
    0 ≤ x - l.x ∧ x - l.x ≤ coordMax ∧ 0 ≤ y - l.y ∧ y - l.y ≤ coordMax
  within : ∀ x y, (x, y) ∈ l.bounds →
    ∃ start, l.offset? x y = some start ∧ start + l.channels ≤ length
  apart : ∀ x y x' y' start start', l.offset? x y = some start → l.offset? x' y' = some start' →
    (x, y) ≠ (x', y') → start + l.channels ≤ start' ∨ start' + l.channels ≤ start
  rows : ∀ samples : List UInt8, samples.length = length → ∀ i j : Nat,
    (l.x + i, l.y + j) ∈ l.bounds →
      ∃ row px, (Pixmap.mk l samples).row j = .ok row ∧
        (Pixmap.mk l samples).pixel (l.x + i) (l.y + j) = .ok px ∧
        Row.slice? row (i * l.channels) l.channels = some px

theorem addresses_of_check (hwidth : (l.width : Int) ≤ coordMax)
    (hheight : (l.height : Int) ≤ coordMax) (h : l.check length = .ok ()) :
    l.Addresses length where
  near x y hmem := by
    obtain ⟨i, hi, j, hj, rfl, rfl⟩ := mem_bounds hmem
    omega
  within _ _ hmem := offset?_within (serves_of_check h) hmem
  apart _ _ _ _ _ _ hstart hstart' hne := offsets_apart (serves_of_check h) hstart hstart' hne
  rows samples hsamples i j hmem := by
    subst hsamples
    exact Pixmap.pixel_of_row (p := ⟨l, samples⟩) h hmem

/-- A layout whose sizes do not exceed `sizeMax` passes its check if and only if it has samples, its
rows do not run into each other and all of them are in the buffer; otherwise it has a flaw. Once it
has passed, its pixels have their places, as long as the distances between them are device
coordinates. -/
theorem check_secures_pixels (hrow : l.rowBytes ≤ sizeMax) (hneeded : l.needed ≤ sizeMax)
    (length : Nat) :
    (l.check length = .ok () ↔ 1 ≤ l.channels ∧ l.rowBytes ≤ l.stride ∧
      ∀ y < l.height, y * l.stride + l.rowBytes ≤ length) ∧
    (l.check length = .ok () ∨ ∃ flaw, l.check length = .error (.refused (.badLayout flaw))) ∧
    ((l.width : Int) ≤ coordMax → (l.height : Int) ≤ coordMax → l.check length = .ok () →
      l.Addresses length) := by
  refine ⟨?_, check_ok_or_flaw hrow hneeded, addresses_of_check⟩
  rw [check_eq_ok_iff hrow hneeded, needed_le_iff]

/-- Two rows of three pixels, of which only the first is a device pixel, and no padding behind the
last row. -/
def ledge : Layout := ⟨2147483646, -5, 3, 2, 2, true, 9⟩

theorem check_secures_pixels_ledge :
    ledge.rowBytes ≤ sizeMax ∧ ledge.needed ≤ sizeMax ∧ ledge.check 15 = .ok () ∧
    (2147483646, -4) ∈ ledge.bounds ∧ ledge.Addresses 15 ∧
    ∃ flaw, ledge.check 14 = .error (.refused (.badLayout flaw)) := by
  have hrow : ledge.rowBytes ≤ sizeMax := by decide
  have hneeded : ledge.needed ≤ sizeMax := by decide
  obtain ⟨hiff, -, haddresses⟩ := check_secures_pixels hrow hneeded 15
  obtain ⟨hiff', hcases, -⟩ := check_secures_pixels hrow hneeded 14
  have hok : ledge.check 15 = .ok () := hiff.mpr (by decide)
  have hshort : ledge.check 14 ≠ .ok () := fun h => absurd (hiff'.mp h) (by decide)
  exact ⟨hrow, hneeded, hok, by decide, haddresses (by decide) (by decide) hok,
    hcases.resolve_left hshort⟩

end Layout

end Scanline
