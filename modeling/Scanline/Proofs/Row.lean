import Scanline.Row
/-! Pixels of a row. A walk over whole pixels changes pixel `i` by the paint of operand `i` and
nothing else, as long as the paint keeps the size of a pixel. -/
namespace Scanline.Row

/-- The bytes of a row from `start` on. Pixel `i` is the part at `i * size`. -/
def part (row : List UInt8) (start length : Nat) : List UInt8 := (row.drop start).take length

@[simp] theorem length_part {row : List UInt8} {start length : Nat}
    (h : start + length ≤ row.length) :
    (part row start length).length = length := by
  rw [part, List.length_take, List.length_drop]
  omega

theorem slice?_eq_part {row : List UInt8} {start length : Nat}
    (h : start + length ≤ row.length) : slice? row start length = some (part row start length) :=
  if_pos h

theorem part_part (row : List UInt8) {start length a n : Nat} (h : a + n ≤ length) :
    part (part row start length) a n = part row (start + a) n := by
  simp only [part, List.drop_take, List.take_take, List.drop_drop]
  congr 1
  omega

theorem getElem?_part (row : List UInt8) (start : Nat) {length k : Nat} (h : k < length) :
    (part row start length)[k]? = row[start + k]? := by
  rw [part, List.getElem?_take_of_lt h, List.getElem?_drop]

theorem part_drop (row : List UInt8) (n start length : Nat) :
    part (row.drop n) start length = part row (n + start) length := by
  rw [part, part, List.drop_drop]

theorem part_take {row : List UInt8} {n start length : Nat} (h : start + length ≤ n) :
    part (row.take n) start length = part row start length := by
  simp only [part, List.drop_take, List.take_take]
  congr 1
  omega

theorem part_append_left {front back : List UInt8} {start length : Nat}
    (h : start + length ≤ front.length) :
    part (front ++ back) start length = part front start length := by
  have hdrop : length ≤ (front.drop start).length := by
    rw [List.length_drop]
    omega
  rw [part, part, List.drop_append_of_le_length (by omega), List.take_append_of_le_length hdrop]

theorem part_append_right {front back : List UInt8} {n start length : Nat} (h : front.length = n) :
    part (front ++ back) (n + start) length = part back start length := by
  rw [part, part, ← List.drop_drop, List.drop_left' h]

theorem part_congr {row row' : List UInt8} {start length : Nat}
    (h : ∀ b, start ≤ b → b < start + length → row[b]? = row'[b]?) :
    part row start length = part row' start length := by
  apply List.ext_getElem?
  intro i
  simp only [part, List.getElem?_take, List.getElem?_drop]
  split
  · exact h _ (Nat.le_add_right _ _) (by omega)
  · rfl

section Overwrite

variable {row bytes : List UInt8} {start : Nat}

@[simp] theorem length_overwrite (h : start + bytes.length ≤ row.length) :
    (overwrite row start bytes).length = row.length := by
  simp only [overwrite, List.length_append, List.length_take, List.length_drop]
  omega

theorem getElem?_overwrite (h : start + bytes.length ≤ row.length) {b : Nat}
    (hb : b < start ∨ start + bytes.length ≤ b) : (overwrite row start bytes)[b]? = row[b]? := by
  have htake : (row.take start).length = start := by
    rw [List.length_take]
    omega
  rw [overwrite, List.append_assoc]
  rcases hb with hb | hb
  · rw [List.getElem?_append_left (by omega), List.getElem?_take_of_lt hb]
  · rw [List.getElem?_append_right (by omega), List.getElem?_append_right (by omega),
      List.getElem?_drop, htake]
    congr 1
    omega

@[simp] theorem part_overwrite (h : start + bytes.length ≤ row.length) :
    part (overwrite row start bytes) start bytes.length = bytes := by
  have htake : (row.take start).length = start := by
    rw [List.length_take]
    omega
  rw [part, overwrite, List.append_assoc, List.drop_left' htake, List.take_left]

end Overwrite

variable {α : Type} {size : Nat}

theorem zip_take {β : Type} (xs : List α) (ys : List β) (count : Nat) :
    xs.zip (ys.take count) = (xs.zip ys).take count := by
  induction xs generalizing ys count with
  | nil => simp
  | cons x xs ih => cases ys <;> cases count <;> simp [ih]

theorem getElem?_take_eq_some {xs : List α} {count i : Nat} {a : α} :
    (xs.take count)[i]? = some a ↔ i < count ∧ xs[i]? = some a := by
  rw [List.getElem?_take]
  split <;> simp [*]

@[simp] theorem length_takePixels (size count : Nat) (row : List UInt8) :
    (takePixels size count row).length = count := by
  induction count generalizing row with
  | zero => rfl
  | succ count ih => simp only [takePixels, List.length_cons, ih]

theorem length_of_mem_takePixels {count : Nat} {row px : List UInt8}
    (hrow : count * size ≤ row.length) (h : px ∈ takePixels size count row) :
    px.length = size := by
  induction count generalizing row with
  | zero => simp [takePixels] at h
  | succ count ih =>
    rw [Nat.succ_mul] at hrow
    rcases List.mem_cons.mp h with rfl | h
    · rw [List.length_take]
      omega
    · exact ih (by rw [List.length_drop]; omega) h

theorem zipPaint_congr {f g : α → List UInt8 → List UInt8} {operands : List α}
    (h : ∀ a ∈ operands, ∀ dst : List UInt8, dst.length = size → f a dst = g a dst)
    (row : List UInt8) : zipPaint size f operands row = zipPaint size g operands row := by
  induction operands generalizing row with
  | nil => rfl
  | cons a operands ih =>
    simp only [zipPaint]
    split
    · rfl
    · rename_i hlen
      rw [h a List.mem_cons_self _ (by rw [List.length_take]; omega),
        ih fun b hb => h b (List.mem_cons_of_mem a hb)]

theorem zipPaint_eq_self {f : α → List UInt8 → List UInt8} {operands : List α}
    (h : ∀ a ∈ operands, ∀ dst : List UInt8, dst.length = size → f a dst = dst)
    (row : List UInt8) : zipPaint size f operands row = row := by
  induction operands generalizing row with
  | nil => rfl
  | cons a operands ih =>
    simp only [zipPaint]
    split
    · rfl
    · rename_i hlen
      rw [h a List.mem_cons_self _ (by rw [List.length_take]; omega),
        ih fun b hb => h b (List.mem_cons_of_mem a hb), List.take_append_drop]

theorem zipPaint_const (px : List UInt8) (operands : List α) {row : List UInt8}
    (hrow : operands.length * size ≤ row.length) :
    zipPaint size (fun _ _ => px) operands row =
      (List.replicate operands.length px).flatten ++ row.drop (operands.length * size) := by
  induction operands generalizing row with
  | nil => simp [zipPaint]
  | cons a operands ih =>
    rw [List.length_cons, Nat.succ_mul] at hrow
    rw [zipPaint, if_neg (by omega), ih (by rw [List.length_drop]; omega), List.length_cons,
      List.replicate_succ, List.flatten_cons, List.append_assoc, List.drop_drop, Nat.succ_mul,
      Nat.add_comm size]

theorem mapPaint?_const (px : List UInt8) {row : List UInt8} {count : Nat}
    (hsize : Walkable size) (hrow : row.length = count * size) :
    mapPaint? size count (fun _ => px) row = some (List.replicate count px).flatten := by
  have hcount : min count (row.length / size) = count := by
    rw [hrow, Nat.mul_div_cancel _ hsize.1, Nat.min_self]
  have hle : (List.replicate count ()).length * size ≤ row.length := by
    rw [List.length_replicate]
    exact Nat.le_of_eq hrow.symm
  rw [mapPaint?, hcount, zipPaint?, if_pos hsize, zipPaint_const _ _ hle, List.length_replicate,
    ← hrow, List.drop_length, List.append_nil]

theorem getElem?_takePixels {count i : Nat} (row : List UInt8) (hi : i < count) :
    (takePixels size count row)[i]? = some (part row (i * size) size) := by
  induction count generalizing row i with
  | zero => omega
  | succ count ih =>
    cases i with
    | zero => simp [takePixels, part]
    | succ i =>
      rw [takePixels, List.getElem?_cons_succ, ih _ (by omega)]
      simp only [part, List.drop_drop, Nat.succ_mul, Nat.add_comm]

theorem take_takePixels {count n : Nat} (h : count ≤ n) (row : List UInt8) :
    (takePixels size n row).take count = takePixels size count row := by
  induction count generalizing n row with
  | zero => rfl
  | succ count ih =>
    cases n with
    | zero => omega
    | succ n => rw [takePixels, takePixels, List.take_succ_cons, ih (by omega)]

theorem mem_takePixels {count : Nat} {row px : List UInt8} :
    px ∈ takePixels size count row ↔ ∃ i < count, px = part row (i * size) size := by
  constructor
  · intro h
    obtain ⟨i, hi, rfl⟩ := List.getElem_of_mem h
    have hcount : i < count := length_takePixels size count row ▸ hi
    refine ⟨i, hcount, ?_⟩
    exact Option.some.inj ((List.getElem?_eq_getElem hi).symm.trans (getElem?_takePixels row hcount))
  · rintro ⟨i, hi, rfl⟩
    exact List.mem_of_getElem? (getElem?_takePixels row hi)

theorem part_one {row : List UInt8} {i : Nat} (hi : i < row.length) : part row i 1 = [row[i]] := by
  rw [part, List.drop_eq_getElem_cons hi]
  rfl

theorem takePixels_flatten {pixels : List (List UInt8)} {count : Nat}
    (h : ∀ px ∈ pixels, px.length = size) (hcount : pixels.length = count) :
    takePixels size count pixels.flatten = pixels := by
  subst hcount
  induction pixels with
  | nil => rfl
  | cons px pixels ih =>
    rw [List.forall_mem_cons] at h
    rw [List.length_cons, List.flatten_cons, takePixels, List.take_left' h.1, List.drop_left' h.1,
      ih h.2]

section Walk

variable {f : α → List UInt8 → List UInt8} {operands : List α} {row : List UInt8}

@[simp] theorem length_zipPaint
    (hf : ∀ a ∈ operands, ∀ dst : List UInt8, dst.length = size → (f a dst).length = size) :
    (zipPaint size f operands row).length = row.length := by
  induction operands generalizing row with
  | nil => rfl
  | cons a operands ih =>
    rw [zipPaint]
    split
    · rfl
    · rw [List.length_append, ih fun b hb => hf b (List.mem_cons_of_mem a hb),
        hf a List.mem_cons_self _ (by rw [List.length_take]; omega), List.length_drop]
      omega

/-- Pixel `i` is painted by operand `i`. -/
theorem part_zipPaint
    (hf : ∀ a ∈ operands, ∀ dst : List UInt8, dst.length = size → (f a dst).length = size)
    (hrow : operands.length * size ≤ row.length) {i : Nat} {a : α} (ha : operands[i]? = some a) :
    part (zipPaint size f operands row) (i * size) size = f a (part row (i * size) size) := by
  induction operands generalizing row i with
  | nil => cases ha
  | cons b operands ih =>
    rw [List.length_cons, Nat.succ_mul] at hrow
    have hpx : (f b (row.take size)).length = size :=
      hf b List.mem_cons_self _ (by rw [List.length_take]; omega)
    rw [zipPaint, if_neg (by omega)]
    cases i with
    | zero =>
      cases ha
      rw [part, part, Nat.zero_mul, List.drop_zero, List.drop_zero, List.take_left' hpx]
    | succ i =>
      have hdrop : operands.length * size ≤ (row.drop size).length := by
        rw [List.length_drop]
        omega
      have hrest := ih (fun c hc => hf c (List.mem_cons_of_mem b hc)) hdrop ha
      rw [part] at hrest ⊢
      rw [Nat.succ_mul, Nat.add_comm, ← List.drop_drop, List.drop_left' hpx, hrest, part, part,
        List.drop_drop]

variable (f) in
theorem zipPaint_append (as bs : List α) (hrow : as.length * size ≤ row.length) :
    zipPaint size f (as ++ bs) row =
      zipPaint size f as (row.take (as.length * size)) ++
        zipPaint size f bs (row.drop (as.length * size)) := by
  induction as generalizing row with
  | nil => simp [zipPaint]
  | cons a as ih =>
    rw [List.length_cons, Nat.succ_mul] at hrow ⊢
    have hfront : ¬ (row.take (as.length * size + size)).length < size := by
      rw [List.length_take]
      omega
    have hrest : (row.take (as.length * size + size)).drop size =
        (row.drop size).take (as.length * size) := by
      rw [List.drop_take]
      congr 1
      omega
    have hdrop : as.length * size ≤ (row.drop size).length := by
      rw [List.length_drop]
      omega
    rw [List.cons_append, zipPaint, zipPaint, if_neg (by omega), if_neg hfront, ih hdrop, hrest,
      List.take_take, Nat.min_eq_left (by omega), List.drop_drop, List.append_assoc,
      Nat.add_comm size]

/-- A walk leaves what lies behind its operands as it is. -/
theorem zipPaint_eq_append (hrow : operands.length * size ≤ row.length) :
    zipPaint size f operands row =
      zipPaint size f operands (row.take (operands.length * size)) ++
        row.drop (operands.length * size) := by
  have h := zipPaint_append f operands [] hrow
  rwa [List.append_nil] at h

theorem zipPaint_map {β : Type} (g : β → α) (operands : List β) (row : List UInt8) :
    zipPaint size f (operands.map g) row = zipPaint size (fun b => f (g b)) operands row := by
  induction operands generalizing row with
  | nil => rfl
  | cons b operands ih => simp only [List.map_cons, zipPaint, ih]

theorem zipPaint_zip_replicate_right {β : Type} (g : α × β → List UInt8 → List UInt8)
    {count : Nat} (hcount : operands.length = count) (b : β) (row : List UInt8) :
    zipPaint size g (operands.zip (List.replicate count b)) row =
      zipPaint size (fun a => g (a, b)) operands row := by
  subst hcount
  induction operands generalizing row with
  | nil => rfl
  | cons a operands ih =>
    simp only [List.length_cons, List.replicate_succ, List.zip_cons_cons, zipPaint, ih]

theorem zipPaint_zip_replicate_left {β : Type} (g : β × α → List UInt8 → List UInt8)
    {count : Nat} (hcount : operands.length = count) (b : β) (row : List UInt8) :
    zipPaint size g ((List.replicate count b).zip operands) row =
      zipPaint size (fun a => g (b, a)) operands row := by
  subst hcount
  induction operands generalizing row with
  | nil => rfl
  | cons a operands ih =>
    simp only [List.length_cons, List.replicate_succ, List.zip_cons_cons, zipPaint, ih]

section Whole

variable (hf : ∀ a ∈ operands, ∀ dst : List UInt8, dst.length = size → (f a dst).length = size)
  (hrow : operands.length * size ≤ row.length)
include hf hrow

theorem length_zipPaint_take :
    (zipPaint size f operands (row.take (operands.length * size))).length =
      operands.length * size := by
  rw [length_zipPaint hf, List.length_take]
  omega

theorem take_zipPaint :
    (zipPaint size f operands row).take (operands.length * size) =
      zipPaint size f operands (row.take (operands.length * size)) := by
  rw [zipPaint_eq_append hrow, List.take_left' (length_zipPaint_take hf hrow)]

theorem drop_zipPaint :
    (zipPaint size f operands row).drop (operands.length * size) =
      row.drop (operands.length * size) := by
  rw [zipPaint_eq_append hrow, List.drop_left' (length_zipPaint_take hf hrow)]

theorem part_zipPaint_behind {i : Nat} (hi : operands.length ≤ i) :
    part (zipPaint size f operands row) (i * size) size = part row (i * size) size := by
  have hle := Nat.mul_le_mul_right size hi
  have hsplit : i * size = operands.length * size + (i * size - operands.length * size) := by omega
  rw [part, part, hsplit, ← List.drop_drop, drop_zipPaint hf hrow, List.drop_drop]

end Whole

/-- On a row with a pixel for each operand and more, the pixels behind the operands are painted
by an operand that changes nothing. -/
theorem part_zipPaint_of_le {idle : α}
    (hf : ∀ a, ∀ dst : List UInt8, dst.length = size → (f a dst).length = size)
    (hidle : ∀ dst : List UInt8, dst.length = size → f idle dst = dst) {count i : Nat}
    (hoperands : operands.length ≤ count) (hrow : row.length = count * size) (hi : i < count) :
    part (zipPaint size f operands row) (i * size) size =
      f (operands[i]?.getD idle) (part row (i * size) size) := by
  have hle : operands.length * size ≤ row.length := hrow ▸ Nat.mul_le_mul_right size hoperands
  rcases Nat.lt_or_ge i operands.length with hlt | hge
  · have ha := List.getElem?_eq_getElem hlt
    rw [ha]
    exact part_zipPaint (fun a _ => hf a) hle ha
  · have hend := Nat.mul_le_mul_right size (show i + 1 ≤ count from hi)
    rw [Nat.succ_mul] at hend
    rw [List.getElem?_eq_none hge, Option.getD_none, part_zipPaint_behind (fun a _ => hf a) hle hge,
      hidle _ (length_part (hrow ▸ hend))]

/-- A walk has no use for more operands than there are whole pixels. -/
theorem zipPaint_take (hsize : 0 < size) (operands : List α) (row : List UInt8) :
    zipPaint size f (operands.take (row.length / size)) row = zipPaint size f operands row := by
  induction operands generalizing row with
  | nil => rw [List.take_nil]
  | cons a operands ih =>
    rcases Nat.lt_or_ge row.length size with hshort | hlong
    · rw [Nat.div_eq_of_lt hshort, zipPaint, if_pos hshort]
      rfl
    · have hrest := ih (row.drop size)
      rw [List.length_drop] at hrest
      rw [Nat.div_eq_sub_div hsize hlong, List.take_succ_cons, zipPaint, zipPaint, hrest]

theorem length_take_mul_le (size : Nat) (operands : List α) (row : List UInt8) :
    (operands.take (row.length / size)).length * size ≤ row.length :=
  Nat.le_trans (Nat.mul_le_mul_right size (List.length_take_le _ _)) (Nat.div_mul_le_self _ _)

theorem part_zipPaint_elim
    (hf : ∀ a ∈ operands, ∀ dst : List UInt8, dst.length = size → (f a dst).length = size)
    (hsize : 0 < size) {i : Nat} (hi : (i + 1) * size ≤ row.length) :
    part (zipPaint size f operands row) (i * size) size =
      (operands[i]?.elim id f) (part row (i * size) size) := by
  have hcount : i < row.length / size := (Nat.le_div_iff_mul_le hsize).mpr hi
  have hmem : ∀ a ∈ operands.take (row.length / size), ∀ dst : List UInt8, dst.length = size →
      (f a dst).length = size := fun a ha => hf a (List.mem_of_mem_take ha)
  have hfit := length_take_mul_le size operands row
  rw [← zipPaint_take hsize, ← List.getElem?_take_of_lt hcount]
  cases ha : (operands.take (row.length / size))[i]? with
  | none => exact part_zipPaint_behind hmem hfit (List.getElem?_eq_none_iff.mp ha)
  | some a => exact part_zipPaint hmem hfit ha

theorem getElem?_zipPaint_behind
    (hf : ∀ a ∈ operands, ∀ dst : List UInt8, dst.length = size → (f a dst).length = size)
    (hsize : 0 < size) {b : Nat} (hb : min operands.length (row.length / size) * size ≤ b) :
    (zipPaint size f operands row)[b]? = row[b]? := by
  have hmem : ∀ a ∈ operands.take (row.length / size), ∀ dst : List UInt8, dst.length = size →
      (f a dst).length = size := fun a ha => hf a (List.mem_of_mem_take ha)
  have hdrop := drop_zipPaint hmem (length_take_mul_le size operands row)
  rw [zipPaint_take hsize, List.length_take, Nat.min_comm] at hdrop
  obtain ⟨n, rfl⟩ := Nat.exists_eq_add_of_le hb
  rw [← List.getElem?_drop, ← List.getElem?_drop, hdrop]

theorem zipPaint_one (g : α → UInt8 → UInt8) (hrow : row.length = operands.length) :
    zipPaint 1 (fun a => List.map (g a)) operands row = List.zipWith g operands row := by
  induction operands generalizing row with
  | nil => rw [zipPaint, List.eq_nil_of_length_eq_zero hrow, List.zipWith_nil_right]
  | cons a operands ih =>
    obtain ⟨b, row, rfl⟩ := List.exists_cons_of_length_eq_add_one hrow
    rw [List.length_cons, List.length_cons, Nat.add_right_cancel_iff] at hrow
    rw [zipPaint, if_neg (by simp), List.drop_succ_cons, List.drop_zero, ih hrow]
    rfl

end Walk

end Scanline.Row
