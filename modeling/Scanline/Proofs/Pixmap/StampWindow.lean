import Scanline.Proofs.Failure
import Scanline.Proofs.Pixmap.Stamp
/-! Where a stamp may paint. The check of the region works on sizes modulo `sizeModulus` and on
edges that stop at the largest coordinate, and the rows are then painted in the full width of the
window. As long as the region stands for the window, only windows that lie on the pixmap pass. -/
namespace Scanline

namespace Pixmap

variable {families : FamilySet} {dst out : Pixmap} {glyph : Glyph} {color : List UInt8}
  {x y : Int} {window : Window}

theorem stamp_unfit (h : ¬ window.Fits glyph) :
    stamp families dst glyph color x y window = .error (.refused (.badGlyph (.window window.width
      window.height window.skipX window.skipY glyph.width glyph.height))) := by
  simp only [stamp]
  rw [if_pos h]

theorem stamp_uncovered (hfits : window.Fits glyph)
    (h : ¬ dst.bounds.Covers (window.region x y)) :
    stamp families dst glyph color x y window =
      .error (.refused (.badGlyph (.outside (window.region x y) dst.bounds))) := by
  simp only [stamp]
  rw [if_neg (not_not_intro hfits), if_pos h]

theorem stamp_unserved (hfits : window.Fits glyph)
    (hcovers : dst.bounds.Covers (window.region x y)) (hne : ¬ (window.region x y).IsEmpty)
    (hcolors : dst.layout.colors ≠ 0) (hsize : dst.layout.colors < sizeMax) :
    (color.length < dst.layout.colors + 1 →
      stamp families dst glyph color x y window =
        .error (.refused (.colorLength (dst.layout.colors + 1) color.length))) ∧
    (dst.layout.colors + 1 ≤ color.length → families.supports dst.layout.colors = false →
      stamp families dst glyph color x y window =
        .error (.refused (.unserved .fill dst.layout.colors))) := by
  have hfill : ∀ failure, families.selectColor .fill dst.layout.colors color dst.layout.hasAlpha =
      .error failure → stamp families dst glyph color x y window = .error failure := by
    intro failure hselect
    have hpainter : families.fillPainter dst.layout.shape color = .error failure :=
      FamilySet.fillPainter_eq_error hselect
    simp only [stamp]
    rw [if_neg (not_not_intro hfits), if_neg (not_not_intro hcovers), if_neg hne, if_neg hcolors,
      hpainter]
  constructor
  · intro hshort
    exact hfill _ (FamilySet.selectColor_short hsize hshort _ _)
  · intro hcolor hunserved
    exact hfill _ (FamilySet.selectColor_unserved hsize hcolor hunserved _ _)

theorem colors_lt_of_covers (hdst : dst.check = .ok ()) (hbuffer : dst.samples.length < sizeMax)
    (hcovers : dst.bounds.Covers (window.region x y)) (hne : ¬ (window.region x y).IsEmpty) :
    dst.layout.colors < sizeMax := by
  obtain ⟨offset, -, hend⟩ :=
    offset_within hdst (Rect.mem_of_covers hcovers (Rect.corner_mem hne))
  have hadd := Layout.colors_add_alpha (Layout.serves_of_check hdst).channels_pos
  omega

theorem stamp_refused (hdst : dst.check = .ok ()) (hbuffer : dst.samples.length < sizeMax)
    (hfits : window.Fits glyph) (hcovers : dst.bounds.Covers (window.region x y))
    (hne : ¬ (window.region x y).IsEmpty) (hserved : ¬ Served families dst.layout color) :
    ∃ refusal, stamp families dst glyph color x y window = .error (.refused refusal) ∧
      ∀ flaw, refusal ≠ .badGlyph flaw := by
  rw [Served, Classical.not_imp] at hserved
  obtain ⟨hcolors, hrefused⟩ := hserved
  have hsize := colors_lt_of_covers hdst hbuffer hcovers hne
  obtain ⟨hshortEnd, hunservedEnd⟩ :=
    @stamp_unserved families dst glyph color x y window hfits hcovers hne hcolors hsize
  rcases Nat.lt_or_ge color.length (dst.layout.colors + 1) with hshort | hlong
  · exact ⟨_, hshortEnd hshort, nofun⟩
  · have hunserved : families.supports dst.layout.colors = false :=
      Bool.eq_false_iff.mpr fun h => hrefused ⟨hsize, hlong, h⟩
    exact ⟨_, hunservedEnd hlong hunserved, nofun⟩

/-- A stamp ends in one of three ways: the glyph or the pixmap does not hold the window, the
colour is refused, or there is a result. A window without pixels ends in one of the outer two. -/
theorem stamp_outcome (hdst : dst.check = .ok ()) (hbuffer : dst.samples.length < sizeMax)
    (hresolved : 0 < window.width → 0 < window.height → window.Resolved dst.layout x y) :
    (¬ (window.Fits glyph ∧ dst.bounds.Covers (window.region x y)) ∧
      ∃ flaw, stamp families dst glyph color x y window = .error (.refused (.badGlyph flaw))) ∨
    (window.Fits glyph ∧ dst.bounds.Covers (window.region x y) ∧
      ((∃ refusal, stamp families dst glyph color x y window = .error (.refused refusal) ∧
          ∀ flaw, refusal ≠ .badGlyph flaw) ∨
        ∃ out, stamp families dst glyph color x y window = .ok out)) := by
  rcases Classical.em (window.Fits glyph) with hfits | hunfit
  case inr => exact Or.inl ⟨fun h => hunfit h.1, _, stamp_unfit hunfit⟩
  rcases Classical.em (dst.bounds.Covers (window.region x y)) with hcovers | huncovered
  case inr => exact Or.inl ⟨fun h => huncovered h.2, _, stamp_uncovered hfits huncovered⟩
  refine Or.inr ⟨hfits, hcovers, ?_⟩
  by_cases hempty : (window.region x y).IsEmpty
  · exact Or.inr ⟨dst, stamp_empty hfits hempty⟩
  by_cases hserved : Served families dst.layout color
  · obtain ⟨hwidth, hheight⟩ := Window.pos_of_region hempty
    have hregion := hresolved hwidth hheight
    have hinside := (Window.covers_region_iff hregion hwidth hheight).mp hcovers
    obtain ⟨out, hout, -⟩ :=
      stamp_painted hdst (hregion.inDevice hinside) hfits hcovers fun _ => hserved
    exact Or.inr ⟨out, hout⟩
  · exact Or.inl (stamp_refused hdst hbuffer hfits hcovers hempty hserved)

/-- A window whose region stands for it is refused if and only if it does not lie on the glyph
and on the pixmap, and no such window makes a stamp fail in any other way than by a refusal. The
buffer is one that memory can hold. -/
theorem stamp_refuses_outside (hdst : dst.check = .ok ()) (hbuffer : dst.samples.length < sizeMax)
    (hresolved : 0 < window.width → 0 < window.height → window.Resolved dst.layout x y) :
    (∀ fault, stamp families dst glyph color x y window ≠ .error (.faulted fault)) ∧
    (0 < window.width → 0 < window.height →
      (∀ out, stamp families dst glyph color x y window = .ok out →
        window.Fits glyph ∧ window.Inside dst.layout x y) ∧
      (¬ (window.Fits glyph ∧ window.Inside dst.layout x y) ↔
        ∃ flaw, stamp families dst glyph color x y window =
          .error (.refused (.badGlyph flaw)))) := by
  have houtcome := @stamp_outcome families dst glyph color x y window hdst hbuffer hresolved
  constructor
  · intro fault hfault
    rw [hfault] at houtcome
    rcases houtcome with ⟨-, _, h⟩ | ⟨-, -, ⟨_, h, -⟩ | ⟨_, h⟩⟩
    · cases h
    · cases h
    · cases h
  intro hwidth hheight
  rw [show dst.bounds.Covers (window.region x y) ↔ window.Inside dst.layout x y from
    Window.covers_region_iff (hresolved hwidth hheight) hwidth hheight] at houtcome
  constructor
  · intro out hout
    rw [hout] at houtcome
    rcases houtcome with ⟨-, _, h⟩ | ⟨hfits, hin, -⟩
    · cases h
    · exact ⟨hfits, hin⟩
  · rcases houtcome with ⟨hbad, hflaw⟩ | ⟨hfits, hin, hgood⟩
    · exact iff_of_true hbad hflaw
    · refine iff_of_false (not_not_intro ⟨hfits, hin⟩) ?_
      rintro ⟨flaw, hflaw⟩
      rw [hflaw] at hgood
      rcases hgood with ⟨refusal, h, hne⟩ | ⟨_, h⟩
      · cases h
        exact hne flaw rfl
      · cases h

def sheet : Pixmap := ⟨⟨0, 0, 3, 2, 1, true, 4⟩, [0, 9, 0, 7, 1, 2, 3]⟩

def dash : Glyph := ⟨2, 1, [some 0], [0x0E]⟩

theorem stamp_refuses_outside_sheet :
    sheet.check = .ok () ∧ sheet.samples.length < sizeMax ∧
    Window.Resolved ⟨2, 1, 0, 0⟩ sheet.layout 2 0 ∧
    ¬ Window.Inside ⟨2, 1, 0, 0⟩ sheet.layout 2 0 ∧
    (∀ fault, stamp .all sheet dash [] 2 0 ⟨2, 1, 0, 0⟩ ≠ .error (.faulted fault)) ∧
    ∃ flaw, stamp .all sheet dash [] 2 0 ⟨2, 1, 0, 0⟩ = .error (.refused (.badGlyph flaw)) := by
  have hresolved : Window.Resolved ⟨2, 1, 0, 0⟩ sheet.layout 2 0 :=
    ⟨by decide, by decide, by decide, by decide, by decide, by decide⟩
  have houtside : ¬ Window.Inside ⟨2, 1, 0, 0⟩ sheet.layout 2 0 := by decide
  obtain ⟨hfault, hlaw⟩ := @stamp_refuses_outside .all sheet dash [] 2 0 ⟨2, 1, 0, 0⟩ rfl
    (by decide) fun _ _ => hresolved
  exact ⟨rfl, by decide, hresolved, houtside, hfault,
    (hlaw (by decide) (by decide)).2.mp fun h => houtside h.2⟩

def speck : Pixmap := ⟨.tight 0 0 1 1 1 true, [0]⟩

/-- Four pixels in the last columns that a pixmap can have. -/
def margin : Pixmap := ⟨.tight 2147483646 0 2 2 1 true, [0, 0, 0, 0]⟩

def broad : Glyph := ⟨4294967296, 1, [some 0], [0x26]⟩

/-- A window of `sizeModulus` columns has an empty region, and one that starts beside the largest
coordinate a region of one column. Neither lies on the pixmap, and neither is refused. -/
theorem stamp_passes_outside :
    speck.check = .ok () ∧ margin.check = .ok () ∧ broad.check = .ok () ∧
    ¬ Window.Inside ⟨4294967296, 1, 0, 0⟩ speck.layout 0 0 ∧
    stamp .all speck broad [] 0 0 ⟨4294967296, 1, 0, 0⟩ = .ok speck ∧
    ¬ Window.Inside ⟨5, 1, 0, 0⟩ margin.layout 2147483646 0 ∧
    stamp .all margin broad [] 2147483646 0 ⟨5, 1, 0, 0⟩ = .error (.faulted .overrun) := by
  exact ⟨rfl, rfl, rfl, by decide, rfl, by decide, rfl⟩

/-- What a stamp changes lies in its window, as long as the rows of the pixmap are not shorter
than the window asks for. The pixels are counted in the buffer here, also those beyond the
largest coordinate. There is no such condition on the height, because a row below the bounds has
no offset and so faults: this rests on the assertion of `Layout.offset?`, and a build without it
could write behind the last row. -/
theorem stamp_frame (hdst : dst.check = .ok ())
    (hout : stamp families dst glyph color x y window = .ok out)
    (hright : ¬ (window.region x y).IsEmpty →
      x + window.width ≤ dst.layout.x + dst.layout.width) :
    out.layout = dst.layout ∧ out.samples.length = dst.samples.length ∧
      ∀ b, (∀ i < dst.layout.width, ∀ j < dst.layout.height,
        x ≤ dst.layout.x + i → dst.layout.x + i < x + window.width →
        y ≤ dst.layout.y + j → dst.layout.y + j < y + window.height →
        ¬ (dst.layout.position i j ≤ b ∧ b < dst.layout.position (i + 1) j)) →
        out.samples[b]? = dst.samples[b]? := by
  obtain ⟨hfits, hcovers, hserved⟩ := stamp_checks hout
  by_cases hne : (window.region x y).IsEmpty
  · cases hout.symm.trans (stamp_empty hfits hne)
    exact ⟨rfl, rfl, fun _ _ => rfl⟩
  have hwide := hright hne
  rcases stamp_served hdst hfits hcovers hne (hserved hne) with
    ⟨-, -, hstamp⟩ | ⟨paint, hstamp, hpaint⟩
  · cases hout.symm.trans hstamp
    exact ⟨rfl, rfl, fun _ _ => rfl⟩
  have hrows := Failure.eq_some_of_orOverrun (hstamp.symm.trans hout)
  have hlength : ∀ r < window.height, ∀ row new : List UInt8,
      row.length = window.width * dst.layout.channels → paint r row = some new →
      new.length = row.length := by
    intro r _ row new hrow hnew
    obtain ⟨new', hnew', hstamped⟩ := hpaint r row hrow
    cases hnew.symm.trans hnew'
    exact hstamped.size
  obtain ⟨hlayout, hsize, hsame⟩ := editRows?_outside hlength hrows
  refine ⟨hlayout, hsize, ?_⟩
  intro b hb
  apply hsame
  intro r hr start hstart
  rcases Nat.lt_or_ge b start with hlt | hge
  · exact Or.inl hlt
  rcases Nat.lt_or_ge b (start + window.width * dst.layout.channels) with hlt | hge'
  · obtain ⟨i, j, hj, hleft, hend, hy, hbyte⟩ := Layout.column_of_strip
      (Layout.serves_of_check hdst).channels_pos hstart hge hlt
    exact absurd hbyte (hb i (by omega) j hj hleft hend (by omega) (by omega))
  · exact Or.inr hge'

theorem stamp_frame_sheet :
    sheet.check = .ok () ∧
    stamp .all sheet dash [] 1 0 ⟨2, 1, 0, 0⟩ = .ok ⟨sheet.layout, [0, 255, 255, 7, 1, 2, 3]⟩ ∧
    (¬ (Window.region ⟨2, 1, 0, 0⟩ 1 0).IsEmpty →
      (1 : Int) + 2 ≤ sheet.layout.x + sheet.layout.width) ∧
    ∀ b, b = 0 ∨ 3 ≤ b → [0, 255, 255, 7, 1, 2, 3][b]? = sheet.samples[b]? := by
  have hout : stamp .all sheet dash [] 1 0 ⟨2, 1, 0, 0⟩ =
      .ok ⟨sheet.layout, [0, 255, 255, 7, 1, 2, 3]⟩ := by with_unfolding_all rfl
  refine ⟨rfl, hout, fun _ => by decide, ?_⟩
  obtain ⟨-, -, hframe⟩ := stamp_frame (show sheet.check = .ok () from rfl) hout
    fun _ => by decide
  intro b hb
  apply hframe
  intro i hi j hj hx hx' hy hy' hbyte
  simp only [sheet, Layout.position] at hi hj hx hx' hy hy' hbyte
  omega

/-- Beside the largest coordinate a window of three columns paints a pixel of the next row. -/
theorem stamp_spills :
    margin.check = .ok () ∧ broad.check = .ok () ∧
    ∃ out b, stamp .all margin broad [] 2147483646 0 ⟨3, 1, 0, 0⟩ = .ok out ∧
      (∀ i < margin.layout.width, ∀ j < margin.layout.height,
        2147483646 ≤ margin.layout.x + i → margin.layout.x + i < 2147483646 + 3 →
        0 ≤ margin.layout.y + (j : Int) → margin.layout.y + (j : Int) < 0 + 1 →
        ¬ (margin.layout.position i j ≤ b ∧ b < margin.layout.position (i + 1) j)) ∧
      out.samples[b]? ≠ margin.samples[b]? := by
  refine ⟨rfl, rfl, ⟨margin.layout, [255, 255, 255, 0]⟩, 2, by with_unfolding_all rfl, ?_,
    by decide⟩
  intro i hi j hj hx hx' hy hy' hbyte
  simp only [margin, Layout.tight, Layout.position] at hi hj hy hy' hbyte
  omega

end Pixmap

end Scanline
