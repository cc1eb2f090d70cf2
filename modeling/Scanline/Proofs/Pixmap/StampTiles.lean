import Scanline.Proofs.Pixmap.Patch
import Scanline.Proofs.Pixmap.Stamp
/-! Windows in pieces. A stamp makes of each pixel what the coverage of its column says, wherever
the window starts and however its runs are cut. So pieces that tile a window paint what the window
paints, in any order. -/
namespace Scanline

structure Placement where
  x : Int
  y : Int
  window : Window
  deriving DecidableEq, Repr

namespace Placement

def region (place : Placement) : Rect := place.window.region place.x place.y

def InDevice (place : Placement) : Prop := place.window.InDevice place.x place.y

/-- What is behind the first `i` columns and `j` rows. It shows the same columns of the glyph on
the same device pixels. -/
def part (whole : Placement) (i j width height : Nat) : Placement :=
  ⟨whole.x + i, whole.y + j, width, height, whole.window.skipX + i, whole.window.skipY + j⟩

def quarters (whole : Placement) (w₁ w₂ h₁ h₂ : Nat) : List Placement :=
  [whole.part 0 0 w₁ h₁, whole.part w₁ 0 w₂ h₁, whole.part 0 h₁ w₁ h₂, whole.part w₁ h₁ w₂ h₂]

inductive PartOf (whole : Placement) : Placement → Prop where
  | intro {i j width height : Nat} (columns : i + width ≤ whole.window.width)
      (rows : j + height ≤ whole.window.height) : PartOf whole (whole.part i j width height)

structure Tiles (pieces : List Placement) (whole : Placement) : Prop where
  within : ∀ piece ∈ pieces, PartOf whole piece
  apart : pieces.Pairwise fun piece other => piece.region.Apart other.region
  complete : ∀ p ∈ whole.region, ∃ piece ∈ pieces, p ∈ piece.region

variable {whole piece : Placement} {glyph : Glyph} {a b : Int}

theorem mem_region (hdevice : whole.InDevice) :
    (a, b) ∈ whole.region ↔ whole.x ≤ a ∧ a < whole.x + whole.window.width ∧
      whole.y ≤ b ∧ b < whole.y + whole.window.height := by
  rw [region, Window.region_eq hdevice, Rect.mem_iff]

namespace PartOf

theorem inDevice (h : PartOf whole piece) (hdevice : whole.InDevice) : piece.InDevice := by
  obtain ⟨hcolumns, hrows⟩ := h
  obtain ⟨hleft, htop, hright, hbottom⟩ := hdevice
  constructor <;> simp only [part] <;> omega

theorem fits (h : PartOf whole piece) (hfits : whole.window.Fits glyph) :
    piece.window.Fits glyph := by
  obtain ⟨hcolumns, hrows⟩ := h
  simp only [Window.Fits, part] at hfits ⊢
  omega

theorem subset (h : PartOf whole piece) (hdevice : whole.InDevice) :
    ∀ p ∈ piece.region, p ∈ whole.region := by
  rintro ⟨a, b⟩ hmem
  rw [mem_region (h.inDevice hdevice)] at hmem
  rw [mem_region hdevice]
  obtain ⟨hcolumns, hrows⟩ := h
  simp only [part] at hmem
  omega

theorem isEmpty (h : PartOf whole piece) (hdevice : whole.InDevice)
    (hempty : whole.region.IsEmpty) : piece.region.IsEmpty := by
  apply Decidable.of_not_not
  intro hne
  exact Rect.not_mem_of_isEmpty hempty _ (h.subset hdevice _ (Rect.corner_mem hne))

theorem covers (h : PartOf whole piece) (hdevice : whole.InDevice) {bounds : Rect}
    (hcovers : bounds.Covers whole.region) : bounds.Covers piece.region := by
  rcases hcovers with hempty | hcorners
  · exact Or.inl (h.isEmpty hdevice hempty)
  · right
    rw [region, Window.region_eq (h.inDevice hdevice)]
    rw [region, Window.region_eq hdevice] at hcorners
    obtain ⟨hcolumns, hrows⟩ := h
    simp only [part] at hcorners ⊢
    omega

theorem apart (hdevice : whole.InDevice) {i j width height i' j' width' height' : Nat}
    (h : PartOf whole (whole.part i j width height))
    (h' : PartOf whole (whole.part i' j' width' height'))
    (hcut : i + width ≤ i' ∨ i' + width' ≤ i ∨ j + height ≤ j') :
    (whole.part i j width height).region.Apart (whole.part i' j' width' height').region := by
  rintro ⟨a, b⟩ hmem hmem'
  rw [mem_region (h.inDevice hdevice)] at hmem
  rw [mem_region (h'.inDevice hdevice)] at hmem'
  simp only [part] at hmem hmem'
  omega

end PartOf

theorem quarters_tile (hdevice : whole.InDevice) {w₁ w₂ h₁ h₂ : Nat}
    (hwidth : whole.window.width = w₁ + w₂) (hheight : whole.window.height = h₁ + h₂) :
    Tiles (whole.quarters w₁ w₂ h₁ h₂) whole := by
  have htopLeft : PartOf whole (whole.part 0 0 w₁ h₁) := .intro (by omega) (by omega)
  have htopRight : PartOf whole (whole.part w₁ 0 w₂ h₁) := .intro (by omega) (by omega)
  have hlowLeft : PartOf whole (whole.part 0 h₁ w₁ h₂) := .intro (by omega) (by omega)
  have hlowRight : PartOf whole (whole.part w₁ h₁ w₂ h₂) := .intro (by omega) (by omega)
  constructor
  · simp only [quarters, List.forall_mem_cons]
    exact ⟨htopLeft, htopRight, hlowLeft, hlowRight, List.forall_mem_nil _⟩
  · simp only [quarters, List.pairwise_cons, List.forall_mem_cons]
    refine ⟨⟨?_, ?_, ?_, List.forall_mem_nil _⟩, ⟨?_, ?_, List.forall_mem_nil _⟩,
      ⟨?_, List.forall_mem_nil _⟩, List.forall_mem_nil _, List.Pairwise.nil⟩
    · exact htopLeft.apart hdevice htopRight (by omega)
    · exact htopLeft.apart hdevice hlowLeft (by omega)
    · exact htopLeft.apart hdevice hlowRight (by omega)
    · exact htopRight.apart hdevice hlowLeft (by omega)
    · exact htopRight.apart hdevice hlowRight (by omega)
    · exact hlowLeft.apart hdevice hlowRight (by omega)
  · rintro ⟨a, b⟩ hmem
    simp only [quarters, List.mem_cons, List.not_mem_nil, or_false, exists_eq_or_imp, exists_eq_left]
    rw [mem_region (htopLeft.inDevice hdevice), mem_region (htopRight.inDevice hdevice),
      mem_region (hlowLeft.inDevice hdevice), mem_region (hlowRight.inDevice hdevice)]
    rw [mem_region hdevice] at hmem
    simp only [part]
    omega

theorem Tiles.perm {pieces order : List Placement} (h : Tiles pieces whole)
    (hperm : order.Perm pieces) : Tiles order whole := by
  refine ⟨fun piece hpiece => h.within piece (hperm.mem_iff.mp hpiece),
    (hperm.pairwise_iff Rect.Apart.symm).mpr h.apart, ?_⟩
  intro p hp
  obtain ⟨piece, hpiece, hmem⟩ := h.complete p hp
  exact ⟨piece, hperm.mem_iff.mpr hpiece, hmem⟩

end Placement

namespace Pixmap

variable {families : FamilySet} {dst out : Pixmap} {glyph : Glyph} {color : List UInt8}
  {whole piece : Placement} {pieces : List Placement}

def stampAll (families : FamilySet) (dst : Pixmap) (glyph : Glyph) (color : List UInt8)
    (places : List Placement) : Except Failure Pixmap :=
  places.foldlM (fun p place => p.stamp families glyph color place.x place.y place.window) dst

structure Takes (families : FamilySet) (l : Layout) (glyph : Glyph) (color : List UInt8)
    (place : Placement) : Prop where
  device : place.InDevice
  fits : place.window.Fits glyph
  covers : l.bounds.Covers place.region
  served : ¬ place.region.IsEmpty → Served families l color

def stampPatch (l : Layout) (glyph : Glyph) (color : List UInt8) (place : Placement) : Patch where
  area := place.region
  rule := Stamped l glyph color place.x place.y place.window
  unique h h' := h.trans h'.symm

theorem Takes.part {l : Layout} (h : Takes families l glyph color whole)
    (hpart : Placement.PartOf whole piece) : Takes families l glyph color piece where
  device := hpart.inDevice h.device
  fits := hpart.fits h.fits
  covers := hpart.covers h.device h.covers
  served hne := h.served (mt (hpart.isEmpty h.device) hne)

theorem stampAll_painted (hdst : dst.check = .ok ())
    (htakes : ∀ place ∈ pieces, Takes families dst.layout glyph color place) :
    ∃ out, stampAll families dst glyph color pieces = .ok out ∧
      PaintedBy dst (pieces.map (stampPatch dst.layout glyph color)) out := by
  induction pieces generalizing dst with
  | nil => exact ⟨dst, rfl, .nil dst⟩
  | cons place places ih =>
    obtain ⟨hdevice, hfits, hcovers, hserved⟩ := htakes place List.mem_cons_self
    obtain ⟨mid, hmid, hpainted⟩ := stamp_painted hdst hdevice hfits hcovers hserved
    obtain ⟨out, hout, hrest⟩ := ih (hpainted.alike.check hdst)
      (fun other hother => hpainted.layout ▸ htakes other (List.mem_cons_of_mem _ hother))
    have hfirst : RegionPainted dst mid (stampPatch dst.layout glyph color place).area
        (stampPatch dst.layout glyph color place).rule := hpainted
    rw [hpainted.layout] at hrest
    refine ⟨out, ?_, .cons hfirst hrest⟩
    rw [stampAll, List.foldlM_cons, hmid]
    exact hout

/-- A part makes of its pixels what the window makes of them. -/
theorem stamped_part {l : Layout} (hpart : Placement.PartOf whole piece)
    (hdevice : whole.InDevice) {a b : Int} (hmem : (a, b) ∈ piece.region) {old new : List UInt8} :
    Stamped l glyph color piece.x piece.y piece.window a b old new ↔
      Stamped l glyph color whole.x whole.y whole.window a b old new := by
  rw [Placement.mem_region (hpart.inDevice hdevice)] at hmem
  obtain @⟨i, j, _, _, -, -⟩ := hpart
  simp only [Placement.part] at hmem
  have hrow : whole.window.skipY + j + (b - (whole.y + j)).toNat =
      whole.window.skipY + (b - whole.y).toNat := by omega
  have hcolumn : whole.window.skipX + i + (a - (whole.x + i)).toNat =
      whole.window.skipX + (a - whole.x).toNat := by omega
  simp only [Stamped, Placement.part]
  rw [hrow, hcolumn]

/-- Pieces that tile a window do to each pixel what the window does. -/
theorem rules_of_tiles {l : Layout} (htiles : Placement.Tiles pieces whole)
    (hdevice : whole.InDevice) {a b : Int} {old new : List UInt8}
    (h : Patch.Rules (pieces.map (stampPatch l glyph color)) a b old new) :
    Patch.Rules [stampPatch l glyph color whole] a b old new := by
  rcases h with ⟨_, hpatch, hmem, hrule⟩ | ⟨hfree, hsame⟩
  · obtain ⟨piece, hpiece, rfl⟩ := List.mem_map.mp hpatch
    have hpart := htiles.within piece hpiece
    exact Or.inl ⟨_, List.mem_singleton_self _, hpart.subset hdevice _ hmem,
      (stamped_part hpart hdevice hmem).mp hrule⟩
  · refine Or.inr ⟨List.forall_mem_singleton.mpr ?_, hsame⟩
    intro hmem
    obtain ⟨piece, hpiece, hin⟩ := htiles.complete _ hmem
    exact hfree _ (List.mem_map_of_mem hpiece) hin

theorem stampAll_of_tiles (hdst : dst.check = .ok ()) (hdevice : whole.InDevice)
    (hout : stamp families dst glyph color whole.x whole.y whole.window = .ok out)
    (htiles : Placement.Tiles pieces whole) :
    stampAll families dst glyph color pieces = .ok out := by
  obtain ⟨hfits, hcovers, hserved⟩ := stamp_checks hout
  obtain ⟨_, hstamp, hpainted⟩ := stamp_painted hdst hdevice hfits hcovers hserved
  cases hout.symm.trans hstamp
  have htakes : Takes families dst.layout glyph color whole := ⟨hdevice, hfits, hcovers, hserved⟩
  obtain ⟨out', hout', hpieces⟩ :=
    stampAll_painted hdst fun piece hpiece => htakes.part (htiles.within piece hpiece)
  have hwhole : PaintedBy dst [stampPatch dst.layout glyph color whole] out :=
    .cons hpainted (.nil out)
  rw [hout', hwhole.eq_of_rules hpieces hdst (List.pairwise_singleton _ _)
    (List.pairwise_map.mpr htiles.apart) fun _ _ _ _ => rules_of_tiles htiles hdevice]

/-- A stamp that succeeds can be made in pieces. However its window is cut into two columns of two
parts, the four stamps succeed in any order and leave the same pixmap. -/
theorem stamp_in_quarters (hdst : dst.check = .ok ()) (hdevice : whole.InDevice)
    (hout : stamp families dst glyph color whole.x whole.y whole.window = .ok out)
    {w₁ w₂ h₁ h₂ : Nat} (hwidth : whole.window.width = w₁ + w₂)
    (hheight : whole.window.height = h₁ + h₂) {order : List Placement}
    (horder : order.Perm (whole.quarters w₁ w₂ h₁ h₂)) :
    stampAll families dst glyph color order = .ok out :=
  stampAll_of_tiles hdst hdevice hout ((Placement.quarters_tile hdevice hwidth hheight).perm horder)

def board : Pixmap := ⟨.tight 0 0 3 2 1 false, [10, 20, 30, 40, 50, 60]⟩

def ramp : Glyph := ⟨3, 2, [some 0, some 4], [0x17, 64, 128, 192, 0x16]⟩

/-- The cut behind the first column goes through both runs. -/
theorem stamp_in_quarters_board :
    board.check = .ok () ∧ Placement.InDevice ⟨0, 0, 3, 2, 0, 0⟩ ∧
    ∃ out, stamp .all board ramp [200, 128] 0 0 ⟨3, 2, 0, 0⟩ = .ok out ∧
      stampAll .all board ramp [200, 128]
        (Placement.quarters ⟨0, 0, 3, 2, 0, 0⟩ 1 2 1 1).reverse = .ok out := by
  have hdevice : Placement.InDevice ⟨0, 0, 3, 2, 0, 0⟩ :=
    ⟨by decide, by decide, by decide, by decide⟩
  obtain ⟨out, hout⟩ : ∃ out, stamp .all board ramp [200, 128] 0 0 ⟨3, 2, 0, 0⟩ = .ok out :=
    ⟨_, by with_unfolding_all rfl⟩
  exact ⟨rfl, hdevice, out, hout,
    @stamp_in_quarters .all board out ramp [200, 128] ⟨0, 0, 3, 2, 0, 0⟩ rfl hdevice hout 1 2 1 1
      rfl rfl _ (List.reverse_perm _)⟩

end Pixmap

end Scanline
