import Scanline.Proofs.Painter.Monotone
import Scanline.Proofs.Pixmap.StampTiles
/-! Coverage that is gathered. A stamp on a pixmap without colour takes no coverage away, brings
the pixels of its window up to the coverage of its glyph, and keeps two pixmaps in order. What
holds of one stamp holds of any number. -/
namespace Scanline

variable {cover old old' : UInt8}

theorem deposit_first (cover : UInt8) : deposit cover coverNone = cover := if_pos rfl

theorem toNat_deposit (cover : UInt8) (h : old ≠ coverNone) :
    ((deposit cover old).toNat : Int) = Weight.lerp 255 old.toNat (Weight.ofByte cover) := by
  rw [deposit, if_neg h]
  exact Sample.toNat_lerp coverFull old (Weight.ofByte_nonneg cover) (Weight.ofByte_le cover)

theorem one_le_of_ne_coverNone (h : old ≠ coverNone) : 1 ≤ old.toNat :=
  Nat.one_le_iff_ne_zero.mpr fun hzero => h (UInt8.toNat_inj.mp hzero)

theorem le_deposit (cover old : UInt8) : old ≤ deposit cover old := by
  by_cases hold : old = coverNone
  · rw [hold]
    exact UInt8.zero_le
  · have hlerp := toNat_deposit cover hold
    have hrest := Weight.scale_nonneg (x := 255 - old.toNat) (by have := old.toNat_lt; omega)
      (Weight.ofByte_nonneg cover)
    rw [Weight.lerp] at hlerp
    rw [UInt8.le_iff_toNat_le]
    omega

/-- Where there is some coverage already, its least value is the one to look at. -/
theorem cover_le_deposit (cover old : UInt8) : cover ≤ deposit cover old := by
  by_cases hold : old = coverNone
  · rw [hold, deposit_first]
    exact UInt8.le_refl cover
  · have hcover := cover.toNat_lt
    have hlerp := toNat_deposit cover hold
    have hpos : (1 : Int) ≤ old.toNat := Int.ofNat_le.mpr (one_le_of_ne_coverNone hold)
    have hleast := Weight.lerp_mono (Int.le_refl 255) hpos (Weight.ofByte_nonneg cover)
      (Weight.ofByte_le cover)
    have hone : (cover.toNat : Int) ≤ Weight.lerp 255 1 (Weight.ofByte cover) := by
      simp only [Weight.lerp, Weight.scale, Weight.ofByte]
      omega
    rw [UInt8.le_iff_toNat_le]
    omega

/-- A first coverage is no more than what any other pixel makes of it, and so the order holds
across a pixel without coverage too. -/
theorem deposit_mono (h : old ≤ old') : deposit cover old ≤ deposit cover old' := by
  by_cases hold : old = coverNone
  · rw [hold, deposit_first]
    exact cover_le_deposit cover old'
  · have hone := one_le_of_ne_coverNone hold
    have hle := UInt8.le_iff_toNat_le.mp h
    have hold' : old' ≠ coverNone := by
      rintro rfl
      exact absurd hle (Nat.not_le.mpr hone)
    rw [UInt8.le_iff_toNat_le, ← Int.ofNat_le, toNat_deposit cover hold, toNat_deposit cover hold']
    exact Weight.lerp_mono (Int.le_refl 255) (Int.ofNat_le.mpr hle) (Weight.ofByte_nonneg cover)
      (Weight.ofByte_le cover)

structure Imprint where
  families : FamilySet
  glyph : Glyph
  color : List UInt8
  place : Placement
  deriving DecidableEq, Repr

namespace Pixmap

def imprint (p : Pixmap) (i : Imprint) : Except Failure Pixmap :=
  p.stamp i.families i.glyph i.color i.place.x i.place.y i.place.window

def imprintAll (p : Pixmap) (imprints : List Imprint) : Except Failure Pixmap :=
  imprints.foldlM imprint p

structure Below (p q : Pixmap) : Prop where
  alike : p.Alike q
  le : ∀ (b : Nat) (old new : UInt8), p.samples[b]? = some old → q.samples[b]? = some new →
    old ≤ new

theorem Alike.symm {p q : Pixmap} (h : p.Alike q) : q.Alike p := ⟨h.layout.symm, h.size.symm⟩

theorem Alike.exists_sample {p q : Pixmap} (h : p.Alike q) {b : Nat} {old : UInt8}
    (hold : p.samples[b]? = some old) : ∃ new, q.samples[b]? = some new := by
  have hb := (List.getElem?_eq_some_iff.mp hold).1
  exact ⟨_, List.getElem?_eq_getElem (h.size.symm ▸ hb)⟩

theorem Below.refl (p : Pixmap) : p.Below p :=
  ⟨.refl p, fun _ _ _ h h' => Option.some.inj (h.symm.trans h') ▸ UInt8.le_refl _⟩

theorem Below.trans {p q u : Pixmap} (h : p.Below q) (h' : q.Below u) : p.Below u := by
  refine ⟨h.alike.trans h'.alike, ?_⟩
  intro b old new hold hnew
  obtain ⟨mid, hmid⟩ := h.alike.exists_sample hold
  exact UInt8.le_trans (h.le b old mid hold hmid) (h'.le b mid new hmid hnew)

structure Gathers (p : Pixmap) : Prop where
  check : p.check = .ok ()
  colorless : p.layout.colors = 0

theorem Gathers.alike {p q : Pixmap} (hp : p.Gathers) (h : p.Alike q) : q.Gathers :=
  ⟨h.check hp.check, h.layout ▸ hp.colorless⟩

variable {p q p' q' : Pixmap} {i : Imprint}

def Imprinted (i : Imprint) (p q : Pixmap) : Prop :=
  RegionPainted p q i.place.region
    (Stamped p.layout i.glyph i.color i.place.x i.place.y i.place.window)

theorem imprinted_of_ok (hp : p.Gathers) (hdevice : i.place.InDevice) (h : p.imprint i = .ok q) :
    Imprinted i p q := by
  obtain ⟨hfits, hcovers, hserved⟩ := stamp_checks h
  obtain ⟨out, hout, hpainted⟩ := stamp_painted hp.check hdevice hfits hcovers hserved
  cases h.symm.trans hout
  exact hpainted

theorem imprint_ok_of_alike (hp : p.Gathers) (hdevice : i.place.InDevice) (halike : p.Alike p')
    (h : p.imprint i = .ok q) : ∃ q', p'.imprint i = .ok q' := by
  obtain ⟨hfits, hcovers, -⟩ := stamp_checks h
  rw [← halike.bounds] at hcovers
  have hp' := hp.alike halike
  obtain ⟨out, hout, -⟩ := stamp_painted hp'.check hdevice hfits hcovers
    fun _ hcolors => absurd hp'.colorless hcolors
  exact ⟨out, hout⟩

/-- A byte of the window takes in the coverage of its column. -/
theorem Imprinted.sample (h : Imprinted i p q) (hcolors : p.layout.colors = 0) {x y : Int}
    {b : Nat} {old : UInt8} (hmem : (x, y) ∈ i.place.region) (howns : p.layout.Owns x y b)
    (hold : p.samples[b]? = some old) :
    q.samples[b]? = some (deposit (i.glyph.coverage
      (i.place.window.skipY + (y - i.place.y).toNat)
      (i.place.window.skipX + (x - i.place.x).toNat)) old) := by
  obtain ⟨start, hstart, hb, hb'⟩ := howns
  obtain ⟨d, new, hd, hnew, hrule⟩ := h.inside x y hmem
  rw [Stamped, Shape.stamped_colorless hcolors] at hrule
  rw [← getElem?_of_pixel hnew (h.layout ▸ hstart) hb (h.layout ▸ hb'), hrule, List.getElem?_map,
    getElem?_of_pixel hd hstart hb hb', hold]
  rfl

theorem Imprinted.below (h : Imprinted i p q) (hcolors : p.layout.colors = 0) : p.Below q := by
  refine ⟨h.alike, ?_⟩
  intro b old new hold hnew
  by_cases howned : ∃ x y, (x, y) ∈ i.place.region ∧ p.layout.Owns x y b
  · obtain ⟨x, y, hmem, howns⟩ := howned
    cases hnew.symm.trans (h.sample hcolors hmem howns hold)
    exact le_deposit _ old
  · have hsame := h.outside b fun x y hmem howns => howned ⟨x, y, hmem, howns⟩
    cases hnew.symm.trans (hsame.trans hold)
    exact UInt8.le_refl _

/-- One stamp on two pixmaps: the same bytes take in the same coverage. -/
theorem Imprinted.below_below (h : Imprinted i p q) (h' : Imprinted i p' q')
    (hcolors : p.layout.colors = 0) (hle : p.Below p') : q.Below q' := by
  have hlayout := hle.alike.layout
  refine ⟨(h.alike.symm.trans hle.alike).trans h'.alike, ?_⟩
  intro b old new hold hnew
  obtain ⟨first, hfirst⟩ := h.alike.symm.exists_sample hold
  obtain ⟨second, hsecond⟩ := hle.alike.exists_sample hfirst
  have horder := hle.le b first second hfirst hsecond
  by_cases howned : ∃ x y, (x, y) ∈ i.place.region ∧ p.layout.Owns x y b
  · obtain ⟨x, y, hmem, howns⟩ := howned
    cases hold.symm.trans (h.sample hcolors hmem howns hfirst)
    cases hnew.symm.trans (h'.sample (hlayout ▸ hcolors) hmem (hlayout.symm ▸ howns) hsecond)
    exact deposit_mono horder
  · have hfree : ∀ x y, (x, y) ∈ i.place.region → ¬ p.layout.Owns x y b :=
      fun x y hmem howns => howned ⟨x, y, hmem, howns⟩
    cases hold.symm.trans ((h.outside b hfree).trans hfirst)
    cases hnew.symm.trans ((h'.outside b (hlayout.symm ▸ hfree)).trans hsecond)
    exact horder

theorem Imprinted.covers (h : Imprinted i p q) (hp : p.Gathers) (hdevice : i.place.InDevice)
    {c r : Nat} (hc : c < i.place.window.width) (hr : r < i.place.window.height) :
    ∃ a, q.pixel (i.place.x + c) (i.place.y + r) = .ok [a] ∧
      i.glyph.coverage (i.place.window.skipY + r) (i.place.window.skipX + c) ≤ a := by
  have hmem := (Window.mem_region_iff hdevice).mpr ⟨c, hc, r, hr, rfl, rfl⟩
  obtain ⟨d, new, hd, hnew, hrule⟩ := h.inside _ _ hmem
  have hone := Layout.channels_of_colors_eq_zero (Layout.serves_of_check hp.check).channels_pos
    hp.colorless
  obtain ⟨old, rfl⟩ := List.length_eq_one_iff.mp ((length_of_pixel hd).trans hone)
  rw [stamped_iff, Shape.stamped_colorless hp.colorless] at hrule
  rw [hrule] at hnew
  exact ⟨_, hnew, cover_le_deposit _ old⟩

theorem imprintAll_append (p : Pixmap) (before after : List Imprint) :
    p.imprintAll (before ++ after) = (p.imprintAll before).bind (·.imprintAll after) :=
  List.foldlM_append

theorem imprintAll_cons (p : Pixmap) (i : Imprint) (later : List Imprint) :
    p.imprintAll (i :: later) = (p.imprint i).bind (·.imprintAll later) := rfl

section Run

variable {imprints : List Imprint} (hp : p.Gathers)
  (hdevice : ∀ i ∈ imprints, i.place.InDevice) (h : p.imprintAll imprints = .ok q)
include hp hdevice h

theorem imprintAll_below : p.Below q := by
  induction imprints generalizing p with
  | nil =>
    cases h
    exact .refl _
  | cons i imprints ih =>
    rw [List.forall_mem_cons] at hdevice
    obtain ⟨mid, hmid, h⟩ := Failure.ok_of_bind h
    have hfirst := (imprinted_of_ok hp hdevice.1 hmid).below hp.colorless
    exact hfirst.trans (ih (hp.alike hfirst.alike) hdevice.2 h)

theorem imprintAll_below_below (hle : p.Below p') :
    ∃ q', p'.imprintAll imprints = .ok q' ∧ q.Below q' := by
  induction imprints generalizing p p' with
  | nil =>
    cases h
    exact ⟨p', rfl, hle⟩
  | cons i imprints ih =>
    rw [List.forall_mem_cons] at hdevice
    obtain ⟨mid, hmid, h⟩ := Failure.ok_of_bind h
    obtain ⟨mid', hmid'⟩ := imprint_ok_of_alike hp hdevice.1 hle.alike hmid
    have hfirst := imprinted_of_ok hp hdevice.1 hmid
    have hfirst' := imprinted_of_ok (hp.alike hle.alike) hdevice.1 hmid'
    obtain ⟨q', hq', hrest⟩ := ih (hp.alike hfirst.alike) hdevice.2 h
      (hfirst.below_below hfirst' hp.colorless hle)
    refine ⟨q', ?_, hrest⟩
    rw [imprintAll_cons, hmid']
    exact hq'

end Run

/-- Stamps that are all accepted, on a pixmap with nothing but alpha. No byte ever falls: not in
one stamp, not up to it and not behind it. After each stamp the pixels of its window have at least
the coverage that the glyph has there. And of two pixmaps in order, the one with more coverage
takes all of the stamps too and stays in order with the other behind each of them. -/
theorem coverage_gathers {dst out : Pixmap} {imprints : List Imprint} (hdst : dst.Gathers)
    (hdevice : ∀ i ∈ imprints, i.place.InDevice) (hout : dst.imprintAll imprints = .ok out) :
    (∀ done i later, imprints = done ++ i :: later →
      ∃ p q, dst.imprintAll done = .ok p ∧ p.imprint i = .ok q ∧ q.imprintAll later = .ok out ∧
        dst.Below p ∧ p.Below q ∧ q.Below out ∧
        ∀ c < i.place.window.width, ∀ r < i.place.window.height,
          ∃ a, q.pixel (i.place.x + c) (i.place.y + r) = .ok [a] ∧
            i.glyph.coverage (i.place.window.skipY + r) (i.place.window.skipX + c) ≤ a) ∧
    ∀ dst', dst.Below dst' → ∀ done, done <+: imprints →
      ∃ p p', dst.imprintAll done = .ok p ∧ dst'.imprintAll done = .ok p' ∧ p.Below p' := by
  constructor
  · rintro done i later rfl
    rw [List.forall_mem_append, List.forall_mem_cons] at hdevice
    rw [imprintAll_append] at hout
    obtain ⟨p, hdone, hout⟩ := Failure.ok_of_bind hout
    obtain ⟨q, hi, hlater⟩ := Failure.ok_of_bind hout
    have hbefore := imprintAll_below hdst hdevice.1 hdone
    have hp := hdst.alike hbefore.alike
    have hstep := imprinted_of_ok hp hdevice.2.1 hi
    have hbelow := hstep.below hp.colorless
    exact ⟨p, q, hdone, hi, hlater, hbefore, hbelow,
      imprintAll_below (hp.alike hbelow.alike) hdevice.2.2 hlater,
      fun c hc r hr => hstep.covers hp hdevice.2.1 hc hr⟩
  · rintro dst' hle done ⟨later, rfl⟩
    rw [List.forall_mem_append] at hdevice
    rw [imprintAll_append] at hout
    obtain ⟨p, hdone, -⟩ := Failure.ok_of_bind hout
    obtain ⟨p', hdone', hbelow⟩ := imprintAll_below_below hdst hdevice.1 hdone hle
    exact ⟨p, p', hdone, hdone', hbelow⟩

def veil : Pixmap := ⟨⟨0, 0, 3, 1, 1, true, 4⟩, [0, 100, 255, 9]⟩

/-- The rising coverage of a glyph, twice, and the second time one pixel further on. -/
def ripples : List Imprint :=
  [⟨.all, ramp, [], ⟨0, 0, 3, 1, 0, 0⟩⟩, ⟨.generalOnly, ramp, [], ⟨1, 0, 2, 1, 0, 0⟩⟩]

theorem coverage_gathers_ripples :
    veil.Gathers ∧ (∀ i ∈ ripples, i.place.InDevice) ∧
    ∃ out, veil.imprintAll ripples = .ok out ∧ veil.Below out ∧
      ∃ a, out.pixel 2 0 = .ok [a] ∧ 128 ≤ a := by
  have hdst : veil.Gathers := ⟨rfl, rfl⟩
  have hdevice : ∀ i ∈ ripples, i.place.InDevice := by
    rw [ripples, List.forall_mem_cons, List.forall_mem_singleton]
    exact ⟨⟨by decide, by decide, by decide, by decide⟩, by decide, by decide, by decide, by decide⟩
  obtain ⟨out, hout⟩ : ∃ out, veil.imprintAll ripples = .ok out := ⟨_, by with_unfolding_all rfl⟩
  obtain ⟨hsteps, -⟩ := coverage_gathers hdst hdevice hout
  obtain ⟨p, q, -, -, hq, hbefore, hstep, -, hcovers⟩ := hsteps [_] _ [] rfl
  cases hq
  have hcover : ramp.coverage (0 + 0) (0 + 1) = 128 := by decide +kernel
  obtain ⟨a, ha, hle⟩ := hcovers 1 (by decide) 0 (by decide)
  exact ⟨hdst, hdevice, _, hout, hbefore.trans hstep, a, ha, hcover ▸ hle⟩

end Pixmap

end Scanline
