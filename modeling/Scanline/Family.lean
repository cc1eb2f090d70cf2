/-! Families of pixel routines, one for each supported count of colour samples.
A set of enabled families decides which of them serves a count: a specialised one where it
is enabled, else the general one, and always the one for pixels without colour. -/
namespace Scanline

inductive Family where
  | alphaOnly
  | gray
  | rgb
  | cmyk
  | general
  deriving DecidableEq, Repr

def Family.name : Family → String
  | .alphaOnly => "alpha-only"
  | .gray => "gray"
  | .rgb => "rgb"
  | .cmyk => "cmyk"
  | .general => "generic"

structure FamilySet where
  gray : Bool
  rgb : Bool
  cmyk : Bool
  general : Bool
  deriving DecidableEq, Repr

namespace FamilySet

def all : FamilySet := ⟨true, true, true, true⟩

def generalOnly : FamilySet := ⟨false, false, false, true⟩

/-- Only the family for pixels without colour, which no set leaves out. -/
def bare : FamilySet := ⟨false, false, false, false⟩

def enable (s : FamilySet) (on : Bool) : Family → FamilySet
  | .alphaOnly => s
  | .gray => { s with gray := on }
  | .rgb => { s with rgb := on }
  | .cmyk => { s with cmyk := on }
  | .general => { s with general := on }

def special? (s : FamilySet) : Nat → Option Family
  | 1 => if s.gray then some .gray else none
  | 3 => if s.rgb then some .rgb else none
  | 4 => if s.cmyk then some .cmyk else none
  | _ => none

def family? (s : FamilySet) (colors : Nat) : Option Family :=
  if colors = 0 then some .alphaOnly
  else (s.special? colors).or (if s.general then some .general else none)

def supports (s : FamilySet) (colors : Nat) : Bool := (s.family? colors).isSome

end FamilySet

end Scanline
