import Scanline.Failure
/-! Results compared, and read backwards: what has succeeded where a sequence of calls has. -/
namespace Scanline.Failure

deriving instance DecidableEq for Except

variable {α β ε ε' : Type}

theorem eq_some_of_orOverrun {o : Option α} {a : α} (h : orOverrun o = .ok a) : o = some a := by
  cases o with
  | none => cases h
  | some b => exact congrArg some (Except.ok.inj h)

theorem ok_of_bind {x : Except ε α} {f : α → Except ε β} {b : β} (h : x.bind f = .ok b) :
    ∃ a, x = .ok a ∧ f a = .ok b := by
  cases x with
  | error e => cases h
  | ok a => exact ⟨a, rfl, h⟩

theorem ok_of_mapError {x : Except ε α} {f : ε → ε'} {a : α} (h : x.mapError f = .ok a) :
    x = .ok a := by
  cases x with
  | error e => cases h
  | ok b => exact congrArg Except.ok (Except.ok.inj h)

end Scanline.Failure
