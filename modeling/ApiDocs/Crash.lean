/-!
# Crashes

Code that a caller supplies may break down instead of giving an answer, and so may the writing of a
name whose arity markers overflow. A crash is an ordinary value here, so that the failure of one
assembly can be kept apart from the others.

## Main definitions

* `Crash`: a breakdown, with the text it left behind if any.

## Main results

* `bind_eq_ok_iff`, `map_eq_ok_iff`, `mapError_eq_ok_iff`: when a computation that may fail gives a
  result.
-/

namespace ApiDocs

/-- A breakdown of a computation. -/
structure Crash where
  /-- What the computation left behind, if it was a text. -/
  text : Option String
deriving DecidableEq, Repr

namespace Crash

/-- The crash of a computation whose sum does not fit a 64-bit word. -/
def overflow : Crash :=
  ⟨some "attempt to add with overflow"⟩

/-- The crash of a computation that takes more elements from a list than are left. -/
def pastTheEnd : Crash :=
  ⟨some "mid > len"⟩

/-- The text of a crash, or a stand-in for it. -/
def message (c : Crash) : String :=
  c.text.getD "unknown panic"

end Crash

/-! ### Computations that may fail -/

section

variable {ε ε' α β : Type}

theorem bind_eq_ok_iff {x : Except ε α} {f : α → Except ε β} {b : β} :
    (x >>= f) = .ok b ↔ ∃ a, x = .ok a ∧ f a = .ok b := by
  cases x <;> simp [bind, Except.bind]

theorem map_eq_ok_iff {x : Except ε α} {f : α → β} {b : β} :
    x.map f = .ok b ↔ ∃ a, x = .ok a ∧ f a = b := by
  cases x <;> simp [Except.map]

theorem mapError_ok (f : ε → ε') (a : α) : (Except.ok a).mapError f = .ok a := rfl

theorem mapError_eq_ok_iff {x : Except ε α} {f : ε → ε'} {a : α} :
    x.mapError f = .ok a ↔ x = .ok a := by
  cases x with
  | error e => exact ⟨nofun, nofun⟩
  | ok b => rw [mapError_ok, Except.ok.injEq, Except.ok.injEq]

end

end ApiDocs
