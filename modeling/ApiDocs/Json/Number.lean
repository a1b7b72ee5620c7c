/-!
# JSON numbers

A number is kept as it is written. As a double-precision float it is taken to be a whole number
times a power of ten: the whole number has the leading digits, as many as fit a 64-bit word, and it
is rounded to a float before it is multiplied, as is the power of ten. The product may so exceed the
range of floats where the written number does not, and the other way round.

## Main definitions

* `JsonNumber`: numbers as they are written.
* `JsonNumber.leading`: the leading digits as a whole number, with a power of ten.
* `JsonNumber.isFinite`: whether a number is within the range of floats.
* `JsonNumber.toNat?`: the value of a number that counts something.
-/

namespace ApiDocs

/-- A number as it is written. -/
structure JsonNumber where
  /-- Whether a minus sign stands first. -/
  isNegative : Bool := false
  /-- The value of the digits before the point. -/
  whole : Nat
  /-- The digits after the point; none if there is no point. -/
  fraction : List Char := []
  /-- The exponent of ten, if one is written. -/
  exponent : Option Int := none
deriving DecidableEq, Repr

namespace JsonNumber

/-- Appends digits to a 64-bit word until one does not fit. The result is the word and the digits
that are left. -/
def fill (word : Nat) : List Char → Nat × List Char
  | [] => (word, [])
  | c :: cs =>
    let more := 10 * word + (c.toNat - '0'.toNat)
    if more < UInt64.size then fill more cs else (word, c :: cs)

/-- The leading digits as a whole number below 2⁶⁴, and the exponent of ten to multiply it by.
Digits before the point that do not fit raise the exponent, and digits after the point that fit
lower it. -/
def leading (n : JsonNumber) : Nat × Int :=
  let (word, left) := fill 0 (Nat.toDigits 10 n.whole)
  let (word, ignored) := fill word n.fraction
  (word, n.exponent.getD 0 + left.length + ignored.length - n.fraction.length)

/-- A natural number rounded to 53 binary digits, a half going to the even neighbour. -/
def toDouble (n : Nat) : Nat :=
  let unit := Nat.pow 2 (n.log2 - 52)
  let below := n / unit
  let excess := 2 * (n % unit)
  if unit < excess ∨ unit = excess ∧ below % 2 = 1 then (below + 1) * unit else below * unit

/-- The least magnitude that rounds to infinity as a double-precision float. -/
def overflow : Nat :=
  Nat.pow 2 1024 - Nat.pow 2 970

/-- The greatest power of ten that is finite as a double-precision float. -/
def maxExponent : Nat := 308

/-- Whether the number is within the range of double-precision floats. -/
def isFinite (n : JsonNumber) : Bool :=
  match n.leading with
  | (0, _) => true
  | (_, .negSucc _) => true
  | (word, .ofNat e) =>
    e ≤ maxExponent && toDouble word * toDouble (Nat.pow 10 e) < overflow

/-- The value of a number without sign, point and exponent. -/
def toNat? (n : JsonNumber) : Option Nat :=
  if n.isNegative || !n.fraction.isEmpty || n.exponent.isSome then none else some n.whole

end JsonNumber

end ApiDocs
