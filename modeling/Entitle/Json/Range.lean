/-!
# The range of numerals

A numeral other than an unsigned integer denotes a number of double precision, and one that is too
great denotes none. It is computed in two steps. The leading digits are a whole number, as far as a
word of 64 bits holds it, and the digits after them only count. Then the nearest double of this
number is multiplied by the nearest double of a power of ten. So a numeral may be refused although a
double is near it, and the other way round.

## Main definitions

* `takeDigits`: the number that leading digits write.
* `nearestDouble`: the double that is nearest to a whole number.
* `Scaled`: a whole number with a power of ten.
* `Scaled.overflows`: a product that is too great.

## Main statements

* `takeDigits_lt`: the number of the leading digits is in the bound.
* `nearestDouble_of_lt`: whole numbers of up to 53 bits are doubles.
-/
namespace Entitle.Json

/-! ## Digits -/

/-- The value of a decimal digit. -/
def digitValue (d : Char) : Nat :=
  d.toNat - '0'.toNat

/-- The number that decimal digits write. -/
def natOfDigits (ds : List Char) : Nat :=
  ds.foldl (fun n d => 10 * n + digitValue d) 0

/-- Go on from a number with as many digits as keep it below a bound. The other digits are left. -/
def takeDigits (bound n : Nat) : List Char → Nat × List Char
  | [] => (n, [])
  | d :: ds =>
    if 10 * n + digitValue d < bound then takeDigits bound (10 * n + digitValue d) ds
    else (n, d :: ds)

theorem takeDigits_lt {bound n : Nat} (h : n < bound) (ds : List Char) :
    (takeDigits bound n ds).1 < bound := by
  induction ds generalizing n with
  | nil => exact h
  | cons d ds ih =>
    rw [takeDigits]
    split
    · exact ih ‹_›
    · exact h

/-! ## Doubles -/

/-- A whole number divided by a power of two, to the nearest whole number; a half goes to the even
one. -/
def roundShift (n shift : Nat) : Nat :=
  let unit := 1 <<< shift
  let quotient := n / unit
  let twice := 2 * (n % unit)
  if unit < twice ∨ (twice = unit ∧ quotient % 2 = 1) then quotient + 1 else quotient

/-- The number of digits of a double in base two. -/
def doublePrecision : Nat := 53

/-- The double that is nearest to a whole number, without a bound. -/
def nearestDouble (n : Nat) : Nat :=
  let shift := n.log2 + 1 - doublePrecision
  roundShift n shift <<< shift

theorem nearestDouble_of_lt {n : Nat} (h : n < 1 <<< doublePrecision) : nearestDouble n = n := by
  have shift : n.log2 + 1 - doublePrecision = 0 := by
    rcases Nat.eq_zero_or_pos n with rfl | pos
    · decide
    · have := (Nat.log2_lt (Nat.ne_of_gt pos)).2 (Nat.one_shiftLeft _ ▸ h)
      omega
  simp [nearestDouble, shift, roundShift, Nat.mod_one]

example : nearestDouble (1 <<< 53 + 1) = 1 <<< 53 ∧
    nearestDouble (1 <<< 53 + 3) = 1 <<< 53 + 4 := by
  decide +kernel

/-- The least number that no double is nearest to: half a step above the greatest double. -/
def doubleBound : Nat := 1 <<< 1024 - 1 <<< 970

/-! ## Scaled numbers -/

/-- A whole number times a power of ten. -/
structure Scaled where
  digits : Nat
  exponent : Int
  deriving DecidableEq, Repr

namespace Scaled

/-- What digits before and after a point and an exponent write, up to the digits that a word does
not hold. -/
def ofDigits (whole places : List Char) (exponent : Int) : Scaled :=
  let (n, leftWhole) := takeDigits UInt64.size 0 whole
  let (digits, leftPlaces) := takeDigits UInt64.size n places
  ⟨digits, exponent + leftWhole.length - (places.length - leftPlaces.length)⟩

/-- The greatest power of ten that is a double. -/
def exponentLimit : Nat := 308

/-- Is the product of the nearest doubles too great? -/
def overflows (s : Scaled) : Bool :=
  match s.exponent with
  | .ofNat e =>
    s.digits != 0 && (exponentLimit < e ||
      doubleBound ≤ nearestDouble s.digits * nearestDouble (Nat.pow 10 e))
  | .negSucc _ => false

end Scaled

example : (Scaled.mk 17976931348623157 292).overflows = false
    ∧ (Scaled.mk 17976931348623158 292).overflows = true
    ∧ (Scaled.mk 179769313486231598 291).overflows = false := by decide +kernel

end Entitle.Json
