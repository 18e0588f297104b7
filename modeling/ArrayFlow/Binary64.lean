/-!
# Numbers of double precision

The finite numbers of double precision that are not negative.

* `Binary64`            : such a number, `mantissa * 2 ^ exponent`;
* `Binary64.nearest?`   : a quotient rounded to the nearest one, a tie going to the even mantissa;
  nothing if the quotient is beyond their range;
* `Binary64.ofDecimal?` : the nearest one to a decimal number;
* `Binary64.mul?`       : the rounded product.

The mantissa has 53 binary digits, fewer only at the least exponent, so equal numbers have one form.
-/

namespace ArrayFlow

/-- A finite number of double precision, `mantissa * 2 ^ exponent`. -/
structure Binary64 where
  mantissa : Nat
  exponent : Int
  deriving DecidableEq, Inhabited, Repr

namespace Binary64

def leastExponent : Int := -1074

def greatestExponent : Int := 971

def mantissaLimit : Nat := Nat.pow 2 53

def zero : Binary64 := ⟨0, leastExponent⟩

/-! ## rounding -/

/-- A quotient rounded to the nearest whole number, halves to the even one. -/
def roundDiv (num den : Nat) : Nat :=
  let twice := 2 * (num % den)
  if twice < den ∨ (twice = den ∧ num / den % 2 = 0) then num / den else num / den + 1

/-- Numerator and denominator of a quotient divided by `2 ^ e`. -/
def unscale (num den : Nat) (e : Int) : Nat × Nat :=
  (num * Nat.pow 2 (-e).toNat, den * Nat.pow 2 e.toNat)

/-- The place of the leading binary digit of a positive quotient: the greatest `e` with `2 ^ e` not
above it. -/
def leading (num den : Nat) : Int :=
  let e : Int := (num.log2 : Int) - den.log2
  let (n, d) := unscale num den e
  if d ≤ n then e else e - 1

/-- The nearest number to a quotient, if it is in range. -/
def nearest? (num den : Nat) : Option Binary64 :=
  if num = 0 then some zero
  else
    let last := leading num den - 52
    let e := if last < leastExponent then leastExponent else last
    let (n, d) := unscale num den e
    let m := roundDiv n d
    -- rounding up may take one more binary digit
    let x : Binary64 := if m = mantissaLimit then ⟨m / 2, e + 1⟩ else ⟨m, e⟩
    if x.exponent ≤ greatestExponent then some x else none

/-- The nearest number to `mantissa * 10 ^ exponent`, if it is in range. The powers of ten are not
computed where the number of digits before the point decides. -/
def ofDecimal? (mantissa : Nat) (exponent : Int) : Option Binary64 :=
  let size := (Nat.toDigits 10 mantissa).length + exponent
  if mantissa = 0 ∨ size < -330 then some zero
  else if 330 < size then none
  else nearest? (mantissa * Nat.pow 10 exponent.toNat) (Nat.pow 10 (-exponent).toNat)

/-- The nearest number to a product, if it is in range. -/
def mul? (x y : Binary64) : Option Binary64 :=
  let e := x.exponent + y.exponent
  nearest? (x.mantissa * y.mantissa * Nat.pow 2 e.toNat) (Nat.pow 2 (-e).toNat)

end Binary64

end ArrayFlow
