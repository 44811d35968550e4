import Bson.Double

/-!
# The double nearest to a decimal

* `Double.ofRatio`     the double nearest to a positive quotient of naturals, a tie going to the
                       even mantissa, beyond the largest finite number to infinity;
* `Double.ofDecimal`   the double nearest to `± m * 10 ^ e`.

Everything is computed in naturals, so no rounding happens but the one that is meant.
-/

namespace Bson.Double

/-- `num / den` to the nearest natural, a tie going to the even one -/
def roundHalfEven (num den : Nat) : Nat :=
  let q := num / den
  let r := num % den
  if 2 * r < den then q
  else if den < 2 * r then q + 1
  else q + q % 2

/-- the numerator and denominator of `num / den / 2 ^ q` -/
def scaled (num den : Nat) (q : Int) : Nat × Nat :=
  match q with
  | .ofNat k => (num, den <<< k)
  | .negSucc k => (num <<< (k + 1), den)

/-- the exponent of the last place of `num / den`: the quotient by that power of two has 53 bits,
or fewer where the exponent cannot be lower -/
def lastPlace (num den : Nat) : Int :=
  let guess : Int := max ((Nat.log2 num : Int) - Nat.log2 den - 52) (-1074)
  let (n, d) := scaled num den guess
  if n / d < 0x10000000000000 ∧ -1074 < guess then guess - 1 else guess

/-- the double nearest to `num / den`, for positive `num` and `den` -/
def ofRatio (sign : Bool) (num den : Nat) : Double :=
  let q := lastPlace num den
  let (n, d) := scaled num den q
  let low := (roundHalfEven n d : Int) + (q + 1074) * 0x10000000000000
  if low < 0x7ff0000000000000 then ofParts sign low.toNat else infinity sign

/-- the double nearest to `m * 10 ^ e` with a sign; far out of range no power is computed -/
def ofDecimal (sign : Bool) (m : Nat) (e : Int) : Double :=
  if m = 0 then ofParts sign 0
  else
    let top := (Nat.toDigits 10 m).length + e
    if 400 < top then infinity sign
    else if top < -400 then ofParts sign 0
    else
      let (n, d) := tenPow e
      ofRatio sign (m * n) d

def ofInt (n : Int) : Double := ofDecimal (decide (n < 0)) n.natAbs 0

example : ofDecimal false 1 0 = ⟨0x3ff0000000000000⟩ := by decide +kernel
example : ofDecimal true 1 (-1) = ⟨0xbfb999999999999a⟩ := by decide +kernel
example : ofDecimal false 5 (-324) = ⟨1⟩ := by decide +kernel
example : ofDecimal false 17976931348623159 292 = infinity false := by decide +kernel

end Bson.Double
