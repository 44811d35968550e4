/-!
# Doubles by their bit pattern

A `Double` is the bit pattern of an IEEE 754 binary64 number; patterns of NaN are kept apart.

* `Double.sign`, `Double.exponentField`, `Double.fraction`  the three fields of a pattern;
* `Double.isNaN`, `Double.isFinite`, `Double.isZero`        its class;
* `Double.equal`                                            comparison of the numbers: a NaN equals
                                                            nothing, the two zeros are equal;
* `Double.magnitude`                                        a finite number as `m * 2 ^ q`, sign
                                                            apart;
* `Double.tenPow`                                           powers of ten, as quotients.
-/

namespace Bson

/-- a binary64 number, given by its bits -/
structure Double where
  bits : UInt64
  deriving DecidableEq, Repr

namespace Double

def sign (d : Double) : Bool := 0x8000000000000000 ≤ d.bits.toNat

def exponentField (d : Double) : Nat := d.bits.toNat / 0x10000000000000 % 0x800

def fraction (d : Double) : Nat := d.bits.toNat % 0x10000000000000

def isFinite (d : Double) : Bool := d.exponentField < 2047

def isNaN (d : Double) : Bool := d.exponentField == 2047 && d.fraction != 0

def isZero (d : Double) : Bool := d.bits.toNat % 0x8000000000000000 == 0

/-- comparison of the numbers that the patterns stand for -/
def equal (a b : Double) : Bool :=
  !a.isNaN && !b.isNaN && (a == b || (a.isZero && b.isZero))

/-- the pattern of a sign and the 63 bits below it -/
def ofParts (sign : Bool) (low : Nat) : Double :=
  ⟨UInt64.ofNat (if sign then 0x8000000000000000 + low else low)⟩

def infinity (sign : Bool) : Double := ofParts sign 0x7ff0000000000000

/-- the NaN with an otherwise empty payload -/
def nan (sign : Bool) : Double := ofParts sign 0x7ff8000000000000

def zero : Double := ⟨0⟩

/-- mantissa and exponent of a finite number: its absolute value is `m * 2 ^ q` -/
def magnitude (d : Double) : Nat × Int :=
  if d.exponentField = 0 then (d.fraction, -1074)
  else (d.fraction + 0x10000000000000, (d.exponentField : Int) - 1075)

/-- numerator and denominator of `10 ^ e` -/
def tenPow (e : Int) : Nat × Nat :=
  match e with
  | .ofNat k => (Nat.pow 10 k, 1)
  | .negSucc k => (1, Nat.pow 10 (k + 1))

example : (⟨0⟩ : Double).equal ⟨0x8000000000000000⟩ = true := by decide
example : infinity true = ⟨0xfff0000000000000⟩ := by decide
example : nan false = ⟨0x7ff8000000000000⟩ := by decide

end Double

end Bson
