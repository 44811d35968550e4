import Bson.Double.Nearest
import Bson.Double.Shortest
import Bson.Text.Decimal

/-!
# Doubles as text

* `Double.Format`      the decisions of a float format: where positional notation ends, whether a
                       whole number keeps `.0`, which of two equally near decimals is written;
* `Double.render`      the text of a finite double in such a format;
* `Double.display`     the text of any double, always positional, with `NaN`, `inf` and `-inf`;
* `Double.literal?`    the double that a text spells: a decimal with an optional sign, point and
                       exponent, or `inf`, `infinity` or `nan` in any case.
-/

namespace Bson.Double

structure Format where
  /-- the exponents of the leading digit that are written positionally, if limited -/
  positional : Option (Int × Int)
  /-- whether a whole number ends in `.0` -/
  pointZero : Bool
  tie : Tie

/-- positional notation throughout, and no `.0` -/
def plainFormat : Format := ⟨none, false, .up⟩

def zeros (n : Nat) : List Char := List.replicate n '0'

/-- positional notation of digits whose first has the exponent `e` -/
def positional (pointZero : Bool) (ds : List Char) (e : Int) : List Char :=
  match e with
  | .negSucc k => '0' :: '.' :: (zeros k ++ ds)
  | .ofNat k =>
    if ds.length ≤ k + 1 then
      ds ++ zeros (k + 1 - ds.length) ++ (if pointZero then ['.', '0'] else [])
    else ds.take (k + 1) ++ '.' :: ds.drop (k + 1)

def scientific (ds : List Char) (e : Int) : List Char :=
  let mantissa := match ds with
    | d :: rest@(_ :: _) => d :: '.' :: rest
    | _ => ds
  let mark := if e < 0 then ['e', '-'] else ['e', '+']
  mantissa ++ mark ++ Nat.toDigits 10 e.natAbs

def render (f : Format) (d : Double) : String :=
  let body :=
    if d.isZero then positional f.pointZero ['0'] 0
    else
      let s := shortest f.tie d
      let ds := Nat.toDigits 10 s.digits
      match f.positional with
      | some (low, high) =>
        if low ≤ s.exponent ∧ s.exponent ≤ high then positional f.pointZero ds s.exponent
        else scientific ds s.exponent
      | none => positional f.pointZero ds s.exponent
  String.ofList (if d.sign then '-' :: body else body)

def display (d : Double) : String :=
  if d.isNaN then "NaN"
  else if d.isFinite then render plainFormat d
  else if d.sign then "-inf"
  else "inf"

/-! ### reading -/

/-- the longest run of digits in front, and what follows -/
def digitRun (cs : List Char) : List Char × List Char := cs.span fun c => (Decimal.digit? c).isSome

/-- the exponent that a text spells, sign and digits; nothing may follow -/
def exponent? : List Char → Option Int
  | '-' :: cs => (Decimal.digits? cs).map fun n => -(n : Int)
  | '+' :: cs => (Decimal.digits? cs).map Int.ofNat
  | cs => (Decimal.digits? cs).map Int.ofNat

/-- digits, a point among or beside them, and an exponent -/
def unsignedLiteral? (sign : Bool) (cs : List Char) : Option Double :=
  let (whole, rest) := digitRun cs
  let (places, rest) := match rest with
    | '.' :: more => digitRun more
    | _ => ([], rest)
  let exponent := match rest with
    | [] => some 0
    | c :: more => if c = 'e' ∨ c = 'E' then exponent? more else none
  match Decimal.digits? (whole ++ places), exponent with
  | some m, some e => some (ofDecimal sign m (e - places.length))
  | _, _ => none

/-- a double by its usual spellings, any case for the words -/
def literal? (text : String) : Option Double :=
  let (sign, cs) : Bool × List Char := match text.toList with
    | '-' :: cs => (true, cs)
    | '+' :: cs => (false, cs)
    | cs => (false, cs)
  let word := cs.map Char.toLower
  if word = "inf".toList ∨ word = "infinity".toList then some (infinity sign)
  else if word = "nan".toList then some (nan sign)
  else unsignedLiteral? sign cs

example : display ⟨0x3ff8000000000000⟩ = "1.5" := by decide +kernel
example : display ⟨0x8000000000000000⟩ = "-0" := by decide +kernel
example : literal? "-.5e1" = some (ofDecimal true 5 0) := by decide +kernel
example : literal? "." = none := by decide +kernel
example : literal? "-Infinity" = some (infinity true) := by decide +kernel

end Bson.Double
