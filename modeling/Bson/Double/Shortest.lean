import Bson.Double

/-!
# The shortest decimal that reads back

`Double.shortest` gives the digits and the exponent of a positive finite double: of the decimals
with the fewest digits among those that round to the double, the one nearest to it. `Tie` says which
of two equally near ones is taken.

The numbers that round to `m * 2 ^ q` form an interval around it, whose ends belong to it exactly
when `m` is even. On the grid of the multiples of a power of ten, only the two neighbours of the
number can be the nearest point, so each grid is settled by looking at these two.
-/

namespace Bson.Double

inductive Tie where
  | even
  | up
  deriving DecidableEq, Repr

/-- a positive decimal: its digits as a natural, and the exponent of the first one;
`12345` and `2` are `123.45` -/
structure Numeral where
  digits : Nat
  exponent : Int
  deriving DecidableEq, Repr

/-- the numbers that round to a double, in units of `unit = num / den`: the number itself and the
two ends -/
structure Interval where
  low : Nat
  value : Nat
  high : Nat
  closed : Bool
  num : Nat
  den : Nat

/-- the interval of a positive double; the gap below a power of two is half as wide -/
def interval (d : Double) : Interval :=
  let (m, q) := d.magnitude
  let low := if m = 0x10000000000000 ∧ -1074 < q then 4 * m - 1 else 4 * m - 2
  let unit : Nat × Nat := match q - 2 with
    | .ofNat k => (1 <<< k, 1)
    | .negSucc k => (1, 1 <<< (k + 1))
  ⟨low, 4 * m, 4 * m + 2, m % 2 = 0, unit.1, unit.2⟩

/-- whether `10 ^ e` is at most the number -/
def reaches (i : Interval) (e : Int) : Bool :=
  let (n, d) := tenPow e
  n * i.den ≤ i.value * i.num * d

def leading (i : Interval) : Int :=
  let log : Int := (Nat.log2 (i.value * i.num) : Int) - Nat.log2 i.den
  let guess := (log * 30103).fdiv 100000
  if reaches i (guess + 1) then guess + 1
  else if reaches i guess then guess
  else guess - 1

/-- the point of the grid of the multiples of `10 ^ e` that is nearest to the number among those
that round to it -/
def onGrid (tie : Tie) (i : Interval) (e : Int) : Option Nat :=
  let (n, d) := tenPow e
  let step := n * i.den
  let scale := i.num * d
  let inside (k : Nat) : Bool :=
    if i.closed then i.low * scale ≤ k * step && k * step ≤ i.high * scale
    else i.low * scale < k * step && k * step < i.high * scale
  let below := i.value * scale / step
  let above := below + 1
  let toBelow := i.value * scale - below * step
  let toAbove := above * step - i.value * scale
  match inside below, inside above with
  | false, false => none
  | true, false => some below
  | false, true => some above
  | true, true =>
    if toBelow < toAbove then some below
    else if toAbove < toBelow then some above
    else match tie with
      | .even => some (below + below % 2)
      | .up => some above

/-- the first of the grids with `count`, `count + 1`, … digits that has a point, tried `fuel`
times -/
def search (tie : Tie) (i : Interval) (top : Int) : (fuel count : Nat) → Option (Nat × Int)
  | 0, _ => none
  | fuel + 1, count =>
    let e := top - count + 1
    match onGrid tie i e with
    | some k => some (k, e)
    | none => search tie i top fuel (count + 1)

/-- `k * 10 ^ e` with the zeros at the end of `k` taken into the exponent, at most `fuel` of them -/
def trimmed : (fuel k : Nat) → (e : Int) → Nat × Int
  | 0, k, e => (k, e)
  | fuel + 1, k, e => if k % 10 = 0 then trimmed fuel (k / 10) (e + 1) else (k, e)

/-- the shortest decimal of a positive finite double; seventeen digits are always enough -/
def shortest (tie : Tie) (d : Double) : Numeral :=
  let i := interval d
  let top := leading i
  let (k, e) := ((search tie i top 17 1).map fun (k, e) => trimmed 17 k e).getD (0, 0)
  ⟨k, e + (Nat.toDigits 10 k).length - 1⟩

example : shortest .even ⟨0x3fb999999999999a⟩ = ⟨1, -1⟩ := by decide +kernel
example : shortest .even ⟨0x3e60000000000000⟩ = ⟨29802322387695312, -8⟩ := by decide +kernel
example : shortest .up ⟨0x3e60000000000000⟩ = ⟨29802322387695313, -8⟩ := by decide +kernel
example : shortest .even ⟨1⟩ = ⟨5, -324⟩ := by decide +kernel

end Bson.Double
