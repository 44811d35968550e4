/-!
# Integers in decimal

* `Decimal.ofNat`, `Decimal.ofInt`   the decimal text of an integer;
* `Decimal.digits?`                  the natural that a nonempty run of ASCII digits spells;
* `Decimal.unsigned?`, `Decimal.signed?`  a whole text read as an integer of a bounded range: an
                                     optional sign, then digits, leading zeros allowed, nothing
                                     else.
-/

namespace Bson.Decimal

def digit? (c : Char) : Option Nat :=
  if '0' ≤ c ∧ c ≤ '9' then some (c.toNat - 48) else none

/-- `n` extended by the digits to its right -/
def extend? : (n : Nat) → List Char → Option Nat
  | n, [] => some n
  | n, c :: cs => (digit? c).bind fun d => extend? (10 * n + d) cs

/-- the natural that a nonempty run of digits spells -/
def digits? : List Char → Option Nat
  | [] => none
  | c :: cs => extend? 0 (c :: cs)

/-- a natural below `bound`: an optional `+`, then digits -/
def unsigned? (bound : Nat) (text : String) : Option Nat :=
  let run := match text.toList with
    | '+' :: cs => cs
    | cs => cs
  (digits? run).filter (· < bound)

/-- an integer from `-bound` up to `bound - 1`: an optional sign, then digits -/
def signed? (bound : Nat) (text : String) : Option Int :=
  match text.toList with
  | '-' :: cs => ((digits? cs).filter (· ≤ bound)).map fun n => -(n : Int)
  | '+' :: cs => ((digits? cs).filter (· < bound)).map Int.ofNat
  | cs => ((digits? cs).filter (· < bound)).map Int.ofNat

def ofNat (n : Nat) : String := String.ofList (Nat.toDigits 10 n)

def ofInt : Int → String
  | .ofNat n => ofNat n
  | .negSucc n => "-" ++ ofNat (n + 1)

example : unsigned? UInt64.size "+007" = some 7 := by decide
example : unsigned? 256 "256" = none := by decide
example : signed? 0x8000000000000000 "-9223372036854775808" = some (-9223372036854775808) := by decide
example : ofInt (-120) = "-120" := by decide

end Bson.Decimal
