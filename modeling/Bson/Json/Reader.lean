import Bson.Json
import Bson.Text.Decimal

/-!
# Reading JSON text

`Json.read?` reads a whole text as one JSON value, strictly: white space is space, tab, line feed
and carriage return; no character follows the value; strings hold no raw control character and no
half of a surrogate pair; numbers have the JSON form. Containers nested deeper than the given
depth are refused. Of repeated members the first place and the last value are kept.

An integer that fits 64 bits is kept as one, and every other number becomes the nearest double,
which has to be finite; so does a zero with a minus sign.
-/

namespace Bson.Json

def skipBlank (cs : List Char) : List Char :=
  cs.dropWhile fun c => c == ' ' || c == '\t' || c == '\n' || c == '\r'

/-! ### strings -/

def hexDigit? (c : Char) : Option Nat :=
  if '0' ≤ c ∧ c ≤ '9' then some (c.toNat - 48)
  else if 'a' ≤ c ∧ c ≤ 'f' then some (c.toNat - 87)
  else if 'A' ≤ c ∧ c ≤ 'F' then some (c.toNat - 55)
  else none

/-- the sixteen-bit unit of four hexadecimal digits -/
def unit? : List Char → Option (Nat × List Char)
  | a :: b :: c :: d :: rest => do
    let a ← hexDigit? a
    let b ← hexDigit? b
    let c ← hexDigit? c
    let d ← hexDigit? d
    return (((a * 16 + b) * 16 + c) * 16 + d, rest)
  | _ => none

/-- the character after a backslash and a `u`: one unit, or a pair of surrogates -/
def escapedUnit? (cs : List Char) : Option (Char × List Char) := do
  let (high, rest) ← unit? cs
  if high < 0xd800 ∨ 0xdfff < high then return (Char.ofNat high, rest)
  else if 0xdbff < high then none
  else
    match rest with
    | '\\' :: 'u' :: more =>
      let (low, rest) ← unit? more
      if 0xdc00 ≤ low ∧ low ≤ 0xdfff then
        return (Char.ofNat (0x10000 + (high - 0xd800) * 1024 + (low - 0xdc00)), rest)
      else none
    | _ => none

def escaped? : List Char → Option (Char × List Char)
  | 'u' :: rest => escapedUnit? rest
  | c :: rest =>
    match c with
    | '"' | '\\' | '/' => some (c, rest)
    | 'b' => some ('\x08', rest)
    | 'f' => some ('\x0c', rest)
    | 'n' => some ('\n', rest)
    | 'r' => some ('\r', rest)
    | 't' => some ('\t', rest)
    | _ => none
  | [] => none

/-- the characters up to the closing quote, in at most `fuel` steps -/
def stringBody? : (fuel : Nat) → List Char → Option (List Char × List Char)
  | 0, _ => none
  | _ + 1, [] => none
  | fuel + 1, c :: rest =>
    if c = '"' then some ([], rest)
    else if c = '\\' then do
      let (c, rest) ← escaped? rest
      let (body, rest) ← stringBody? fuel rest
      return (c :: body, rest)
    else if c.toNat < 0x20 then none
    else do
      let (body, rest) ← stringBody? fuel rest
      return (c :: body, rest)

def string? (cs : List Char) : Option (String × List Char) :=
  (stringBody? (cs.length + 1) cs).map fun (body, rest) => (String.ofList body, rest)

/-! ### numbers -/

def digitRun? (cs : List Char) : Option (List Char × List Char) :=
  let (ds, rest) := cs.span fun c => (Decimal.digit? c).isSome
  if ds.isEmpty then none else some (ds, rest)

/-- the digits before the point: a single zero, or a run that starts with another digit -/
def wholePart? : List Char → Option (List Char × List Char)
  | '0' :: rest =>
    match rest with
    | c :: _ => if (Decimal.digit? c).isSome then none else some (['0'], rest)
    | [] => some (['0'], rest)
  | cs => digitRun? cs

def fraction? : List Char → Option (List Char × List Char)
  | '.' :: rest => digitRun? rest
  | cs => some ([], cs)

def exponent? : List Char → Option (Option Int × List Char)
  | c :: rest =>
    if c = 'e' ∨ c = 'E' then do
      let (sign, rest) : Bool × List Char := match rest with
        | '-' :: more => (true, more)
        | '+' :: more => (false, more)
        | more => (false, more)
      let (ds, rest) ← digitRun? rest
      let n ← Decimal.digits? ds
      return (some (if sign then -(n : Int) else n), rest)
    else some (none, c :: rest)
  | [] => some (none, [])

/-- a double, unless it is too large -/
def finite? (d : Double) : Option Number := if d.isFinite then some (.float d) else none

def integer? (sign : Bool) (n : Nat) : Option Number :=
  if sign then
    if n = 0 ∨ 0x8000000000000000 < n then finite? (Double.ofDecimal true n 0)
    else some (.negative (Int64.ofInt (-(n : Int))))
  else if n < UInt64.size then some (.natural (UInt64.ofNat n))
  else finite? (Double.ofDecimal false n 0)

/-- a number, the minus sign of which was read if there was one -/
def unsigned? (sign : Bool) (cs : List Char) : Option (Number × List Char) := do
  let (whole, rest) ← wholePart? cs
  let (places, rest) ← fraction? rest
  let (exponent, rest) ← exponent? rest
  let m ← Decimal.digits? (whole ++ places)
  let n ← match places, exponent with
    | [], none => integer? sign m
    | _, _ => finite? (Double.ofDecimal sign m (exponent.getD 0 - places.length))
  return (n, rest)

def number? : List Char → Option (Number × List Char)
  | '-' :: rest => unsigned? true rest
  | cs => unsigned? false cs

/-! ### values -/

mutual

/-- one value, in at most `fuel` nested steps, with at most `depth` containers in one another -/
def value? : (fuel depth : Nat) → List Char → Option (Json × List Char)
  | 0, _, _ => none
  | fuel + 1, depth, cs =>
    match skipBlank cs with
    | '"' :: rest => (string? rest).map fun (s, rest) => (.string s, rest)
    | '[' :: rest =>
      match depth with
      | 0 => none
      | depth + 1 =>
        match skipBlank rest with
        | ']' :: rest => some (.array [], rest)
        | rest => (items? fuel depth rest).map fun (items, rest) => (.array items, rest)
    | '\x7b' :: rest =>
      match depth with
      | 0 => none
      | depth + 1 =>
        match skipBlank rest with
        | '\x7d' :: rest => some (.object [], rest)
        | rest => (members? fuel depth rest).map fun (ms, rest) => (.object (Fields.merge ms), rest)
    | 'n' :: 'u' :: 'l' :: 'l' :: rest => some (.null, rest)
    | 't' :: 'r' :: 'u' :: 'e' :: rest => some (.bool true, rest)
    | 'f' :: 'a' :: 'l' :: 's' :: 'e' :: rest => some (.bool false, rest)
    | cs => (number? cs).map fun (n, rest) => (.number n, rest)

/-- the items of an array, at least one, up to the closing bracket -/
def items? : (fuel depth : Nat) → List Char → Option (List Json × List Char)
  | 0, _, _ => none
  | fuel + 1, depth, cs => do
    let (j, rest) ← value? fuel depth cs
    match skipBlank rest with
    | ',' :: rest =>
      let (items, rest) ← items? fuel depth rest
      return (j :: items, rest)
    | ']' :: rest => return ([j], rest)
    | _ => none

def members? : (fuel depth : Nat) → List Char → Option (List (String × Json) × List Char)
  | 0, _, _ => none
  | fuel + 1, depth, cs =>
    match skipBlank cs with
    | '"' :: rest => do
      let (name, rest) ← string? rest
      match skipBlank rest with
      | ':' :: rest =>
        let (j, rest) ← value? fuel depth rest
        match skipBlank rest with
        | ',' :: rest =>
          let (members, rest) ← members? fuel depth rest
          return ((name, j) :: members, rest)
        | '\x7d' :: rest => return ([(name, j)], rest)
        | _ => none
      | _ => none
    | _ => none

end

/-- a whole text as one value; two nested steps are taken for each character at most -/
def read? (depth : Nat) (text : String) : Option Json :=
  let cs := text.toList
  match value? (2 * cs.length + 2) depth cs with
  | some (j, rest) => if (skipBlank rest).isEmpty then some j else none
  | none => none

def standardDepth : Nat := 127

end Bson.Json
