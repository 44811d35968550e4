import Bson.Bytes
import Bson.Text.Decimal

/-!
# Base64 text

The standard alphabet with padding required.

* `Base64.encode`   three bytes to four symbols, the last group filled up with `=`;
* `Base64.decode`   the way back; a text that no byte string is written as is refused with the
                    first fault (`Base64.Error`, worded by `Base64.Error.message`).

The faults are looked for in this order: a length of one symbol too many; from left to right a byte
that is no symbol or a `=` that stands where none may (only the last group of one to eight bytes
may hold any); a last quad that is not full; unused bits that are not zero.
-/

namespace Bson.Base64

/-- why a text is no Base64 text; `byte` is the UTF-8 byte found at the offset -/
inductive Error where
  | badByte (offset : Nat) (byte : UInt8)
  | loneSymbol
  | badPadding
  | badLastSymbol (offset : Nat) (byte : UInt8)
  deriving DecidableEq, Repr

def Error.message : Error → String
  | .badByte offset byte =>
    "Invalid byte " ++ Decimal.ofNat byte.toNat ++ ", offset " ++ Decimal.ofNat offset ++ "."
  | .loneSymbol => "Encoded text cannot have a 6-bit remainder."
  | .badPadding => "Invalid padding"
  | .badLastSymbol offset byte =>
    "Invalid last symbol " ++ Decimal.ofNat byte.toNat ++ ", offset " ++ Decimal.ofNat offset ++ "."

def pad : UInt8 := 61

def symbol (n : Nat) : Char :=
  if n < 26 then Char.ofNat (65 + n)
  else if n < 52 then Char.ofNat (71 + n)
  else if n < 62 then Char.ofNat (n - 4)
  else if n = 62 then '+'
  else '/'

def value? (b : UInt8) : Option Nat :=
  if 65 ≤ b ∧ b ≤ 90 then some (b.toNat - 65)
  else if 97 ≤ b ∧ b ≤ 122 then some (b.toNat - 71)
  else if 48 ≤ b ∧ b ≤ 57 then some (b.toNat + 4)
  else if b = 43 then some 62
  else if b = 47 then some 63
  else none

def symbols : Bytes → List Char
  | [] => []
  | [a] =>
    let n := a.toNat * 16
    [symbol (n / 64), symbol (n % 64), '=', '=']
  | [a, b] =>
    let n := (a.toNat * 256 + b.toNat) * 4
    [symbol (n / 4096), symbol (n / 64 % 64), symbol (n % 64), '=']
  | a :: b :: c :: rest =>
    let n := (a.toNat * 256 + b.toNat) * 256 + c.toNat
    symbol (n / 262144) :: symbol (n / 4096 % 64) :: symbol (n / 64 % 64) :: symbol (n % 64)
      :: symbols rest

def encode (bs : Bytes) : String := String.ofList (symbols bs)

/-- the values of the bytes from `offset` on, where no padding is allowed -/
def plainValues (offset : Nat) : Bytes → Except Error (List Nat)
  | [] => .ok []
  | b :: rest =>
    match value? b with
    | none => .error (.badByte offset b)
    | some n => (plainValues (offset + 1) rest).map (n :: ·)

/-- the values of the last group, `place` bytes of which are read, with the number of `=` after
them; `firstPad` is the place of the first `=` read -/
def lastValues (start : Nat) : (place : Nat) → (firstPad : Option Nat) → Bytes →
    Except Error (List Nat × Nat)
  | _, _, [] => .ok ([], 0)
  | place, firstPad, b :: rest =>
    if b = pad then
      if place % 4 < 2 then .error (.badByte (start + firstPad.getD place) b)
      else (lastValues start (place + 1) (some (firstPad.getD place)) rest).map
        fun (values, pads) => (values, pads + 1)
    else
      match firstPad with
      | some place' => .error (.badByte (start + place') pad)
      | none =>
        match value? b with
        | none => .error (.badByte (start + place) b)
        | some n => (lastValues start (place + 1) none rest).map
            fun (values, pads) => (n :: values, pads)

/-- the bytes that the values of a text hold, four values to three bytes -/
def packed : List Nat → Bytes
  | a :: b :: c :: d :: rest =>
    let n := ((a * 64 + b) * 64 + c) * 64 + d
    UInt8.ofNat (n / 65536) :: UInt8.ofNat (n / 256) :: UInt8.ofNat n :: packed rest
  | [a, b, c] =>
    let n := (a * 64 + b) * 64 + c
    [UInt8.ofNat (n / 1024), UInt8.ofNat (n / 4)]
  | [a, b] => [UInt8.ofNat ((a * 64 + b) / 16)]
  | _ => []

/-- the bits of the last value that no byte takes -/
def unusedBits (values : List Nat) : Nat :=
  match values.length % 4, values.getLast? with
  | 2, some n => n % 16
  | 3, some n => n % 4
  | _, _ => 0

def decode (text : String) : Except Error Bytes :=
  let bs := utf8 text
  let size := bs.length
  if size % 4 = 1 then
    match bs.getLast? with
    | some b =>
      if b ≠ pad ∧ value? b = none then .error (.badByte (size - 1) b) else .error .loneSymbol
    | none => .error .loneSymbol
  else
    let start := (size - 1) / 8 * 8
    match plainValues 0 (bs.take start) with
    | .error e => .error e
    | .ok front =>
      match lastValues start 0 none (bs.drop start) with
      | .error e => .error e
      | .ok (back, pads) =>
        if (pads + back.length) % 4 ≠ 0 then .error .badPadding
        else if unusedBits back ≠ 0 then
          let last := start + back.length - 1
          .error (.badLastSymbol last ((bs.drop last).headD pad))
        else .ok (packed (front ++ back))

example : encode [222, 173, 190, 239] = "3q2+7w==" := by decide
example : decode "3q2+7w==" = .ok [222, 173, 190, 239] := rfl
example : decode "AA==AAAA" = .error (.badByte 2 61) := rfl
example : decode "AB==" = .error (.badLastSymbol 1 66) := rfl

end Bson.Base64
