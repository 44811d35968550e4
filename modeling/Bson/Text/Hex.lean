import Bson.Bytes

/-!
# Hexadecimal text

* `Hex.encode`   two lower-case digits for each byte;
* `Hex.decode`   the bytes of a hexadecimal text, digits of either case; a text of an odd number of
                 bytes is refused first, then the first byte that is no digit (`Hex.Error`).
-/

namespace Bson.Hex

inductive Error where
  | oddLength
  | badDigit (byte : UInt8) (position : Nat)
  deriving DecidableEq, Repr

def digit (n : Nat) : Char := Nat.digitChar n

/-- the value of a digit byte, of either case -/
def value? (b : UInt8) : Option Nat :=
  if 48 ≤ b ∧ b ≤ 57 then some (b.toNat - 48)
  else if 97 ≤ b ∧ b ≤ 102 then some (b.toNat - 87)
  else if 65 ≤ b ∧ b ≤ 70 then some (b.toNat - 55)
  else none

/-- the digits of a byte string, the high half of each byte first -/
def digits (bs : Bytes) : List Char :=
  bs.flatMap fun b => [digit (b.toNat / 16), digit (b.toNat % 16)]

def encode (bs : Bytes) : String := String.ofList (digits bs)

def readDigit (b : UInt8) (position : Nat) : Except Error Nat :=
  match value? b with
  | some n => .ok n
  | none => .error (.badDigit b position)

/-- digits from `position` on, two to a byte -/
def decodeFrom (position : Nat) : Bytes → Except Error Bytes
  | [] => .ok []
  | [_] => .error .oddLength
  | hi :: lo :: rest => do
    let h ← readDigit hi position
    let l ← readDigit lo (position + 1)
    let tail ← decodeFrom (position + 2) rest
    return UInt8.ofNat (16 * h + l) :: tail

def decode (text : String) : Except Error Bytes :=
  let bs := utf8 text
  if bs.length % 2 = 1 then .error .oddLength else decodeFrom 0 bs

@[simp] theorem digits_nil : digits [] = [] := rfl

theorem digits_cons (b : UInt8) (bs : Bytes) :
    digits (b :: bs) = digit (b.toNat / 16) :: digit (b.toNat % 16) :: digits bs := rfl

theorem length_digits (bs : Bytes) : (digits bs).length = 2 * bs.length := by
  induction bs with
  | nil => rfl
  | cons b rest ih =>
    rw [digits_cons, List.length_cons, List.length_cons, ih, List.length_cons]
    omega

end Bson.Hex
