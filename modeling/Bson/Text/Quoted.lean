/-!
# A character in single quotes

`Quoted.latin` shows one character of the range U+0000 to U+00FF between single quotes: a backslash
before the quote and the backslash itself, the short escapes `\0`, `\t`, `\n` and `\r`, the code
point in braces for the other characters that do not print, and the character itself otherwise.
-/

namespace Bson.Quoted

/-- the characters of U+0000 to U+00FF that do not print: the control characters, the no-break
space and the soft hyphen -/
def silent (n : Nat) : Bool := n < 0x20 || (0x7f ≤ n && n ≤ 0xa0) || n == 0xad

def body (n : Nat) : String :=
  if n = 0 then "\\0"
  else if n = 9 then "\\t"
  else if n = 10 then "\\n"
  else if n = 13 then "\\r"
  else if n = 39 then "\\'"
  else if n = 92 then "\\\\"
  else if silent n then "\\u\x7b" ++ String.ofList (Nat.toDigits 16 n) ++ "\x7d"
  else String.singleton (Char.ofNat n)

/-- a byte as the character of that number, in single quotes -/
def latin (b : UInt8) : String := "'" ++ body b.toNat ++ "'"

example : latin 0 = "'\\0'" := by decide
example : latin 0xc3 = "'Ã'" := by decide
example : latin 0x1b = "'\\u\x7b1b\x7d'" := by decide

end Bson.Quoted
