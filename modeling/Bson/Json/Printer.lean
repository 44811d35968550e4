import Bson.Double.Text
import Bson.Json

/-!
# JSON text

* `Json.compact`   the text without any space;
* `Json.pretty`    the text with one member or item to a line, two spaces for each level;
* `Json.quote`     a string in quotes: the quote, the backslash and the control characters below
                   U+0020 are escaped, nothing else;
* `Json.format`    how a double is written.
-/

namespace Bson.Json

/-- doubles keep a point, and are written positionally from `1e-5` up to `1e16` -/
def format : Double.Format := ⟨some (-5, 15), true, .even⟩

def escape (c : Char) : List Char :=
  match c with
  | '"' => ['\\', '"']
  | '\\' => ['\\', '\\']
  | '\x08' => ['\\', 'b']
  | '\x0c' => ['\\', 'f']
  | '\n' => ['\\', 'n']
  | '\r' => ['\\', 'r']
  | '\t' => ['\\', 't']
  | c =>
    if c.toNat < 0x20 then
      ['\\', 'u', '0', '0', Nat.digitChar (c.toNat / 16), Nat.digitChar (c.toNat % 16)]
    else [c]

def quote (s : String) : String := String.ofList ('"' :: (s.toList.flatMap escape ++ ['"']))

def Number.text : Number → String
  | .natural n => Decimal.ofNat n.toNat
  | .negative n => Decimal.ofInt n.toInt
  | .float d => Double.render format d

/-! ### without spaces -/

mutual

def compact : Json → String
  | .null => "null"
  | .bool b => if b then "true" else "false"
  | .number n => n.text
  | .string s => quote s
  | .array items => "[" ++ String.intercalate "," (compactItems items) ++ "]"
  | .object members => "\x7b" ++ String.intercalate "," (compactMembers members) ++ "\x7d"

def compactItems : List Json → List String
  | [] => []
  | j :: rest => j.compact :: compactItems rest

def compactMembers : List (String × Json) → List String
  | [] => []
  | (name, j) :: rest => (quote name ++ ":" ++ j.compact) :: compactMembers rest

end

/-! ### on lines -/

def newLine (level : Nat) : String := String.ofList ('\n' :: List.replicate (2 * level) ' ')

/-- entries between brackets, one to a line; nothing between the brackets where there are none -/
def bracketed (opening closing : String) (level : Nat) (entries : List String) : String :=
  if entries.isEmpty then opening ++ closing
  else
    opening ++ newLine (level + 1) ++ String.intercalate ("," ++ newLine (level + 1)) entries
      ++ newLine level ++ closing

mutual

/-- the text on lines, of a value at a level -/
def lines (level : Nat) : Json → String
  | .null => "null"
  | .bool b => if b then "true" else "false"
  | .number n => n.text
  | .string s => quote s
  | .array items => bracketed "[" "]" level (lineItems (level + 1) items)
  | .object members => bracketed "\x7b" "\x7d" level (lineMembers (level + 1) members)

def lineItems (level : Nat) : List Json → List String
  | [] => []
  | j :: rest => lines level j :: lineItems level rest

def lineMembers (level : Nat) : List (String × Json) → List String
  | [] => []
  | (name, j) :: rest => (quote name ++ ": " ++ lines level j) :: lineMembers level rest

end

def pretty (j : Json) : String := lines 0 j

example : compact (.object [("a", .array [.null, .bool true])]) = "\x7b\"a\":[null,true]\x7d" := rfl

end Bson.Json
