import Bson.Double.Text
import Bson.Value

/-!
# Values as text

`Value.display` shows a value for a reader: the name of its kind, and in brackets what it holds.
Fields are shown as `name: value`, and fields and items are separated by a space. The text is not
meant to be read back.
-/

namespace Bson

/-- a date where there is one, milliseconds otherwise -/
def displayMillis (n : Int64) : String :=
  match Instant.ofMillis? n.toInt with
  | some t => t.rfc3339
  | none => Decimal.ofInt n.toInt ++ "ms"

def displayBytes (bs : Bytes) : String :=
  "[" ++ String.intercalate ", " (bs.map fun b => Decimal.ofNat b.toNat) ++ "]"

mutual

def Value.display : Value → String
  | .double d => "Double(" ++ d.display ++ ")"
  | .string s => "String(" ++ s ++ ")"
  | .document fs => "Document[" ++ String.intercalate " " (displayFields fs) ++ "]"
  | .map fs => "Map[" ++ String.intercalate " " (displayFields fs) ++ "]"
  | .array items => "Array([" ++ String.intercalate " " (displayItems items) ++ "])"
  | .binary bs => "Binary(" ++ displayBytes bs ++ ")"
  | .undefined => "Undefined()"
  | .objectId id => "ObjectId(" ++ id.hex ++ ")"
  | .boolean b => if b then "Bool(true)" else "Bool(false)"
  | .dateTime n => "DateTime(" ++ displayMillis n ++ ")"
  | .null => "Null()"
  | .regex r => "Regex(Pattern(" ++ r.pattern ++ ") Options(" ++ r.options ++ "))"
  | .dbPointer p => "DbPointer(Name(" ++ p.collection ++ ") ObjectId(" ++ p.id.hex ++ "))"
  | .javaScript code => "JavaScript(" ++ code ++ ")"
  | .symbol s => "Symbol(" ++ s ++ ")"
  | .codeWithScope code scope =>
    "JavaScriptWithScope(Code(" ++ code ++ ") Scope(Document["
      ++ String.intercalate " " (displayFields scope) ++ "]))"
  | .int32 n => "Int32(" ++ Decimal.ofInt n.toInt ++ ")"
  | .timestamp n => "Timestamp(" ++ Decimal.ofInt n.toInt ++ ")"
  | .int64 n => "Int64(" ++ Decimal.ofInt n.toInt ++ ")"
  | .minKey => "MinKey()"
  | .maxKey => "MaxKey()"
  | .raw doc => "Raw(" ++ Decimal.ofNat doc.bytes.length ++ " bytes)"

def displayFields : List (String × Value) → List String
  | [] => []
  | (k, v) :: rest => (k ++ ": " ++ v.display) :: displayFields rest

def displayItems : List Value → List String
  | [] => []
  | v :: rest => v.display :: displayItems rest

end

end Bson
