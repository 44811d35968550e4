import Bson.Double.Text
import Bson.Json.Printer
import Bson.Json.Reader
import Bson.Wire.Decode

/-!
# Values as extended JSON

A value that JSON has no form for is written as an object with a marker for its member, such as
`$oid` or `$numberLong`.

* `Value.expanded`      the value with the documents in it decoded that were left as bytes;
* `Value.rendered`      the JSON value of a value without such bytes;
* `Value.toJson`        both together, which fails where bytes do not decode;
* `Value.ofJson`        the value of a JSON value: an object with a marker is the value that the
                        marker stands for, any other object is a document;
* `Value.ofJsonText`, `Document.ofJsonText`  the same from text.

In writing, a repeated name stands where it first stood, with its last value. An error is located
by the names of the fields and the indices of the items, and by `$scope` where the scope of code
is read.
-/

namespace Bson

/-! ### writing -/

mutual

/-- the value with the documents in it decoded that were left as bytes -/
def Value.expanded : Value → Except Error Value
  | .raw doc => doc.toDocument.map .document
  | .document fs => (expandedFields fs).map .document
  | .map fs => (expandedFields fs).map .map
  | .array items => (expandedItems 0 items).map .array
  | .codeWithScope code scope => (expandedFields scope).map (.codeWithScope code)
  | v => .ok v

def expandedFields : List (String × Value) → Except Error (List (String × Value))
  | [] => .ok []
  | (name, v) :: rest => do
    let w ← inField name v.expanded
    let more ← expandedFields rest
    return (name, w) :: more

def expandedItems (i : Nat) : List Value → Except Error (List Value)
  | [] => .ok []
  | v :: rest => do
    let w ← inField (Decimal.ofNat i) v.expanded
    let more ← expandedItems (i + 1) rest
    return w :: more

end

def marked (name : String) (j : Json) : Json := .object [(name, j)]

def ObjectId.toJson (id : ObjectId) : Json := marked "$oid" (.string id.hex)

/-- a finite double is a number, the others are written as text -/
def Double.toJson (d : Double) : Json :=
  if d.isFinite then .number (.float d) else marked "$numberDouble" (.string d.display)

def integerJson (n : Int64) : Json := .number (.ofInt64 n)

mutual

/-- the JSON value of a value that holds no undecoded documents -/
def Value.rendered : Value → Json
  | .null | .raw _ => .null
  | .boolean b => .bool b
  | .int32 n => integerJson n.toInt64
  | .int64 n => marked "$numberLong" (.string (Decimal.ofInt n.toInt))
  | .double d => d.toJson
  | .string s => .string s
  | .binary bs => marked "$binary" (.string (Base64.encode bs))
  | .objectId id => id.toJson
  | .dateTime n => marked "$date" (integerJson n)
  | .timestamp n => marked "$timestamp" (integerJson n)
  | .array items => .array (renderedItems items)
  | .document fs | .map fs => .object (Fields.merge (renderedFields fs))
  | .regex r => .object [("$regex", .string r.pattern), ("$options", .string r.options)]
  | .dbPointer p =>
    marked "$dbPointer" (.object [("$ref", .string p.collection), ("$id", p.id.toJson)])
  | .javaScript code => marked "$code" (.string code)
  | .symbol s => marked "$symbol" (.string s)
  | .codeWithScope code scope =>
    .object [("$code", .string code), ("$scope", .object (Fields.merge (renderedFields scope)))]
  | .undefined => marked "$undefined" (.bool true)
  | .minKey => marked "$minKey" (integerJson 1)
  | .maxKey => marked "$maxKey" (integerJson 1)

def renderedFields : List (String × Value) → List (String × Json)
  | [] => []
  | (name, v) :: rest => (name, v.rendered) :: renderedFields rest

def renderedItems : List Value → List Json
  | [] => []
  | v :: rest => v.rendered :: renderedItems rest

end

def Value.toJson (v : Value) : Except Error Json := v.expanded.map Value.rendered

/-! ### reading -/

def refused {α : Type} (why : Refusal) : Except Error α := .error (Fault.serialization why).error

def numberLong (text : String) : Except Error Value :=
  match Decimal.signed? 0x8000000000000000 text with
  | some n => .ok (.int64 (Int64.ofInt n))
  | none => refused (.badNumberLong text)

def numberDouble (text : String) : Except Error Value :=
  match Double.literal? text with
  | some d => .ok (.double d)
  | none => refused (.badNumberDouble text)

def binaryData (text : String) : Except Error Value :=
  match Base64.decode text with
  | .ok bs => .ok (.binary bs)
  | .error e => refused (.badBase64 e)

def pointer (j : Json) : Except Error Value :=
  match (j.member? "$ref").bind Json.asString? with
  | none => refused .pointerWithoutRef
  | some collection =>
    match ((j.member? "$id").bind (Json.member? "$oid")).bind Json.asString? with
    | none => refused .noObjectId
    | some hex => (ObjectId.locatedHex hex).map fun id => .dbPointer ⟨collection, id⟩

/-- what an object holds under `$scope` -/
inductive Scope where
  | absent
  | noObject
  | fields (result : Except Error (Fields Value))

def codeInScope (code : String) : Scope → Except Error Value
  | .absent => .ok (.javaScript code)
  | .noObject => refused .scopeNotObject
  | .fields result => (inField "$scope" result).map (.codeWithScope code)

/-- the value that the markers of an object stand for, if it has any. The markers are looked for in
this order, and the first one with a value of its kind decides; the scope is asked for only behind
`$code`. -/
def ofMarkers? (members : Fields Json) (scope : Unit → Scope) : Option (Except Error Value) :=
  let text? (name : String) : Option String := (Fields.get? name members).bind Json.asString?
  let integer? (name : String) : Option Int64 := (Fields.get? name members).bind Json.asInt64?
  let has (name : String) : Bool := Fields.contains name members
  ((text? "$oid").map fun hex => (ObjectId.locatedHex hex).map .objectId)
  <|> ((integer? "$date").map fun n => .ok (.dateTime n))
  <|> ((integer? "$timestamp").map fun n => .ok (.timestamp n))
  <|> ((text? "$numberLong").map numberLong)
  <|> ((text? "$numberDouble").map numberDouble)
  <|> ((text? "$binary").map binaryData)
  <|> ((text? "$regex").map fun pattern => .ok (.regex ⟨pattern, (text? "$options").getD ""⟩))
  <|> ((Fields.get? "$dbPointer" members).map pointer)
  <|> ((text? "$code").map fun code => codeInScope code (scope ()))
  <|> ((text? "$symbol").map fun s => .ok (.symbol s))
  <|> (if has "$undefined" then some (.ok .undefined) else none)
  <|> (if has "$minKey" then some (.ok .minKey) else none)
  <|> (if has "$maxKey" then some (.ok .maxKey) else none)

/-- a number as the narrowest integer that holds it, otherwise as a double -/
def numberValue (n : Json.Number) : Value :=
  match n.toInt64? with
  | some i => if i.toInt32.toInt64 = i then .int32 i.toInt32 else .int64 i
  | none => .double n.toDouble

mutual

def Value.ofJson : Json → Except Error Value
  | .null => .ok .null
  | .bool b => .ok (.boolean b)
  | .number n => .ok (numberValue n)
  | .string s => .ok (.string s)
  | .array items => (valuesOfItems 0 items).map .array
  | .object members =>
    match ofMarkers? members (fun _ => scopeOfMembers members) with
    | some result => result
    | none => (fieldsOfMembers members).map fun fs => .document (Fields.merge fs)

def valuesOfItems (i : Nat) : List Json → Except Error (List Value)
  | [] => .ok []
  | j :: rest => do
    let v ← inField (Decimal.ofNat i) (Value.ofJson j)
    let more ← valuesOfItems (i + 1) rest
    return v :: more

def fieldsOfMembers : List (String × Json) → Except Error (List (String × Value))
  | [] => .ok []
  | (name, j) :: rest => do
    let v ← inField name (Value.ofJson j)
    let more ← fieldsOfMembers rest
    return (name, v) :: more

/-- the first member `$scope`, read as a document whatever markers it has -/
def scopeOfMembers : List (String × Json) → Scope
  | [] => .absent
  | (name, j) :: rest =>
    if name = "$scope" then
      match j with
      | .object members => .fields ((fieldsOfMembers members).map Fields.merge)
      | _ => .noObject
    else scopeOfMembers rest

end

def Value.ofJsonText (text : String) : Except Error Value :=
  match Json.read? Json.standardDepth text with
  | some j => Value.ofJson j
  | none => refused .badJson

def Document.ofJsonText (text : String) : Except Error Document :=
  match Value.ofJsonText text with
  | .ok (.document fs) => .ok fs
  | .ok v => .error (Fault.unsupportedType v.typeName).error
  | .error e => .error e

end Bson
