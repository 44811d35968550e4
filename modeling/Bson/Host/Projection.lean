import Bson.Host
import Bson.Wire.Decode
import Bson.Wire.Encode

/-!
# Host records as values

* `rebuild`             the value behind a reserved name, from the value it wraps;
* `Host.toValue`        the value of a host record;
* `Host.toDocument`, `Host.encode`  the document of a host record and its bytes, for records whose
                        value can stand alone.

Records, maps and variants become documents, where a name given twice stands where it first stood,
with its last value; sequences and tuples become arrays. There is no value for single-precision
numbers, for integers of 128 bits or above the range of 64 bits with a sign, and for map keys that
are no text. Errors are located by field names, map keys, indices and variant names; the key of a
map adds no name of its own.
-/

namespace Bson

def unsupported {α : Type} (typeName : String) : Except Error α :=
  .error (Fault.unsupportedType typeName).error

/-- a wrapper around something that it does not wrap -/
def malformed {α : Type} (name found : String) : Except Error α :=
  .error (Fault.serialization (.malformedPayload name found)).error

/-- the value behind a reserved name. A pair of the wrong parts is reported like a missing one. -/
def rebuild (name : String) (inner : Value) : Except Error Value :=
  match Reserved.ofName? name, inner with
  | some .objectId, .string hex => (ObjectId.locatedHex hex).map .objectId
  | some .dateTime, .int64 n => .ok (.dateTime n)
  | some .timestamp, .int64 n => .ok (.timestamp n)
  | some .javaScript, .string code => .ok (.javaScript code)
  | some .symbol, .string s => .ok (.symbol s)
  | some .regex, .array parts =>
    match parts with
    | [.string pattern, .string options] => .ok (.regex ⟨pattern, options⟩)
    | _ => malformed name Value.null.typeName
  | some .dbPointer, .array parts =>
    match parts with
    | [.string collection, .objectId id] => .ok (.dbPointer ⟨collection, id⟩)
    | _ => malformed name Value.null.typeName
  | some .codeWithScope, .array parts =>
    match parts with
    | [.string code, .document scope] => .ok (.codeWithScope code scope)
    | _ => malformed name Value.null.typeName
  | some .map, .document fs => .ok (.map (Document.toMap fs))
  | some .raw, .binary bs => (RawDocument.ofBytes bs).map .raw
  | _, v => malformed name v.typeName

def unitValue (name : String) : Value :=
  match Reserved.ofName? name with
  | some .undefined => .undefined
  | some .minKey => .minKey
  | some .maxKey => .maxKey
  | _ => .null

def variantValue (variant : String) (v : Value) : Value := .document [(variant, v)]

/-- the value of an unsigned integer, if it fits 64 bits with a sign -/
def naturalValue (n : UInt64) : Except Error Value :=
  if n.toNat < 0x8000000000000000 then .ok (.int64 n.toInt64) else unsupported "u64 above i64::MAX"

def keyName : Value → Except Error String
  | .string s => .ok s
  | v => unsupported (v.typeName ++ " map key")

mutual

def Host.toValue : Host → Except Error Value
  | .bool b => .ok (.boolean b)
  | .int8 n => .ok (.int32 n.toInt32)
  | .int16 n => .ok (.int32 n.toInt32)
  | .int32 n => .ok (.int32 n)
  | .int64 n => .ok (.int64 n)
  | .int128 _ => unsupported "i128"
  | .uint8 n => .ok (.int32 (Int32.ofNat n.toNat))
  | .uint16 n => .ok (.int32 (Int32.ofNat n.toNat))
  | .uint32 n => .ok (.int64 (Int64.ofNat n.toNat))
  | .uint64 n => naturalValue n
  | .uint128 _ => unsupported "u128"
  | .float32 _ => unsupported "f32"
  | .float64 d => .ok (.double d)
  | .char c => .ok (.string (String.singleton c))
  | .string s => .ok (.string s)
  | .bytes bs => .ok (.binary bs)
  | .none | .unit => .ok .null
  | .some inner => inner.toValue
  | .namedUnit name => .ok (unitValue name)
  | .unitVariant variant => .ok (.string variant)
  | .named name inner =>
    if Reserved.isReserved name then do
      let v ← inner.toValue
      rebuild name v
    else inner.toValue
  | .valueVariant variant inner => (inField variant inner.toValue).map (variantValue variant)
  | .sequence items | .tuple items | .namedTuple _ items => (itemValues 0 items).map .array
  | .tupleVariant variant items =>
    (inField variant (itemValues 0 items)).map fun vs => variantValue variant (.array vs)
  | .map entries => (entryValues entries).map fun fs => .document (Fields.merge fs)
  | .record _ fields => (fieldValues fields).map fun fs => .document (Fields.merge fs)
  | .recordVariant variant fields =>
    (inField variant (fieldValues fields)).map fun fs =>
      variantValue variant (.document (Fields.merge fs))
  | .failure text => .error (Fault.serialization (.custom text)).error
  | .valueBeforeKey _ => .error (Fault.serialization .valueBeforeKey).error

def itemValues (i : Nat) : List Host → Except Error (List Value)
  | [] => .ok []
  | h :: rest => do
    let v ← inField (Decimal.ofNat i) h.toValue
    let more ← itemValues (i + 1) rest
    return v :: more

/-- the values of map entries, each key before its value -/
def entryValues : List (Host × Host) → Except Error (List (String × Value))
  | [] => .ok []
  | (key, h) :: rest => do
    let k ← key.toValue
    let name ← keyName k
    let v ← inField name h.toValue
    let more ← entryValues rest
    return (name, v) :: more

def fieldValues : List (String × Host) → Except Error (List (String × Value))
  | [] => .ok []
  | (name, h) :: rest => do
    let v ← inField name h.toValue
    let more ← fieldValues rest
    return (name, v) :: more

end

/-- the document of a host record: maps have their names in order, bytes that were not read are
decoded -/
def Host.toDocument (h : Host) : Except Error Document := do
  match ← h.toValue with
  | .document fs => return fs
  | .map fs => return DocumentMap.toDocument fs
  | .raw doc => doc.toDocument
  | v => unsupported v.typeName

def Host.encode (h : Host) : Except Error RawDocument := do
  let v ← h.toValue
  v.encode

end Bson
