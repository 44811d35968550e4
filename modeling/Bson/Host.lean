import Bson.Json
import Bson.Value

/-!
# Host records

`Host` is the data model that records of a program are given in: numbers of all widths, texts,
bytes, options, units, sequences, maps, records, and the four kinds of enumeration variants. A
record can be wrapped in a name (`named`), and a unit can have one (`namedUnit`); by reserved
names the values of the wire format pass through the model:

* `Reserved`            the reserved names;
* `Value.toHost`        a value of the wire format as a host record;
* `Host.plain?`         a host record as plain JSON, which does not know the reserved names:
                        wrappers vanish, and doubles that are not finite become null.
-/

namespace Bson

inductive Host where
  | bool (flag : Bool)
  | int8 (n : Int8)
  | int16 (n : Int16)
  | int32 (n : Int32)
  | int64 (n : Int64)
  | int128 (n : Int)
  | uint8 (n : UInt8)
  | uint16 (n : UInt16)
  | uint32 (n : UInt32)
  | uint64 (n : UInt64)
  | uint128 (n : Nat)
  | float32 (d : Double)
  | float64 (d : Double)
  | char (c : Char)
  | string (text : String)
  | bytes (bs : Bytes)
  | none
  | some (inner : Host)
  | unit
  | namedUnit (name : String)
  | unitVariant (variant : String)
  | named (name : String) (inner : Host)
  | valueVariant (variant : String) (inner : Host)
  | sequence (items : List Host)
  | tuple (items : List Host)
  | namedTuple (name : String) (items : List Host)
  | tupleVariant (variant : String) (items : List Host)
  | map (entries : List (Host × Host))
  | record (name : String) (fields : List (String × Host))
  | recordVariant (variant : String) (fields : List (String × Host))
  /-- a record that cannot be given, with the reason -/
  | failure (text : String)
  /-- a map that gives a value before its key -/
  | valueBeforeKey (inner : Host)

/-- the reserved names, by which values pass through the data model -/
inductive Reserved where
  | objectId
  | dateTime
  | timestamp
  | javaScript
  | symbol
  | regex
  | dbPointer
  | codeWithScope
  | map
  | raw
  | undefined
  | minKey
  | maxKey
  deriving DecidableEq, Repr

namespace Reserved

def start : String := "$__kestrel_"

def suffix : Reserved → String
  | objectId => "object_id"
  | dateTime => "datetime"
  | timestamp => "timestamp"
  | javaScript => "javascript"
  | symbol => "symbol"
  | regex => "regex"
  | dbPointer => "db_pointer"
  | codeWithScope => "code_with_scope"
  | map => "map"
  | raw => "raw"
  | undefined => "undefined"
  | minKey => "min_key"
  | maxKey => "max_key"

def name (r : Reserved) : String := start ++ r.suffix

def all : List Reserved :=
  [objectId, dateTime, timestamp, javaScript, symbol, regex, dbPointer, codeWithScope, map, raw,
    undefined, minKey, maxKey]

def ofName? (text : String) : Option Reserved := all.find? fun r => r.name == text

/-- whether a name is kept for values, known or not -/
def isReserved (text : String) : Bool := start.toList.isPrefixOf text.toList

end Reserved

/-! ### values as host records -/

def wrapped (r : Reserved) (inner : Host) : Host := .named r.name inner

def ObjectId.toHost (id : ObjectId) : Host := wrapped .objectId (.string id.hex)

mutual

def Value.toHost : Value → Host
  | .double d => .float64 d
  | .string s => .string s
  | .document fs => .map (entriesOfFields fs)
  | .map fs => wrapped .map (.map (entriesOfFields fs))
  | .array items => .sequence (hostItems items)
  | .binary bs => .bytes bs
  | .undefined => .namedUnit Reserved.undefined.name
  | .objectId id => id.toHost
  | .boolean b => .bool b
  | .dateTime n => wrapped .dateTime (.int64 n)
  | .null => .unit
  | .regex r => wrapped .regex (.tuple [.string r.pattern, .string r.options])
  | .dbPointer p => wrapped .dbPointer (.tuple [.string p.collection, p.id.toHost])
  | .javaScript code => wrapped .javaScript (.string code)
  | .symbol s => wrapped .symbol (.string s)
  | .codeWithScope code scope =>
    wrapped .codeWithScope (.tuple [.string code, .map (entriesOfFields scope)])
  | .int32 n => .int32 n
  | .timestamp n => wrapped .timestamp (.int64 n)
  | .int64 n => .int64 n
  | .minKey => .namedUnit Reserved.minKey.name
  | .maxKey => .namedUnit Reserved.maxKey.name
  | .raw doc => wrapped .raw (.bytes doc.bytes)

def entriesOfFields : List (String × Value) → List (Host × Host)
  | [] => []
  | (name, v) :: rest => (.string name, v.toHost) :: entriesOfFields rest

def hostItems : List Value → List Host
  | [] => []
  | v :: rest => v.toHost :: hostItems rest

end

/-! ### host records as plain JSON -/

def plainDouble (d : Double) : Json := if d.isFinite then .number (.float d) else .null

def plainInt (n : Int) : Json := .number (.ofInt64 (Int64.ofInt n))

def plainNat (n : Nat) : Json := .number (.ofNat n)

mutual

/-- a host record as plain JSON. Nothing is given for a record that fails, for integers and
doubles of other widths than those of JSON, and for map keys that are no text. -/
def Host.plain? : Host → Option Json
  | .bool b => some (.bool b)
  | .int8 n => some (plainInt n.toInt)
  | .int16 n => some (plainInt n.toInt)
  | .int32 n => some (plainInt n.toInt)
  | .int64 n => some (plainInt n.toInt)
  | .uint8 n => some (plainNat n.toNat)
  | .uint16 n => some (plainNat n.toNat)
  | .uint32 n => some (plainNat n.toNat)
  | .uint64 n => some (plainNat n.toNat)
  | .int128 _ | .uint128 _ | .float32 _ => Option.none
  | .float64 d => some (plainDouble d)
  | .char c => some (.string (String.singleton c))
  | .string s => some (.string s)
  | .bytes bs => some (.array (bs.map fun b => plainNat b.toNat))
  | .none | .unit | .namedUnit _ => some .null
  | .some inner => inner.plain?
  | .unitVariant variant => some (.string variant)
  | .named _ inner => inner.plain?
  | .valueVariant variant inner => inner.plain?.map fun j => .object [(variant, j)]
  | .sequence items | .tuple items | .namedTuple _ items => (plainItems? items).map .array
  | .tupleVariant variant items =>
    (plainItems? items).map fun js => .object [(variant, .array js)]
  | .map entries => (plainEntries? entries).map .object
  | .record _ fields => (plainFields? fields).map .object
  | .recordVariant variant fields =>
    (plainFields? fields).map fun ms => .object [(variant, .object ms)]
  | .failure _ | .valueBeforeKey _ => Option.none

def plainItems? : List Host → Option (List Json)
  | [] => some []
  | h :: rest => do
    let j ← h.plain?
    let more ← plainItems? rest
    return j :: more

def plainEntries? : List (Host × Host) → Option (List (String × Json))
  | [] => some []
  | (key, h) :: rest => do
    let name ← key.plain?
    let name ← name.asString?
    let j ← h.plain?
    let more ← plainEntries? rest
    return (name, j) :: more

def plainFields? : List (String × Host) → Option (List (String × Json))
  | [] => some []
  | (name, h) :: rest => do
    let j ← h.plain?
    let more ← plainFields? rest
    return (name, j) :: more

end

end Bson
