import Bson.Double
import Bson.ElementType
import Bson.Fields
import Bson.ObjectId
import Bson.Time

/-!
# Values

* `Value`                   the values of the wire format, one constructor for each element type; an
                            embedded document has three: fields in order (`document`), fields
                            without an order (`map`), and bytes that were not read (`raw`);
* `DbPointer.ofBytes`       a reference with an identifier that is still to be checked;
* `Document`, `DocumentMap` the two lists of fields; the fields of a map stand in the order of their
                            names, so that equal maps are equal lists;
* `Value.typeName`, `Value.elementType`  the name and the element type of a value;
* `Value.isNull`, `Value.asBool?`, …     what a value holds, if it is of the kind asked for;
* `Value.get?`              the value under a name or an array index.
-/

namespace Bson

structure Regex where
  pattern : String
  options : String
  deriving DecidableEq, Repr

/-- a reference to a document: the name of its collection, and its identifier -/
structure DbPointer where
  collection : String
  id : ObjectId
  deriving DecidableEq

def DbPointer.ofBytes (collection : String) (bs : Bytes) : Except Error DbPointer :=
  (ObjectId.located bs).map fun id => ⟨collection, id⟩

/-- the bytes of a document, from the length to the terminator -/
structure RawDocument where
  bytes : Bytes
  deriving DecidableEq, Repr

inductive Value where
  | double (number : Double)
  | string (text : String)
  | document (fields : List (String × Value))
  | map (fields : List (String × Value))
  | array (items : List Value)
  | binary (bytes : Bytes)
  | undefined
  | objectId (id : ObjectId)
  | boolean (flag : Bool)
  | dateTime (millis : Int64)
  | null
  | regex (expression : Regex)
  | dbPointer (pointer : DbPointer)
  | javaScript (code : String)
  | symbol (text : String)
  | codeWithScope (code : String) (scope : List (String × Value))
  | int32 (number : Int32)
  | timestamp (stamp : Int64)
  | int64 (number : Int64)
  | minKey
  | maxKey
  | raw (document : RawDocument)

/-- fields in order, names repeated or not -/
abbrev Document := Fields Value

/-- fields without an order, kept in the order of their names -/
abbrev DocumentMap := Fields Value

namespace Value

def typeName : Value → String
  | double _ => "Double"
  | string _ => "String"
  | document _ => "Document"
  | map _ => "Map"
  | array _ => "Array"
  | binary _ => "Binary"
  | undefined => "Undefined"
  | objectId _ => "ObjectId"
  | boolean _ => "Boolean"
  | dateTime _ => "DateTime"
  | null => "Null"
  | regex _ => "Regex"
  | dbPointer _ => "DbPointer"
  | javaScript _ => "JavaScript"
  | symbol _ => "Symbol"
  | codeWithScope _ _ => "JavaScriptWithScope"
  | int32 _ => "Int32"
  | timestamp _ => "Timestamp"
  | int64 _ => "Int64"
  | minKey => "MinKey"
  | maxKey => "MaxKey"
  | raw _ => "Raw"

def elementType : Value → ElementType
  | double _ => .double
  | string _ => .string
  | document _ | map _ | raw _ => .embeddedDocument
  | array _ => .array
  | binary _ => .binary
  | undefined => .undefined
  | objectId _ => .objectId
  | boolean _ => .boolean
  | dateTime _ => .dateTime
  | null => .null
  | regex _ => .regex
  | dbPointer _ => .dbPointer
  | javaScript _ => .javaScript
  | symbol _ => .symbol
  | codeWithScope _ _ => .codeWithScope
  | int32 _ => .int32
  | timestamp _ => .timestamp
  | int64 _ => .int64
  | minKey => .minKey
  | maxKey => .maxKey

/-- whether a value carries nothing: null, undefined and the two key bounds -/
def isUnit : Value → Bool
  | null | undefined | minKey | maxKey => true
  | _ => false

def isNull : Value → Bool
  | null => true
  | _ => false

def asBool? : Value → Option Bool
  | boolean b => some b
  | _ => none

def asInt32? : Value → Option Int32
  | int32 n => some n
  | _ => none

/-- an integer of either width -/
def asInt64? : Value → Option Int64
  | int32 n => some n.toInt64
  | int64 n => some n
  | _ => none

def asDouble? : Value → Option Double
  | double d => some d
  | _ => none

def asString? : Value → Option String
  | string s => some s
  | _ => none

def asBinary? : Value → Option Bytes
  | binary bs => some bs
  | _ => none

def asObjectId? : Value → Option ObjectId
  | objectId id => some id
  | _ => none

def asInstant? : Value → Option Instant
  | dateTime n | timestamp n => Instant.ofMillis? n.toInt
  | _ => none

def asArray? : Value → Option (List Value)
  | array items => some items
  | _ => none

def asDocument? : Value → Option Document
  | document fs => some fs
  | _ => none

def asMap? : Value → Option DocumentMap
  | map fs => some fs
  | _ => none

/-- the value under a name, or at an array index written in decimal -/
def get? (name : String) : Value → Option Value
  | document fs | map fs => Fields.get? name fs
  | array items => (Decimal.unsigned? UInt64.size name).bind fun i => items[i]?
  | _ => none

end Value

/-- the value at the end of a dotted path, through documents, maps and arrays -/
def Document.getPath? (path : String) (d : Document) : Option Value :=
  match splitDots path with
  | [] => none
  | name :: rest => rest.foldl (fun found name => found.bind (Value.get? name)) (Fields.get? name d)

/-- the fields of a document as a map: repeated names keep the last value -/
def Document.toMap (d : Document) : DocumentMap := Fields.sorted d

def DocumentMap.toDocument (m : DocumentMap) : Document := Fields.sorted m

end Bson
