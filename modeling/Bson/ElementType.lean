/-!
# Element types

The twenty element types of the wire format and their tag bytes. `ofTag?` and `tag` are inverse
(`ofTag?_tag`, `tag_of_ofTag?`), so tags tell the types apart.
-/

namespace Bson

inductive ElementType where
  | double
  | string
  | embeddedDocument
  | array
  | binary
  | undefined
  | objectId
  | boolean
  | dateTime
  | null
  | regex
  | dbPointer
  | javaScript
  | symbol
  | codeWithScope
  | int32
  | timestamp
  | int64
  | maxKey
  | minKey
  deriving DecidableEq, Repr

namespace ElementType

def tag : ElementType → UInt8
  | double => 0x01
  | string => 0x02
  | embeddedDocument => 0x03
  | array => 0x04
  | binary => 0x05
  | undefined => 0x06
  | objectId => 0x07
  | boolean => 0x08
  | dateTime => 0x09
  | null => 0x0a
  | regex => 0x0b
  | dbPointer => 0x0c
  | javaScript => 0x0d
  | symbol => 0x0e
  | codeWithScope => 0x0f
  | int32 => 0x10
  | timestamp => 0x11
  | int64 => 0x12
  | maxKey => 0x7f
  | minKey => 0xff

def all : List ElementType :=
  [double, string, embeddedDocument, array, binary, undefined, objectId, boolean, dateTime, null,
    regex, dbPointer, javaScript, symbol, codeWithScope, int32, timestamp, int64, maxKey, minKey]

def ofTag? (b : UInt8) : Option ElementType := all.find? fun t => t.tag == b

def name : ElementType → String
  | double => "Double"
  | string => "String"
  | embeddedDocument => "EmbeddedDocument"
  | array => "Array"
  | binary => "Binary"
  | undefined => "Undefined"
  | objectId => "ObjectId"
  | boolean => "Boolean"
  | dateTime => "DateTime"
  | null => "Null"
  | regex => "Regex"
  | dbPointer => "DbPointer"
  | javaScript => "JavaScript"
  | symbol => "Symbol"
  | codeWithScope => "JavaScriptWithScope"
  | int32 => "Int32"
  | timestamp => "Timestamp"
  | int64 => "Int64"
  | maxKey => "MaxKey"
  | minKey => "MinKey"

@[simp] theorem ofTag?_tag (t : ElementType) : ofTag? t.tag = some t := by cases t <;> rfl

theorem tag_of_ofTag? {b : UInt8} {t : ElementType} (h : ofTag? b = some t) : t.tag = b := by
  simpa using List.find?_some h

theorem tag_ne_zero (t : ElementType) : t.tag ≠ 0 := by cases t <;> decide

end ElementType

end Bson
