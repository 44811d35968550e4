import Bson.Config
import Bson.Wire.Framed

/-!
# Reading documents

* `readElements`        the elements of a document up to its terminator, whatever reads their
                        payloads;
* `readPayload`         one payload, whatever reads the containers inside it;
* `contents`            the fields of an embedded document, array or scope, with the number of
                        further levels that may be entered; at no level left the document is
                        nested too deeply;
* `ArrayOrder.sort`     the items of an array in the order of their names;
* `Config.decode`       a document at the front of a byte string, in a shape and a nesting mode;
* `Config.fields`       the same as a list of fields, in the order of the bytes.

A document is read level by level: `contents` hands itself, one level less, to `readPayload`. The
elements of a container are read from its own bytes alone, so that the length of each container
bounds what is read in it. An error is located by the names of the elements on the way to it, and
by `Scope` inside the scope of code.
-/

namespace Bson

/-! ### elements -/

/-- the elements up to the terminator, which has to be the last byte; each element takes two bytes
or more, so that as many steps as there are bytes are enough -/
def readElements (payload : UInt8 → Reader Value) : (fuel : Nat) → Bytes →
    Except Error (Fields Value)
  | 0, _ => .error Fault.unexpectedEof.error
  | _ + 1, [] => .error Fault.unexpectedEof.error
  | fuel + 1, tag :: rest =>
    if tag = 0 then
      if rest.isEmpty then .ok []
      else .error (Fault.invalidDocument (.bytesAfterTerminator rest.length)).error
    else
      match Reader.cstring rest with
      | .error e _ => .error e
      | .ok name rest =>
        match payload tag rest with
        | .error e _ => .error (e.within name)
        | .ok v rest => do
          let more ← readElements payload fuel rest
          return (name, v) :: more

/-- the elements of a document without its length -/
def elementsOf (payload : UInt8 → Reader Value) (body : Bytes) : Except Error (Fields Value) :=
  readElements payload (body.length + 1) body

/-! ### arrays -/

/-- the number that the name of an array item spells, if it fits 64 bits -/
def arrayIndex? (name : String) : Option Nat := Decimal.unsigned? UInt64.size name

/-- whether an item of the first name may stand before one of the second: by number, names that are
no numbers after the others by their bytes -/
def numericLE (a b : String) : Bool :=
  match arrayIndex? a, arrayIndex? b with
  | some m, some n => m ≤ n
  | some _, none => true
  | none, some _ => false
  | none, none => !nameBefore b a

def ArrayOrder.le : ArrayOrder → String → String → Bool
  | .numeric => numericLE
  | .lexicographic => fun a b => !nameBefore b a

/-- the items of an array in order; items of equal rank stay as they were written -/
def ArrayOrder.sort (order : ArrayOrder) (fs : Fields Value) : List Value :=
  (fs.mergeSort fun f g => order.le f.1 g.1).map Prod.snd

/-! ### payloads -/

def Shape.wrap : Shape → Fields Value → Value
  | .document, fs => .document fs
  | .map, fs => .map (Document.toMap fs)

/-- what reads the containers one level down: the fields of a document from its whole bytes -/
abbrev Contents := Shape → Bytes → Except Error (Fields Value)

/-- code with its scope; the length in front has to be that of all of it -/
def readCodeWithScope (inner : Contents) : Reader Value := fun start =>
  (do
    let total ← Reader.int32
    if total.toInt < 8 + Reader.smallestDocument then Reader.fail (.invalidLength total.toInt)
    else
      let code ← Reader.string
      let scope ← Reader.documentBytes
      let fs ← Reader.lift (inField "Scope" (inner .document scope))
      fun rest =>
        if start.length - rest.length = total.toInt then .ok (.codeWithScope code fs) rest
        else .error (Fault.invalidLength total.toInt).error rest : Reader Value) start

def readObjectId : Reader ObjectId := do
  let bs ← Reader.bytes 12
  Reader.lift (ObjectId.located bs)

/-- binary data; any subtype is accepted -/
def readBinary : Reader Bytes := do
  let n ← Reader.int32
  if n < 0 then Reader.fail (.invalidLength n.toInt)
  else
    let _ ← Reader.u8
    Reader.bytes n.toInt.toNat

def readPayload (order : ArrayOrder) (shape : Shape) (nesting : Nesting) (inner : Contents) :
    ElementType → Reader Value
  | .double => Value.double <$> Reader.double
  | .string => Value.string <$> Reader.string
  | .embeddedDocument => do
    let bs ← Reader.documentBytes
    match nesting with
    | .nested => Reader.lift ((inner shape bs).map shape.wrap)
    | .noNest => Reader.lift ((RawDocument.ofBytes bs).map Value.raw)
  | .array => do
    let bs ← Reader.documentBytes
    Reader.lift ((inner shape bs).map fun fs => .array (order.sort fs))
  | .binary => Value.binary <$> readBinary
  | .undefined => pure .undefined
  | .objectId => Value.objectId <$> readObjectId
  | .boolean => (fun b => .boolean (b == 1)) <$> Reader.u8
  | .dateTime => Value.dateTime <$> Reader.int64
  | .null => pure .null
  | .regex => do
    let pattern ← Reader.cstring
    let options ← Reader.cstring
    return .regex ⟨pattern, options⟩
  | .dbPointer => do
    let collection ← Reader.string
    let id ← readObjectId
    return .dbPointer ⟨collection, id⟩
  | .javaScript => Value.javaScript <$> Reader.string
  | .symbol => Value.symbol <$> Reader.string
  | .codeWithScope => readCodeWithScope inner
  | .int32 => Value.int32 <$> Reader.int32
  | .timestamp => Value.timestamp <$> Reader.int64
  | .int64 => Value.int64 <$> Reader.int64
  | .minKey => pure .minKey
  | .maxKey => pure .maxKey

def readTagged (order : ArrayOrder) (shape : Shape) (nesting : Nesting) (inner : Contents)
    (tag : UInt8) : Reader Value :=
  match ElementType.ofTag? tag with
  | some t => readPayload order shape nesting inner t
  | none => Reader.fail (.invalidElementType tag)

/-! ### levels -/

/-- the fields of an embedded container from its whole bytes, where `levels` levels may be entered
-/
def contents (config : Config) : (levels : Nat) → Contents
  | 0, _, _ => .error (Fault.invalidDocument (.nestedTooDeep config.maxNestingDepth)).error
  | levels + 1, shape, bs =>
    elementsOf (readTagged config.arrayOrder shape .nested (contents config levels)) (bs.drop 4)

namespace Config

/-- the fields of the document at the front of a byte string, in the order of the bytes; what
follows the document is not looked at -/
def fields (config : Config) (shape : Shape) (nesting : Nesting) (bs : Bytes) :
    Except Error (Fields Value) := do
  let n ← Reader.int32.result bs
  let declared ← declaredLength config.maxDocumentSize n
  if bs.length < declared then .error Fault.unexpectedEof.error
  else
    elementsOf
      (readTagged config.arrayOrder shape nesting (contents config (config.maxNestingDepth - 1)))
      ((bs.take declared).drop 4)

def decodeDocument (config : Config) (nesting : Nesting) (bs : Bytes) : Except Error Document :=
  config.fields .document nesting bs

def decodeMap (config : Config) (nesting : Nesting) (bs : Bytes) : Except Error DocumentMap :=
  (config.fields .map nesting bs).map Document.toMap

def decode (config : Config) (shape : Shape) (nesting : Nesting) (bs : Bytes) :
    Except Error Value :=
  (config.fields shape nesting bs).map shape.wrap

end Config

def RawDocument.toDocument (doc : RawDocument) : Except Error Document :=
  Config.standard.decodeDocument .nested doc.bytes

example : Config.standard.decode .document .nested [5, 0, 0, 0, 0] = .ok (.document []) := rfl

end Bson
