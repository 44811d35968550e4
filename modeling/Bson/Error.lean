import Bson.FieldPath
import Bson.Text.Base64
import Bson.Text.Decimal

/-!
# What can go wrong

* `Fault`           why something failed at one place of a document;
* `Bson.Error`      a fault with the path of its place, or one of the two failures that have none:
                    a document above the size ceiling, and a byte source that failed;
* `Error.kind`      the four kinds of error;
* `Error.within`    the error as it is seen from one level up;
* `Error.message`   its text;
* `inField`         a result as it is seen from one level up.
-/

namespace Bson

/-- how a document is misshapen -/
inductive Misshape where
  | bytesAfterTerminator (count : Nat)
  | nestedTooDeep (limit : Nat)
  | missingTerminator
  deriving DecidableEq, Repr

def Misshape.message : Misshape → String
  | .bytesAfterTerminator count => Decimal.ofNat count ++ " bytes after terminator"
  | .nestedTooDeep limit => "nesting exceeds " ++ Decimal.ofNat limit ++ " levels"
  | .missingTerminator => "missing document terminator"

/-- why a record or a JSON value is no document value -/
inductive Refusal where
  | badNumberLong (text : String)
  | badNumberDouble (text : String)
  | badBase64 (cause : Base64.Error)
  | pointerWithoutRef
  | noObjectId
  | scopeNotObject
  | badJson
  | malformedPayload (wrapper found : String)
  | valueBeforeKey
  | custom (text : String)
  deriving DecidableEq, Repr

def Refusal.message : Refusal → String
  | .badNumberLong text => "invalid $numberLong: " ++ text
  | .badNumberDouble text => "invalid $numberDouble: " ++ text
  | .badBase64 cause => "invalid base64: " ++ cause.message
  | .pointerWithoutRef => "$dbPointer without $ref"
  | .noObjectId => "expected \x7b\"$oid\": ...\x7d"
  | .scopeNotObject => "$scope must be an object"
  | .badJson => "JSON parsing failed"
  | .malformedPayload wrapper found => "malformed " ++ wrapper ++ " payload: " ++ found
  | .valueBeforeKey => "value serialized before its key"
  | .custom text => text

/-- why something failed at one place -/
inductive Fault where
  | unexpectedEof
  | invalidLength (length : Int)
  | invalidElementType (tag : UInt8)
  | missingNul
  | interiorNul
  | invalidUtf8
  | invalidDocument (how : Misshape)
  | unsupportedType (typeName : String)
  | cannotCoerce (source target : String)
  | invalidObjectIdLength (length : Nat)
  | serialization (why : Refusal)
  deriving DecidableEq, Repr

/-- two upper-case hexadecimal digits -/
def tagText (b : UInt8) : String :=
  let digit (n : Nat) : Char := (Nat.digitChar n).toUpper
  String.ofList [digit (b.toNat / 16), digit (b.toNat % 16)]

def Fault.message : Fault → String
  | .unexpectedEof => "unexpected end of input"
  | .invalidLength length => "invalid length " ++ Decimal.ofInt length
  | .invalidElementType tag => "unsupported element type 0x" ++ tagText tag
  | .missingNul => "missing NUL terminator"
  | .interiorNul => "name contains NUL byte"
  | .invalidUtf8 => "invalid UTF-8"
  | .invalidDocument how => "invalid document: " ++ how.message
  | .unsupportedType typeName => "cannot encode " ++ typeName
  | .cannotCoerce source target => "cannot coerce " ++ source ++ " to " ++ target
  | .invalidObjectIdLength length => "ObjectId must be 12 bytes, got " ++ Decimal.ofNat length
  | .serialization why => "serialization error: " ++ why.message

/-- a failure, with the path of its place where it has one -/
inductive Error where
  | io (text : String)
  | documentTooLarge (declared limit : Nat)
  | located (path : FieldPath) (fault : Fault)
  deriving DecidableEq, Repr

/-- the kinds of error: a malformed byte string, a value without a rule, a fixed width that is not
met, a byte source that failed -/
inductive ErrorKind where
  | shape
  | type
  | constraint
  | io
  deriving DecidableEq, Repr

def Fault.kind : Fault → ErrorKind
  | .unsupportedType _ | .cannotCoerce _ _ | .serialization _ => .type
  | .invalidObjectIdLength _ => .constraint
  | _ => .shape

def Fault.error (f : Fault) : Error := .located .root f

namespace Error

def kind : Error → ErrorKind
  | io _ => .io
  | documentTooLarge _ _ => .shape
  | located _ f => f.kind

def path? : Error → Option FieldPath
  | located p _ => some p
  | _ => none

/-- the error as it is seen from one level up, where the document at hand is the field `name` -/
def within (name : String) : Error → Error
  | located p f => located (p.within name) f
  | e => e

def message : Error → String
  | io text => "IO error: " ++ text
  | documentTooLarge declared limit =>
    "Document too large: declared " ++ Decimal.ofNat declared ++ " bytes, max "
      ++ Decimal.ofNat limit
  | located p f => p.display ++ ": " ++ f.message

@[simp] theorem kind_within (name : String) (e : Error) : (e.within name).kind = e.kind := by
  cases e <;> rfl

end Error

/-- the result of reading or writing the field `name`: its error is seen from one level up -/
def inField {α : Type} (name : String) : Except Error α → Except Error α
  | .ok a => .ok a
  | .error e => .error (e.within name)

@[simp] theorem inField_ok {α : Type} (name : String) (a : α) :
    inField name (.ok a) = .ok a := rfl

@[simp] theorem inField_error {α : Type} (name : String) (e : Error) :
    (inField name (.error e) : Except Error α) = .error (e.within name) := rfl

end Bson
