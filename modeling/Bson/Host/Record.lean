import Bson.Host.Projection
import Bson.Time
import Bson.Value.Blank

/-!
# Records by field directives

A record becomes a document field by field, in the order of its declaration. Directives on a field
change its name, keep it out always or when its value is blank, or say how its value is given.

* `always`, `unlessBlank`   one field of a host record under its directive;
* `Record`              a record that has a field for each directive: `id` goes by the name `_id`,
                        `secret` is never given, `nickname` to `rank` are given unless blank,
                        `payload` is given as bytes and `plain` as a list of numbers, `time` in
                        milliseconds;
* `Record.toHost`       the record in the data model of host records;
* `Record.ofJson`       the record of a JSON value: absent fields have their defaults, and unknown
                        members are passed over. `Unreadable` says why there is none.

A JSON array stands for a record too: its items are the fields that are given, in order, of which
any number at the end may be missing.
-/

namespace Bson

/-! ### directives -/

def always (name : String) (h : Host) : List (String × Host) := [(name, h)]

def unlessBlank {α : Type} [Blank α] (name : String) (a : α) (h : Host) : List (String × Host) :=
  if isBlank a then [] else [(name, h)]

def timeHost (t : Instant) : Host := wrapped .dateTime (.int64 (Int64.ofInt t.millis))

def optionHost {α : Type} (given : α → Host) : Option α → Host
  | none => .none
  | some a => .some (given a)

/-! ### records -/

/-- a record that has a field for each directive -/
structure Record where
  id : Int64 := 0
  name : String := ""
  secret : String := ""
  nickname : String := ""
  flag : Bool := false
  score : Double := Double.zero
  tags : List String := []
  entries : Fields Int64 := []
  rank : Option UInt8 := none
  level : Option UInt32 := none
  payload : Bytes := []
  plain : Bytes := []
  time : Instant := Instant.epoch
  oid : ObjectId := ObjectId.zero
  child : Option Record := none

mutual

def Record.toHost : Record → Host
  | { id, name, nickname, flag, score, tags, entries, rank, level, payload, plain, time, oid, child,
      secret := _ } =>
    .record "Record" <|
      always "_id" (.int64 id) ++ always "name" (.string name)
      ++ unlessBlank "nickname" nickname (.string nickname) ++ unlessBlank "flag" flag (.bool flag)
      ++ unlessBlank "score" score (.float64 score)
      ++ unlessBlank "tags" tags (.sequence (tags.map Host.string))
      ++ unlessBlank "meta" entries (.map (entries.map fun (k, n) => (.string k, .int64 n)))
      ++ unlessBlank "rank" rank (optionHost Host.uint8 rank)
      ++ always "level" (optionHost Host.uint32 level)
      ++ always "payload" (.bytes payload) ++ always "plain" (.sequence (plain.map Host.uint8))
      ++ always "at" (timeHost time) ++ always "oid" oid.toHost
      ++ always "child" (childHost child)

def childHost : Option Record → Host
  | none => .none
  | some r => .some r.toHost

end

/-! ### records from JSON -/

inductive Unreadable where
  | wrongType
  | timeOutOfRange (millis : Int)
  | badObjectId (cause : ObjectId.Invalid)
  deriving DecidableEq, Repr

def Unreadable.message? : Unreadable → Option String
  | .wrongType => none
  | .timeOutOfRange n => some ("timestamp out of range: " ++ Decimal.ofInt n)
  | .badObjectId cause => some cause.message

/-- what a JSON value holds, if it is of the type asked for -/
abbrev FromJson (α : Type) := Json → Except Unreadable α

def orWrongType {α : Type} : Option α → Except Unreadable α
  | some a => .ok a
  | none => .error .wrongType

namespace FromJson

def string : FromJson String := fun j => orWrongType j.asString?

def bool : FromJson Bool
  | .bool b => .ok b
  | _ => .error .wrongType

def int64 : FromJson Int64 := fun j => orWrongType j.asInt64?

/-- a natural below a bound, written as an integer -/
def natural (bound : Nat) : FromJson Nat
  | .number (.natural n) => if n.toNat < bound then .ok n.toNat else .error .wrongType
  | _ => .error .wrongType

def uint8 : FromJson UInt8 := fun j => (natural UInt8.size j).map UInt8.ofNat

def uint32 : FromJson UInt32 := fun j => (natural UInt32.size j).map UInt32.ofNat

/-- a double; integers are taken too -/
def double : FromJson Double
  | .number n => .ok n.toDouble
  | _ => .error .wrongType

def list {α : Type} (item : FromJson α) : FromJson (List α)
  | .array items => items.mapM item
  | _ => .error .wrongType

def map {α : Type} (item : FromJson α) : FromJson (Fields α)
  | .object members => do
    let fs ← members.mapM fun (name, j) => (item j).map fun a => (name, a)
    return Fields.sorted fs
  | _ => .error .wrongType

/-- an option, where null is the absent one -/
def option {α : Type} (item : FromJson α) : FromJson (Option α)
  | .null => .ok none
  | j => (item j).map some

def time : FromJson Instant := fun j => do
  let n ← int64 j
  match Instant.ofMillis? n.toInt with
  | some t => return t
  | none => .error (.timeOutOfRange n.toInt)

def objectId : FromJson ObjectId := fun j => do
  let text ← string j
  match ObjectId.ofHex text with
  | .ok id => return id
  | .error e => .error (.badObjectId e)

end FromJson

namespace Record

/-- the record with one field from JSON, the record inside it apart; an unknown name changes
nothing -/
def readField (r : Record) (name : String) (j : Json) : Except Unreadable Record :=
  match name with
  | "_id" => (FromJson.int64 j).map fun id => { r with id }
  | "name" => (FromJson.string j).map fun name => { r with name }
  | "nickname" => (FromJson.string j).map fun nickname => { r with nickname }
  | "flag" => (FromJson.bool j).map fun flag => { r with flag }
  | "score" => (FromJson.double j).map fun score => { r with score }
  | "tags" => (FromJson.list FromJson.string j).map fun tags => { r with tags }
  | "meta" => (FromJson.map FromJson.int64 j).map fun entries => { r with entries }
  | "rank" => (FromJson.option FromJson.uint8 j).map fun rank => { r with rank }
  | "level" => (FromJson.option FromJson.uint32 j).map fun level => { r with level }
  | "payload" => (FromJson.list FromJson.uint8 j).map fun payload => { r with payload }
  | "plain" => (FromJson.list FromJson.uint8 j).map fun plain => { r with plain }
  | "at" => (FromJson.time j).map fun time => { r with time }
  | "oid" => (FromJson.objectId j).map fun oid => { r with oid }
  | _ => .ok r

def fieldNames : List String :=
  ["_id", "name", "nickname", "flag", "score", "tags", "meta", "rank", "level", "payload", "plain",
    "at", "oid", "child"]

mutual

def ofJson : Json → Except Unreadable Record
  | .object members => ofMembers {} members
  | .array items => ofItems {} fieldNames items
  | _ => .error .wrongType

def ofMembers (r : Record) : List (String × Json) → Except Unreadable Record
  | [] => .ok r
  | (name, j) :: rest => do
    let r ←
      if name = "child" then (childOf j).map fun child => { r with child }
      else r.readField name j
    ofMembers r rest

/-- a record with the items of an array, for the fields of these names -/
def ofItems (r : Record) (names : List String) : List Json → Except Unreadable Record
  | [] => .ok r
  | j :: rest =>
    match names with
    | [] => .error .wrongType
    | name :: names => do
      let r ←
        if name = "child" then (childOf j).map fun child => { r with child }
        else r.readField name j
      ofItems r names rest

/-- the record inside a record, or none for null -/
def childOf : Json → Except Unreadable (Option Record)
  | .null => .ok none
  | .object members => (ofMembers {} members).map some
  | .array items => (ofItems {} fieldNames items).map some
  | _ => .error .wrongType

end

end Record

end Bson
