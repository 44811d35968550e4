import Bson.Proofs.Wire.Bounds
import Bson.Proofs.Wire.Cursor

/-!
# Decoding does not fail the machine

The decoder once more, by position and in words of 64 bits, as a machine carries it out: a document
below another is a slice of it, the level is a word that counts up, and what the machine can fail at
has an outcome for it.

* `Machine.capture`     what is kept of a document that is not read: a copy, or a part of the whole;
* `Machine.rawOfBytes`  a raw document, by the indexes of its bytes;
* `Cursor.payload`, `Cursor.elements`  the payload of an element type, the elements of a body;
* `Machine.contents`, `Machine.decode`  the fields of a container at a level, and the whole document;
* `Cursor.tracks_payload`, `Cursor.elements_eq`  payloads and elements are read as by `readPayload`
                        and `readElements`, if the containers inside are read as they should be;
* `Machine.contents_eq` which they are at every level, by induction on the bytes that are left: the
                        level cannot pass the number of bytes read;
* `Machine.decode_eq`   so the machine does not fail, and decodes what `Config.decode` does;
* `Config.decode_safe`  and what it decodes is bounded by the declared length and the nesting limit.
-/

namespace Bson

open Grammar

/-- what reads the containers one level down, where the machine can fail -/
abbrev CheckedContents := Shape → Bytes → Option (Except Error (Fields Value))

/-! ### the decoder by position -/

namespace Machine

/-- what is kept of a document at a position in a body: a copy, or a part of the whole, in which the
body stands behind its length -/
def capture (whole : Option Bytes) (start : Nat) (bs : Bytes) : Option Bytes :=
  match whole with
  | none => some bs
  | some whole => do
    let first ← add? 4 start
    let stop ← add? first bs.length
    slice? whole first stop

def rawOfBytes (bs : Bytes) : Option (Except Error RawDocument) :=
  if bs.length < Reader.smallestDocument then some (.error Fault.unexpectedEof.error)
  else do
    let front ← [0, 1, 2, 3].mapM fun i : Nat => bs[i]?
    if (Bytes.toInt32 front).toInt ≠ bs.length then
      return .error (Fault.invalidLength (Bytes.toInt32 front).toInt).error
    else
      let last ← sub? bs.length 1
      let terminator ← bs[last]?
      if terminator ≠ 0 then return .error (Fault.invalidDocument .missingTerminator).error
      else return .ok ⟨bs⟩

end Machine

open Machine

namespace Cursor

def objectId : Cursor ObjectId := do
  let bs ← bytes 12
  lift (some (ObjectId.located bs))

def binary : Cursor Bytes := do
  let n ← int32
  if n < 0 then refuse (.invalidLength n.toInt)
  else
    let _ ← u8
    bytes (ofInt32 n)

def codeWithScope (inner : CheckedContents) : Cursor Value := do
  let start ← position
  let total ← int32
  if total.toInt < 8 + Reader.smallestDocument then refuse (.invalidLength total.toInt)
  else
    let code ← string
    let scope ← documentBytes
    let fs ← lift ((inner .document scope).map (inField "Scope"))
    let stop ← position
    let consumed ← machine (sub? stop start)
    if consumed ≠ ofInt32 total then refuse (.invalidLength total.toInt)
    else return .codeWithScope code fs

/-- the payload of an element type; `keep` captures a document that is not read -/
def payload (order : ArrayOrder) (shape : Shape) (nesting : Nesting)
    (keep : Nat → Bytes → Option Bytes) (inner : CheckedContents) : ElementType → Cursor Value
  | .double => Value.double <$> double
  | .string => Value.string <$> string
  | .embeddedDocument => do
    let start ← position
    let bs ← documentBytes
    match nesting with
    | .nested => lift ((inner shape bs).map fun fs => fs.map shape.wrap)
    | .noNest => lift (((keep start bs).bind rawOfBytes).map fun doc => doc.map Value.raw)
  | .array => do
    let bs ← documentBytes
    lift ((inner shape bs).map fun fs => fs.map fun fs => .array (order.sort fs))
  | .binary => Value.binary <$> binary
  | .undefined => pure .undefined
  | .objectId => Value.objectId <$> objectId
  | .boolean => (fun b => .boolean (b == 1)) <$> u8
  | .dateTime => Value.dateTime <$> int64
  | .null => pure .null
  | .regex => do
    let pattern ← cstring
    let options ← cstring
    return .regex ⟨pattern, options⟩
  | .dbPointer => do
    let collection ← string
    let id ← objectId
    return .dbPointer ⟨collection, id⟩
  | .javaScript => Value.javaScript <$> string
  | .symbol => Value.symbol <$> string
  | .codeWithScope => codeWithScope inner
  | .int32 => Value.int32 <$> int32
  | .timestamp => Value.timestamp <$> int64
  | .int64 => Value.int64 <$> int64
  | .minKey => pure .minKey
  | .maxKey => pure .maxKey

def tagged (order : ArrayOrder) (shape : Shape) (nesting : Nesting)
    (keep : Nat → Bytes → Option Bytes) (inner : CheckedContents) (tag : UInt8) : Cursor Value :=
  match ElementType.ofTag? tag with
  | some t => payload order shape nesting keep inner t
  | none => refuse (.invalidElementType tag)

/-- the elements up to the terminator, which has to be the last byte; to run out of steps is a
failure of the machine -/
def elements (payload : UInt8 → Cursor Value) : (fuel : Nat) → Cursor (Fields Value)
  | 0 => machine none
  | fuel + 1 => do
    let tag ← u8
    if tag = 0 then
      let left ← remaining
      if left ≠ 0 then refuse (.invalidDocument (.bytesAfterTerminator left)) else return []
    else
      let name ← cstring
      let v ← within name (payload tag)
      let more ← elements payload fuel
      return (name, v) :: more

end Cursor

namespace Machine

def elementsOf (payload : UInt8 → Cursor Value) (body : Bytes) :
    Option (Except Error (Fields Value)) :=
  (Cursor.elements payload (body.length + 1)).run body

/-- the fields of a container from its whole bytes, found at a level; to run out of calls is a
failure of the machine -/
def contents (config : Config) : (fuel depth : Nat) → CheckedContents
  | 0, _, _, _ => none
  | fuel + 1, depth, shape, bs => do
    let next ← add? depth 1
    if next > config.maxNestingDepth then
      return .error (Fault.invalidDocument (.nestedTooDeep config.maxNestingDepth)).error
    else
      let body ← slice? bs 4 bs.length
      elementsOf (Cursor.tagged config.arrayOrder shape .nested (capture none)
        (contents config fuel next)) body

/-- the document at the front of a byte string, with captured documents as copies or as parts of
the byte string -/
def decode (config : Config) (sharing : Bool) (shape : Shape) (nesting : Nesting) (bs : Bytes) :
    Option (Except Error Value) := do
  let front ← Cursor.int32.run bs
  match front >>= declaredLength config.maxDocumentSize with
  | .error e => return .error e
  | .ok declared =>
    if bs.length < declared then return .error Fault.unexpectedEof.error
    else
      let body ← slice? bs 4 declared
      let fs ← elementsOf (Cursor.tagged config.arrayOrder shape nesting
        (capture (if sharing then some bs else none)) (contents config body.length 1)) body
      return fs.map shape.wrap

/-! ### raw documents -/

theorem rawOfBytes_eq (bs : Bytes) : rawOfBytes bs = some (RawDocument.ofBytes bs) := by
  rw [rawOfBytes, RawDocument.ofBytes]
  by_cases short : bs.length < Reader.smallestDocument
  · rw [if_pos short, if_pos short]
  rw [if_neg short, if_neg short]
  rw [Reader.smallestDocument] at short
  have front : ([0, 1, 2, 3].mapM fun i : Nat => bs[i]?) = some (bs.take 4) := by
    obtain ⟨a, b, c, d, rest, rfl⟩ : ∃ a b c d rest, bs = a :: b :: c :: d :: rest := by
      rcases bs with _ | ⟨a, _ | ⟨b, _ | ⟨c, _ | ⟨d, rest⟩⟩⟩⟩
      case cons.cons.cons.cons => exact ⟨a, b, c, d, rest, rfl⟩
      all_goals simp at short
    rfl
  have last : sub? bs.length 1 = some (bs.length - 1) := sub?_eq (by omega)
  obtain ⟨b, terminator⟩ : ∃ b, bs.getLast? = some b :=
    ⟨_, List.getLast?_eq_some_getLast (by rintro rfl; simp at short)⟩
  have index : bs[bs.length - 1]? = some b := by rw [← List.getLast?_eq_getElem?, terminator]
  simp only [front, last, index, terminator, Option.bind_eq_bind, Option.bind_some]
  split
  · rfl
  · by_cases zero : b = 0 <;> simp [zero]

/-- a part of a body is found again in the whole, of which the body is a slice behind its length -/
theorem capture_eq {whole bs : Bytes} {start stop : Nat} (bound : stop ≤ whole.length)
    (word : stop < 2 ^ 64) (nonempty : bs ≠ [])
    (here : bs <+: ((whole.take stop).drop 4).drop start) :
    capture (some whole) start bs = some bs := by
  rw [List.drop_drop] at here
  have long := here.length_le
  have short := List.length_pos_iff.2 nonempty
  rw [List.length_drop, List.length_take] at long
  have found : (whole.take (4 + start + bs.length)).drop (4 + start) = bs := by
    rw [List.drop_take] at here ⊢
    rw [Nat.add_sub_cancel_left]
    exact (List.prefix_iff_eq_take.1 (here.trans (List.take_prefix ..))).symm
  rw [capture, add?_eq (by omega)]
  show (add? (4 + start) bs.length >>= slice? whole (4 + start)) = some bs
  rw [add?_eq (by omega)]
  show slice? whole (4 + start) (4 + start + bs.length) = some bs
  rw [slice?_eq (by omega) (by omega), found]

end Machine

namespace Cursor

variable {data : Bytes} {pos : Nat} {α : Type} {inner : CheckedContents} {inner' : Contents}

/-! ### payloads -/

section

variable (inside : pos ≤ data.length) (word : data.length < 2 ^ 64)
include inside word

theorem tracks_objectId : Tracks data pos objectId readObjectId :=
  (tracks_bytes inside 12 (by omega)).bind fun _ _ _ inside _ => tracks_lift rfl inside

theorem tracks_binary : Tracks data pos binary readBinary := by
  refine (tracks_int32 inside word).bind fun n next _ inside _ => ?_
  by_cases negative : n < 0
  · rw [if_pos negative, if_pos negative]
    exact tracks_refuse _ inside
  rw [if_neg negative, if_neg negative]
  rw [Int32.lt_iff_toInt_lt, Int32.toInt_zero] at negative
  rw [ofInt32_eq (Int.not_lt.1 negative)]
  exact (tracks_u8 inside word).bind fun _ _ _ inside _ => tracks_bytes inside _ (by omega)

theorem tracks_container {f : Bytes → Cursor α} {g : Bytes → Reader α}
    (more : ∀ bs next, pos ≤ next → next ≤ data.length → Reader.smallestDocument ≤ bs.length →
      bs.length ≤ data.length → bs <+: data.drop pos → Tracks data next (f bs) (g bs)) :
    Tracks data pos (documentBytes >>= f) (Reader.documentBytes >>= g) := by
  refine (tracks_documentBytes inside word).bind fun bs next forward inside read => ?_
  obtain ⟨cs, split, delimited, rfl⟩ := (Reader.accepts_documentBytes _ _ _).1 read
  have most := congrArg List.length split
  rw [List.length_append, List.length_drop] at most
  exact more bs next forward inside delimited.1 (by omega) ⟨_, split.symm⟩

variable (below : ∀ shape bs, Reader.smallestDocument ≤ bs.length → bs.length ≤ data.length →
  inner shape bs = some (inner' shape bs))
include below

theorem tracks_codeWithScope : Tracks data pos (codeWithScope inner) (readCodeWithScope inner') := by
  -- the reader compares what is left before and after; what is left before is fixed here
  unfold readCodeWithScope
  refine Tracks.congr ?_ rfl
  refine tracks_position ((tracks_int32 inside word).bind fun total next forward inside _ => ?_)
  by_cases small : total.toInt < 8 + Reader.smallestDocument
  · rw [if_pos small, if_pos small]
    exact tracks_refuse _ inside
  rw [if_neg small, if_neg small]
  refine (tracks_string inside word).bind fun code next₂ forward₂ inside _ => ?_
  refine tracks_container inside word fun scope next₃ forward₃ inside least most _ => ?_
  have answer : (inner .document scope).map (inField "Scope") =
      some (inField "Scope" (inner' .document scope)) := by
    rw [below .document scope least most]
    rfl
  refine (tracks_lift answer inside).bind fun fs last forward₄ inside _ => ?_
  refine tracks_position (tracks_machine (sub?_eq (by omega)) ?_)
  rw [ofInt32_eq (by omega)]
  by_cases span : last - pos = total.toInt.toNat
  · rw [if_neg (not_not_intro span)]
    refine (tracks_pure (Value.codeWithScope code fs) inside).congr (if_pos ?_).symm
    rw [List.length_drop, List.length_drop]
    omega
  · rw [if_pos span]
    refine (tracks_refuse (.invalidLength total.toInt) inside).congr (if_neg ?_).symm
    rw [List.length_drop, List.length_drop]
    omega

variable {order : ArrayOrder} {shape : Shape} {nesting : Nesting} {keep : Nat → Bytes → Option Bytes}
  (kept : ∀ start bs, bs ≠ [] → bs <+: data.drop start → keep start bs = some bs)
include kept

theorem tracks_payload (t : ElementType) :
    Tracks data pos (payload order shape nesting keep inner t)
      (readPayload order shape nesting inner' t) := by
  cases t with
  | double => exact (tracks_double inside word).map _
  | string | javaScript | symbol => exact (tracks_string inside word).map _
  | undefined | null | minKey | maxKey => exact tracks_pure _ inside
  | boolean => exact (tracks_u8 inside word).map _
  | dateTime | timestamp | int64 => exact (tracks_int64 inside word).map _
  | int32 => exact (tracks_int32 inside word).map _
  | binary => exact (tracks_binary inside word).map _
  | objectId => exact (tracks_objectId inside word).map _
  | codeWithScope => exact tracks_codeWithScope inside word below
  | regex =>
    refine (tracks_cstring inside word).bind fun pattern _ _ inside _ => ?_
    exact (tracks_cstring inside word).bind fun options _ _ inside _ => tracks_pure _ inside
  | dbPointer =>
    refine (tracks_string inside word).bind fun collection _ _ inside _ => ?_
    exact (tracks_objectId inside word).bind fun id _ _ inside _ => tracks_pure _ inside
  | array =>
    refine tracks_container inside word fun bs next _ inside least most _ => tracks_lift ?_ inside
    rw [below _ bs least most]
    rfl
  | embeddedDocument =>
    refine tracks_position (tracks_container inside word fun bs next _ inside least most here => ?_)
    cases nesting with
    | nested =>
      refine tracks_lift ?_ inside
      rw [below _ bs least most]
      rfl
    | noNest =>
      have nonempty : bs ≠ [] := by
        rintro rfl
        exact absurd least (by decide)
      refine tracks_lift ?_ inside
      rw [kept _ _ nonempty here, Option.bind_some, rawOfBytes_eq]
      rfl

theorem tracks_tagged (tag : UInt8) :
    Tracks data pos (tagged order shape nesting keep inner tag)
      (readTagged order shape nesting inner' tag) := by
  rw [tagged, readTagged]
  cases ElementType.ofTag? tag with
  | some t => exact tracks_payload inside word below kept t
  | none => exact tracks_refuse _ inside

end

/-! ### elements -/

/-- elements are read as they should be, if their payloads are; each step reads a byte, so that
the steps do not run out -/
theorem elements_eq {payload : UInt8 → Cursor Value} {reader : UInt8 → Reader Value}
    (word : data.length < 2 ^ 64)
    (tracks : ∀ tag pos, pos ≤ data.length → Tracks data pos (payload tag) (reader tag))
    (fuel : Nat) (inside : pos ≤ data.length) (enough : (data.drop pos).length < fuel) :
    Ends data pos (elements payload fuel) (readElements reader fuel (data.drop pos)) := by
  induction fuel generalizing pos with
  | zero => exact absurd enough (Nat.not_lt_zero _)
  | succ fuel ih =>
    refine (tracks_u8 inside word).ends_bind (fun e next read => ?_) fun tag next _ inside read => ?_
    · cases rest : data.drop pos with
      | nil =>
        rw [rest] at read
        injection read with same
        rw [← same]
        rfl
      | cons b bs => rw [rest] at read; cases read
    obtain ⟨_, rest, rfl⟩ := (Reader.accepts_u8 _ _ _).1 read
    rw [List.singleton_append] at rest
    rw [rest, List.length_cons] at enough
    rw [rest, readElements]
    by_cases last : tag = 0
    · rw [if_pos last, if_pos last]
      rw [Ends, bind_apply, remaining_apply inside]
      cases data.drop next <;> rfl
    rw [if_neg last, if_neg last]
    refine (tracks_cstring inside word).ends_bind (fun e _ read => by rw [read])
      fun name next₂ forward inside read => ?_
    simp only [read]
    refine (tracks tag next₂ inside).ends_within (fun e _ read => by rw [read])
      fun v next₃ forward' inside read => ?_
    simp only [read]
    have shorter : (data.drop next₃).length ≤ (data.drop next).length := by
      rw [List.length_drop, List.length_drop]
      omega
    have more := (ih inside (by omega)).map ((name, v) :: ·)
    rw [map_eq_pure_bind] at more
    exact more

end Cursor

namespace Machine

/-! ### levels -/

theorem elementsOf_eq {payload : UInt8 → Cursor Value} {reader : UInt8 → Reader Value} {body : Bytes}
    (word : body.length < 2 ^ 64)
    (tracks : ∀ tag pos, pos ≤ body.length → Cursor.Tracks body pos (payload tag) (reader tag)) :
    elementsOf payload body = some (Bson.elementsOf reader body) :=
  Cursor.elements_eq word tracks _ (Nat.zero_le _) (Nat.lt_succ_self _)

/-- a container is read as it should be, where the level and the bytes together fit into a word:
the level goes up by one, and the bytes down by four or more -/
theorem contents_eq (config : Config) {fuel depth : Nat} {shape : Shape} {bs : Bytes}
    (least : Reader.smallestDocument ≤ bs.length) (enough : bs.length ≤ fuel)
    (word : depth + bs.length < 2 ^ 64) :
    contents config fuel depth shape bs =
      some (Bson.contents config (config.maxNestingDepth - depth) shape bs) := by
  induction fuel generalizing depth shape bs with
  | zero => exact absurd (least.trans enough) (by decide)
  | succ fuel ih =>
    rw [Reader.smallestDocument] at least
    rw [contents, add?_eq (by omega)]
    show (if depth + 1 > config.maxNestingDepth then _ else _) = _
    by_cases deep : depth + 1 > config.maxNestingDepth
    · rw [if_pos deep, Nat.sub_eq_zero_of_le (by omega)]
      rfl
    have levels : config.maxNestingDepth - depth = config.maxNestingDepth - (depth + 1) + 1 := by
      omega
    have body : slice? bs 4 bs.length = some (bs.drop 4) := by
      rw [slice?_eq (by omega) (Nat.le_refl _), List.take_length]
    have length : (bs.drop 4).length = bs.length - 4 := List.length_drop
    rw [if_neg deep, levels, Bson.contents, body]
    refine elementsOf_eq (by omega) fun tag pos inside => ?_
    refine Cursor.tracks_tagged inside (by omega) ?_ (fun _ _ _ _ => rfl) tag
    intro shape inner least most
    exact ih least (by omega) (by omega)

theorem decode_eq (config : Config) (sharing : Bool) (shape : Shape) (nesting : Nesting)
    (bs : Bytes) :
    decode config sharing shape nesting bs = some (config.decode shape nesting bs) := by
  have front : Cursor.int32.run bs = some (Reader.int32.result bs) :=
    ((Cursor.tracks_array (Nat.zero_le _) 4 (by omega)).map Bytes.toInt32).ends
  rw [decode, front, Config.decode, Config.fields]
  show (match Reader.int32.result bs >>= declaredLength config.maxDocumentSize with
    | .error e => _
    | .ok declared => _) = _
  rw [← bind_assoc]
  cases length : Reader.int32.result bs >>= declaredLength config.maxDocumentSize with
  | error e => rfl
  | ok declared =>
    show (if bs.length < declared then _ else _) =
      some (Except.map shape.wrap (if bs.length < declared then _ else _))
    by_cases short : bs.length < declared
    · rw [if_pos short, if_pos short]
      rfl
    have range : 5 ≤ declared ∧ declared < 2 ^ 31 := by
      obtain ⟨n, -, accepted⟩ := Except.bind_eq_ok_iff.1 length
      obtain ⟨least, -, same⟩ := declaredLength_eq_ok_iff.1 accepted
      have := n.toInt_lt
      rw [Reader.smallestDocument] at least
      omega
    have long : ((bs.take declared).drop 4).length = declared - 4 := by
      rw [List.length_drop, List.length_take]
      omega
    rw [if_neg short, if_neg short, slice?_eq (by omega) (by omega)]
    show (elementsOf _ ((bs.take declared).drop 4) >>= _) = _
    rw [elementsOf_eq (by omega) fun tag pos inside => ?_]
    · rfl
    refine Cursor.tracks_tagged inside (by omega) (fun shape inner least most => ?_)
      (fun start inner nonempty here => ?_) tag
    · exact contents_eq config least most (by omega)
    · cases sharing with
      | false => rfl
      | true => exact capture_eq (by omega) (by omega) nonempty here

end Machine

namespace Config

/-- decoding gives a value or an error without a failure of the machine, and what it decodes is
bounded by the declared length and by the nesting limit -/
theorem decode_safe (config : Config) (shape : Shape) (nesting : Nesting) (bs : Bytes) :
    (∀ sharing, Machine.decode config sharing shape nesting bs =
        some (config.decode shape nesting bs)) ∧
      ∀ v, config.decode shape nesting bs = .ok v →
        ∃ n, IsLength (bs.take 4) n ∧ n ≤ bs.length ∧
          v.depth ≤ max 1 config.maxNestingDepth ∧ v.depth ≤ 1 + (n - 5) / 7 ∧
            v.elementCount ≤ (n - 5) / 2 ∧ v.heldBytes < n :=
  ⟨fun sharing => Machine.decode_eq config sharing shape nesting bs,
    fun _ read => decode_bounds read⟩

end Config

end Bson
