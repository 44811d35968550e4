import Mathlib.Data.List.Induction
import Bson.Host.Projection
import Bson.Proofs.Json.Markers
import Bson.Proofs.Text.Hex

/-!
# The length that is reported of an identifier

An identifier is supplied as bytes or as hexadecimal text, and one that is refused is reported with
a length.

* `IdSource`            an identifier as it is supplied; `bytes?` are the bytes that it stands for,
                        and `reported` is the length that is reported of it;
* `IdSource.read_eq_error_iff`  it is refused exactly if it does not stand for twelve bytes;
* `Json.idTexts`, `Host.idTexts`  the texts in a JSON value and in a host record that stand where
                        identifiers do, at any depth;
* `Error.TracedTo`      a reported length is that of one of the texts (`Json.tracedTo_of_ofJson`,
                        `Host.tracedTo_of_toValue`);
* `IdRequest.reported_length`  whatever is asked for, a reported length is the number of bytes that
                        the identifier stands for, if it stands for any; of a text that is not
                        hexadecimal, half of the bytes of the text are reported.
-/

namespace Bson

/-! ### one identifier -/

/-- an identifier as it is supplied -/
inductive IdSource where
  | bytes (bs : Bytes)
  | text (digits : String)

namespace IdSource

def read : IdSource → Except Error ObjectId
  | bytes bs => ObjectId.located bs
  | text digits => ObjectId.locatedHex digits

/-- the bytes that it stands for, if it is no text of the wrong characters or of odd length -/
def bytes? : IdSource → Option Bytes
  | bytes bs => some bs
  | text digits => (Hex.decode digits).toOption

def reported : IdSource → Nat
  | bytes bs => bs.length
  | text digits => (utf8 digits).length / 2

variable {source : IdSource} {bs : Bytes} {e : Error}

theorem reported_of_bytes? (stands : source.bytes? = some bs) : source.reported = bs.length := by
  cases source with
  | bytes => rw [Option.some.inj stands.symm]; rfl
  | text digits =>
    have decoded : Hex.decode digits = .ok bs := by
      revert stands
      rw [bytes?]
      cases Hex.decode digits <;> simp [Except.toOption]
    rw [reported, Hex.length_of_decode decoded]
    omega

theorem read_eq (source : IdSource) :
    source.read = match source.bytes?.bind ObjectId.ofBytes? with
      | some id => .ok id
      | none => .error (Fault.invalidObjectIdLength source.reported).error := by
  cases source with
  | bytes bs => rfl
  | text digits =>
    rw [read, ObjectId.locatedHex, ObjectId.ofHex, bytes?]
    cases Hex.decode digits with
    | error => rfl
    | ok bs =>
      show _ = match ObjectId.ofBytes? bs with | some id => _ | none => _
      simp only [ObjectId.ofBytes]
      cases ObjectId.ofBytes? bs <;> rfl

/-- it is refused exactly if it does not stand for twelve bytes -/
theorem read_eq_error_iff :
    source.read = .error e ↔ (∀ bs, source.bytes? = some bs → bs.length ≠ 12) ∧
      e = (Fault.invalidObjectIdLength source.reported).error := by
  have refused : source.bytes?.bind ObjectId.ofBytes? = none ↔
      ∀ bs, source.bytes? = some bs → bs.length ≠ 12 := by
    simp only [Option.bind_eq_none_iff, ObjectId.ofBytes?_eq_none_iff]
  rw [read_eq, ← refused]
  cases source.bytes?.bind ObjectId.ofBytes? with
  | none => simp [eq_comm]
  | some id => simp

end IdSource

/-! ### where identifiers are supplied -/

mutual

def Json.idTexts : Json → List String
  | .array items => idTextsOfItems items
  | .object members =>
    ((Fields.get? "$oid" members).bind Json.asString?).toList ++ idTextsOfMembers members
  | _ => []

def idTextsOfItems : List Json → List String
  | [] => []
  | j :: rest => j.idTexts ++ idTextsOfItems rest

def idTextsOfMembers : List (String × Json) → List String
  | [] => []
  | (_, j) :: rest => j.idTexts ++ idTextsOfMembers rest

end

/-- the text behind the name of identifiers -/
def wrappedText (name : String) (inner : Host) : List String :=
  match Reserved.ofName? name, inner.toValue with
  | some .objectId, .ok (.string text) => [text]
  | _, _ => []

mutual

/-- the texts behind the name of identifiers in a host record -/
def Host.idTexts : Host → List String
  | .some inner | .valueVariant _ inner => inner.idTexts
  | .named name inner => wrappedText name inner ++ inner.idTexts
  | .sequence items | .tuple items | .namedTuple _ items | .tupleVariant _ items =>
    idTextsOfHosts items
  | .map entries => idTextsOfEntries entries
  | .record _ fields | .recordVariant _ fields => idTextsOfFields fields
  | _ => []

def idTextsOfHosts : List Host → List String
  | [] => []
  | h :: rest => h.idTexts ++ idTextsOfHosts rest

def idTextsOfEntries : List (Host × Host) → List String
  | [] => []
  | (key, h) :: rest => key.idTexts ++ h.idTexts ++ idTextsOfEntries rest

def idTextsOfFields : List (String × Host) → List String
  | [] => []
  | (_, h) :: rest => h.idTexts ++ idTextsOfFields rest

end

/-! ### what an error reports -/

namespace Error

def idLength? : Error → Option Nat
  | located _ (.invalidObjectIdLength n) => some n
  | _ => none

@[simp] theorem idLength?_within (name : String) (e : Error) :
    (e.within name).idLength? = e.idLength? := by
  cases e with
  | located p f => cases f <;> rfl
  | _ => rfl

/-- if the error reports the length of an identifier, it is one of the texts that was refused with
this length -/
def TracedTo (texts : List String) (e : Error) : Prop :=
  ∀ n, e.idLength? = some n → ∃ text ∈ texts,
    ObjectId.locatedHex text = .error (Fault.invalidObjectIdLength n).error

variable {texts more : List String} {e : Error}

theorem TracedTo.mono (h : e.TracedTo texts) (part : texts ⊆ more) : e.TracedTo more := by
  intro n reports
  obtain ⟨text, there, refused⟩ := h n reports
  exact ⟨text, part there, refused⟩

theorem tracedTo_within {name : String} : (e.within name).TracedTo texts ↔ e.TracedTo texts := by
  rw [TracedTo, idLength?_within, TracedTo]

theorem tracedTo_of_other (other : e.idLength? = none) : e.TracedTo texts := by
  intro n reports
  rw [other] at reports
  cases reports

theorem tracedTo_of_locatedHex {text : String} (refused : ObjectId.locatedHex text = .error e)
    (there : text ∈ texts) : e.TracedTo texts := by
  intro n reports
  obtain ⟨-, rfl⟩ := (@IdSource.read_eq_error_iff (.text text) e).1 refused
  injection reports with reports
  exact ⟨text, there, reports ▸ refused⟩

end Error

/-- of fields or items that are read one after another, the first one or the rest is refused -/
theorem tracedTo_of_first_or_rest {α β γ : Type} {name : String} {first : Except Error α}
    {rest : Except Error β} {f : α → β → γ} {texts more : List String} {e : Error}
    (failed : (inField name first >>= fun v => rest >>= fun vs => pure (f v vs)) = .error e)
    (here : ∀ {e}, first = .error e → e.TracedTo texts)
    (later : ∀ {e}, rest = .error e → e.TracedTo more) : e.TracedTo (texts ++ more) := by
  rcases Except.bind_eq_error_iff.1 failed with refused | ⟨v, -, failed⟩
  · obtain ⟨e', inside, rfl⟩ := inField_eq_error_iff.1 refused
    exact Error.tracedTo_within.2 ((here inside).mono (List.subset_append_left ..))
  · rcases Except.bind_eq_error_iff.1 failed with refused | ⟨vs, -, done⟩
    · exact (later refused).mono (List.subset_append_right ..)
    · cases done

/-! ### identifiers in JSON -/

theorem subset_idTextsOfMembers {members : Fields Json} {name : String} {j : Json}
    (found : Fields.get? name members = some j) : j.idTexts ⊆ idTextsOfMembers members := by
  induction members with
  | nil => cases found
  | cons m rest ih =>
    rw [idTextsOfMembers]
    rw [Fields.get?] at found
    split at found
    · cases found
      exact List.subset_append_left ..
    · exact List.subset_append_of_subset_right _ (ih found)

theorem subset_idTexts_of_member? {name : String} {j inner : Json}
    (found : j.member? name = some inner) : inner.idTexts ⊆ j.idTexts := by
  cases j with
  | object members =>
    rw [Json.idTexts]
    exact List.subset_append_of_subset_right _ (subset_idTextsOfMembers found)
  | _ => cases found

theorem mem_idTexts_of_oid {j : Json} {text : String}
    (found : (j.member? "$oid").bind Json.asString? = some text) : text ∈ j.idTexts := by
  cases j with
  | object members =>
    rw [Json.idTexts]
    exact List.mem_append_left _ (Option.mem_toList.2 found)
  | _ => cases found

theorem tracedTo_of_pointer {j : Json} {e : Error} (failed : pointer j = .error e) :
    e.TracedTo j.idTexts := by
  rw [pointer] at failed
  split at failed
  · cases failed
    exact Error.tracedTo_of_other rfl
  · split at failed
    · cases failed
      exact Error.tracedTo_of_other rfl
    · rename_i text found
      rw [Option.bind_assoc] at found
      obtain ⟨inner, there, found⟩ := Option.bind_eq_some_iff.1 found
      refine Error.tracedTo_of_locatedHex (Except.map_eq_error_iff.1 failed) ?_
      exact subset_idTexts_of_member? there (mem_idTexts_of_oid found)

/-- what the reader of a number or of bytes reports is no length of an identifier -/
theorem tracedTo_of_refused {α : Type} {why : Refusal} {texts : List String} {e : Error}
    (failed : (refused why : Except Error α) = .error e) : e.TracedTo texts := by
  cases failed
  exact Error.tracedTo_of_other rfl

theorem tracedTo_of_numberLong {text : String} {texts : List String} {e : Error}
    (failed : numberLong text = .error e) : e.TracedTo texts := by
  rw [numberLong] at failed
  split at failed
  · cases failed
  · exact tracedTo_of_refused failed

theorem tracedTo_of_numberDouble {text : String} {texts : List String} {e : Error}
    (failed : numberDouble text = .error e) : e.TracedTo texts := by
  rw [numberDouble] at failed
  split at failed
  · cases failed
  · exact tracedTo_of_refused failed

theorem tracedTo_of_binaryData {text : String} {texts : List String} {e : Error}
    (failed : binaryData text = .error e) : e.TracedTo texts := by
  rw [binaryData] at failed
  split at failed
  · cases failed
  · exact tracedTo_of_refused failed

/-- a scope that is refused has its own error, with `$scope` in front -/
theorem tracedTo_of_codeInScope {code : String} {scope : Scope} {texts : List String} {e : Error}
    (inside : ∀ e, scope = .fields (.error e) → e.TracedTo texts)
    (failed : codeInScope code scope = .error e) : e.TracedTo texts := by
  cases scope with
  | absent => cases failed
  | noObject => exact tracedTo_of_refused failed
  | fields result =>
    obtain ⟨e', refused, rfl⟩ := inField_eq_error_iff.1 (Except.map_eq_error_iff.1 failed)
    exact Error.tracedTo_within.2 (inside e' (refused ▸ rfl))

theorem tracedTo_of_ofMarkers? {members : Fields Json} {scope : Unit → Scope} {e : Error}
    (inside : ∀ e, scope () = .fields (.error e) → e.TracedTo (Json.object members).idTexts)
    (failed : ofMarkers? members scope = some (.error e)) :
    e.TracedTo (Json.object members).idTexts := by
  rw [Marker.ofMarkers?_eq] at failed
  obtain ⟨marker, -, meaning⟩ := Option.bind_eq_some_iff.1 failed
  cases marker with
  | oid =>
    obtain ⟨text, found, read⟩ := Option.map_eq_some_iff.1 meaning
    exact Error.tracedTo_of_locatedHex (Except.map_eq_error_iff.1 read) (mem_idTexts_of_oid found)
  | numberLong =>
    obtain ⟨text, -, read⟩ := Option.map_eq_some_iff.1 meaning
    exact tracedTo_of_numberLong read
  | numberDouble =>
    obtain ⟨text, -, read⟩ := Option.map_eq_some_iff.1 meaning
    exact tracedTo_of_numberDouble read
  | binary =>
    obtain ⟨text, -, read⟩ := Option.map_eq_some_iff.1 meaning
    exact tracedTo_of_binaryData read
  | dbPointer =>
    obtain ⟨j, found, read⟩ := Option.map_eq_some_iff.1 meaning
    have member : (Json.object members).member? "$dbPointer" = some j := found
    exact (tracedTo_of_pointer read).mono (subset_idTexts_of_member? member)
  | code =>
    obtain ⟨code, -, read⟩ := Option.map_eq_some_iff.1 meaning
    exact tracedTo_of_codeInScope inside read
  | date | timestamp | regex | symbol | undefined | minKey | maxKey =>
    obtain ⟨_, -, read⟩ := Option.map_eq_some_iff.1 meaning
    cases read

mutual

theorem Json.tracedTo_of_ofJson : ∀ (j : Json) {e : Error}, Value.ofJson j = .error e →
    e.TracedTo j.idTexts
  | .null, _, failed | .bool _, _, failed | .number _, _, failed | .string _, _, failed => by
    cases failed
  | .array items, _, failed => tracedTo_of_items items (Except.map_eq_error_iff.1 failed)
  | .object members, e, failed => by
    rw [Value.ofJson] at failed
    have below : idTextsOfMembers members ⊆ (Json.object members).idTexts := by
      rw [Json.idTexts]
      exact List.subset_append_right ..
    split at failed
    · rename_i result marker
      subst failed
      exact tracedTo_of_ofMarkers? (fun e found => (tracedTo_of_scope members found).mono below)
        marker
    · exact (tracedTo_of_members members (Except.map_eq_error_iff.1 failed)).mono below

theorem tracedTo_of_items : ∀ (items : List Json) {i : Nat} {e : Error},
    valuesOfItems i items = .error e → e.TracedTo (idTextsOfItems items)
  | [], _, _, failed => by cases failed
  | j :: rest, i, e, failed => by
    rw [valuesOfItems] at failed
    rw [idTextsOfItems]
    exact tracedTo_of_first_or_rest failed j.tracedTo_of_ofJson (tracedTo_of_items rest)

theorem tracedTo_of_members : ∀ (members : List (String × Json)) {e : Error},
    fieldsOfMembers members = .error e → e.TracedTo (idTextsOfMembers members)
  | [], _, failed => by cases failed
  | (name, j) :: rest, e, failed => by
    rw [fieldsOfMembers] at failed
    rw [idTextsOfMembers]
    exact tracedTo_of_first_or_rest failed j.tracedTo_of_ofJson (tracedTo_of_members rest)

theorem tracedTo_of_scope : ∀ (members : List (String × Json)) {e : Error},
    scopeOfMembers members = .fields (.error e) → e.TracedTo (idTextsOfMembers members)
  | [], _, failed => by cases failed
  | (name, j) :: rest, e, failed => by
    rw [scopeOfMembers.eq_def] at failed
    simp only at failed
    rw [idTextsOfMembers]
    split at failed
    · split at failed
      · rename_i members
        injection failed with failed
        have inside := tracedTo_of_members members (Except.map_eq_error_iff.1 failed)
        refine inside.mono (List.subset_append_of_subset_left _ ?_)
        rw [Json.idTexts]
        exact List.subset_append_right ..
      · cases failed
    · exact (tracedTo_of_scope rest failed).mono (List.subset_append_right ..)

end

/-! ### identifiers in host records -/

theorem tracedTo_of_malformed {name found : String} {texts : List String} {e : Error}
    (failed : (malformed name found : Except Error Value) = .error e) : e.TracedTo texts := by
  cases failed
  exact Error.tracedTo_of_other rfl

theorem tracedTo_of_ofBytes {bs : Bytes} {texts : List String} {e : Error}
    (failed : RawDocument.ofBytes bs = .error e) : e.TracedTo texts := by
  rw [RawDocument.ofBytes] at failed
  apply Error.tracedTo_of_other
  split at failed
  · cases failed
    rfl
  · simp only at failed
    split at failed
    · cases failed
      rfl
    · split at failed <;> cases failed
      rfl

theorem tracedTo_of_rebuild {name : String} {inner : Host} {v : Value} {e : Error}
    (wrapped : inner.toValue = .ok v) (failed : rebuild name v = .error e) :
    e.TracedTo (wrappedText name inner) := by
  unfold rebuild at failed
  split at failed
  case h_1 text reserved =>
    have behind : wrappedText name inner = [text] := by rw [wrappedText, reserved, wrapped]
    rw [behind]
    refine Error.tracedTo_of_locatedHex (Except.map_eq_error_iff.1 failed) ?_
    exact List.mem_singleton_self _
  case h_2 | h_3 | h_4 | h_5 | h_9 => cases failed
  case h_6 | h_7 | h_8 =>
    split at failed
    · cases failed
    · exact tracedTo_of_malformed failed
  case h_10 => exact tracedTo_of_ofBytes (Except.map_eq_error_iff.1 failed)
  case h_11 => exact tracedTo_of_malformed failed

mutual

theorem Host.tracedTo_of_toValue : ∀ (h : Host) {e : Error}, h.toValue = .error e →
    e.TracedTo h.idTexts
  | .some inner, _, failed => inner.tracedTo_of_toValue failed
  | .named name inner, _, failed => by
    rw [Host.toValue] at failed
    rw [Host.idTexts]
    split at failed
    · rcases Except.bind_eq_error_iff.1 failed with inside | ⟨v, wrapped, failed⟩
      · exact (inner.tracedTo_of_toValue inside).mono (List.subset_append_right ..)
      · exact (tracedTo_of_rebuild wrapped failed).mono (List.subset_append_left ..)
    · exact (inner.tracedTo_of_toValue failed).mono (List.subset_append_right ..)
  | .valueVariant variant inner, _, failed => by
    obtain ⟨e', inside, rfl⟩ := inField_eq_error_iff.1 (Except.map_eq_error_iff.1 failed)
    exact Error.tracedTo_within.2 (inner.tracedTo_of_toValue inside)
  | .sequence items, _, failed | .tuple items, _, failed | .namedTuple _ items, _, failed =>
    tracedTo_of_itemValues items (Except.map_eq_error_iff.1 failed)
  | .tupleVariant variant items, _, failed => by
    obtain ⟨e', inside, rfl⟩ := inField_eq_error_iff.1 (Except.map_eq_error_iff.1 failed)
    exact Error.tracedTo_within.2 (tracedTo_of_itemValues items inside)
  | .map entries, _, failed => tracedTo_of_entryValues entries (Except.map_eq_error_iff.1 failed)
  | .record _ fields, _, failed => tracedTo_of_fieldValues fields (Except.map_eq_error_iff.1 failed)
  | .recordVariant variant fields, _, failed => by
    obtain ⟨e', inside, rfl⟩ := inField_eq_error_iff.1 (Except.map_eq_error_iff.1 failed)
    exact Error.tracedTo_within.2 (tracedTo_of_fieldValues fields inside)
  | .uint64 n, _, failed => by
    rw [Host.toValue, naturalValue] at failed
    split at failed <;> cases failed
    exact Error.tracedTo_of_other rfl
  | .int128 _, _, failed | .uint128 _, _, failed | .float32 _, _, failed | .failure _, _, failed
  | .valueBeforeKey _, _, failed => by
    cases failed
    exact Error.tracedTo_of_other rfl
  | .bool _, _, failed | .int8 _, _, failed | .int16 _, _, failed | .int32 _, _, failed
  | .int64 _, _, failed | .uint8 _, _, failed | .uint16 _, _, failed | .uint32 _, _, failed
  | .float64 _, _, failed | .char _, _, failed | .string _, _, failed | .bytes _, _, failed
  | .none, _, failed | .unit, _, failed | .namedUnit _, _, failed
  | .unitVariant _, _, failed => by cases failed

theorem tracedTo_of_itemValues : ∀ (items : List Host) {i : Nat} {e : Error},
    itemValues i items = .error e → e.TracedTo (idTextsOfHosts items)
  | [], _, _, failed => by cases failed
  | h :: rest, i, e, failed => by
    rw [itemValues] at failed
    rw [idTextsOfHosts]
    exact tracedTo_of_first_or_rest failed h.tracedTo_of_toValue (tracedTo_of_itemValues rest)

theorem tracedTo_of_entryValues : ∀ (entries : List (Host × Host)) {e : Error},
    entryValues entries = .error e → e.TracedTo (idTextsOfEntries entries)
  | [], _, failed => by cases failed
  | (key, h) :: rest, e, failed => by
    rw [entryValues] at failed
    rw [idTextsOfEntries, List.append_assoc]
    rcases Except.bind_eq_error_iff.1 failed with refused | ⟨k, -, failed⟩
    · exact (key.tracedTo_of_toValue refused).mono (List.subset_append_left ..)
    rcases Except.bind_eq_error_iff.1 failed with refused | ⟨name, -, failed⟩
    · unfold keyName at refused
      split at refused <;> cases refused
      exact Error.tracedTo_of_other rfl
    · refine Error.TracedTo.mono ?_ (List.subset_append_right ..)
      exact tracedTo_of_first_or_rest failed h.tracedTo_of_toValue (tracedTo_of_entryValues rest)

theorem tracedTo_of_fieldValues : ∀ (fields : List (String × Host)) {e : Error},
    fieldValues fields = .error e → e.TracedTo (idTextsOfFields fields)
  | [], _, failed => by cases failed
  | (name, h) :: rest, e, failed => by
    rw [fieldValues] at failed
    rw [idTextsOfFields]
    exact tracedTo_of_first_or_rest failed h.tracedTo_of_toValue (tracedTo_of_fieldValues rest)

end

/-! ### whatever is asked for -/

inductive IdRequest where
  | slice (bs : Bytes)
  | pointer (collection : String) (bs : Bytes)
  | json (j : Json)
  | host (h : Host)

namespace IdRequest

def run : IdRequest → Except Error Value
  | slice bs => (ObjectId.located bs).map .objectId
  | pointer collection bs => (DbPointer.ofBytes collection bs).map .dbPointer
  | json j => Value.ofJson j
  | host h => h.toValue

/-- the identifiers that it supplies, at any depth -/
def sources : IdRequest → List IdSource
  | slice bs | pointer _ bs => [.bytes bs]
  | json j => j.idTexts.map .text
  | host h => h.idTexts.map .text

variable {request : IdRequest} {p : FieldPath} {n : Nat}

theorem refused_of_run (failed : request.run = .error (.located p (.invalidObjectIdLength n))) :
    ∃ source ∈ request.sources,
      source.read = .error (Fault.invalidObjectIdLength n).error := by
  have bytes {bs : Bytes}
      (read : ObjectId.located bs = .error (.located p (.invalidObjectIdLength n))) :
      (IdSource.bytes bs).read = .error (Fault.invalidObjectIdLength n).error := by
    obtain ⟨-, same⟩ := (@IdSource.read_eq_error_iff (.bytes bs) _).1 read
    injection same with root fault
    exact read.trans (by rw [root, fault]; rfl)
  have texts {texts : List String}
      (traced : (Error.located p (.invalidObjectIdLength n)).TracedTo texts) :
      ∃ source ∈ texts.map IdSource.text,
        source.read = .error (Fault.invalidObjectIdLength n).error := by
    obtain ⟨text, there, read⟩ := traced n rfl
    exact ⟨.text text, List.mem_map_of_mem there, read⟩
  cases request with
  | slice bs => exact ⟨.bytes bs, .head _, bytes (Except.map_eq_error_iff.1 failed)⟩
  | pointer collection bs =>
    have made := Except.map_eq_error_iff.1 (Except.map_eq_error_iff.1 failed)
    exact ⟨.bytes bs, .head _, bytes made⟩
  | json j => exact texts (j.tracedTo_of_ofJson failed)
  | host h => exact texts (h.tracedTo_of_toValue failed)

/-- **The length that is reported**: where a length is reported, an identifier was supplied that is
refused with it. If the identifier stands for bytes, the length is their number and it is not
twelve. A text that is not hexadecimal stands for none, and half of its own bytes are reported:
only of such a text a length of twelve is reported. -/
theorem reported_length (failed : request.run = .error (.located p (.invalidObjectIdLength n))) :
    ∃ source ∈ request.sources, source.read = .error (Fault.invalidObjectIdLength n).error ∧
      n = source.reported ∧ ∀ bs, source.bytes? = some bs → bs.length = n ∧ n ≠ 12 := by
  obtain ⟨source, supplied, refused⟩ := refused_of_run failed
  obtain ⟨other, same⟩ := IdSource.read_eq_error_iff.1 refused
  have length : n = source.reported := by
    injection same with _ fault
    injection fault
  refine ⟨source, supplied, refused, length, fun bs stands => ?_⟩
  have number : bs.length = n := by rw [length, IdSource.reported_of_bytes? stands]
  exact ⟨number, number ▸ other bs stands⟩

/-- four digits under a field are reported as two bytes -/
theorem reported_length_of_digits :
    let request : IdRequest := json (.object [("a", .object [("$oid", .string "abcd")])])
    request.run = .error (.located ⟨"a"⟩ (.invalidObjectIdLength 2)) ∧
      ∃ source ∈ request.sources, source.read = .error (Fault.invalidObjectIdLength 2).error ∧
        2 = source.reported ∧ ∀ bs, source.bytes? = some bs → bs.length = 2 ∧ 2 ≠ 12 := by
  intro request
  have failed : request.run = .error (.located ⟨"a"⟩ (.invalidObjectIdLength 2)) := rfl
  exact ⟨failed, reported_length failed⟩

/-- twenty-four characters that are no digits are reported as an identifier of twelve bytes -/
theorem reported_length_of_no_digits :
    let text := "zzzzzzzzzzzzzzzzzzzzzzzz"
    let request : IdRequest := json (.object [("$oid", .string text)])
    request.run = .error (Fault.invalidObjectIdLength 12).error ∧
      request.sources = [.text text] ∧ Hex.decode text = .error (.badDigit 122 0) :=
  ⟨rfl, rfl, rfl⟩

end IdRequest

end Bson
