import Mathlib.Logic.Relation
import Bson.Proofs.Wire.NulBytes

/-!
# Documents packed as bytes

The encoder writes lengths into a buffer that other bytes stand in already. What it adds does not
depend on them (`Writer.Appends`), so a document may be written beforehand.

* `Writer.Appends.eq_put`  a writer that does not fail adds the bytes that it writes alone;
* `isLength_of_written` a container begins with the length of all that was added for it;
* `Value.Packs`         one document or map in a value is left as the bytes that it is written to;
* `Value.Packs.writePayload_eq`  which the encoder cannot tell from the value;
* `Value.writing_appends`  all of this for a value, a document and an array.
-/

namespace Bson

open Grammar

theorem Writer.Appends.eq_put {w : Writer Unit} (h : w.Appends) {out : Bytes}
    (done : w.written = .ok out) : w = Writer.put out := by
  funext before
  rw [h before]
  unfold written at done
  cases alone : w [] with
  | error e rest =>
    rw [alone] at done
    cases done
  | ok _ rest =>
    rw [alone] at done
    injection done with done
    rw [done, Writer.put_apply]

namespace Value

/-! ### lengths -/

theorem isLength_of_written {v : Value} (container : v.elements?.isSome) {out : Bytes}
    (written : (writePayload v).written = .ok out) : IsLength (out.take 4) out.length := by
  cases v with
  | document fs | map fs =>
    rw [writePayload] at written
    exact (delimited_of_enclosed (appends_fields fs) written).2
  | array items =>
    rw [writePayload_array] at written
    exact (delimited_of_enclosed (appends_fields _) written).2
  | codeWithScope code scope =>
    have inside := (appends_fields scope).enclosed.within "Scope"
    rw [writePayload_codeWithScope] at written
    exact isLength_of_measured ((Writer.appends_string code).seq inside) written
  | _ => cases container

/-! ### packing -/

/-- the second value is the first, in which one document or map was left as the bytes that it is
written to -/
inductive Packs : Value → Value → Prop
  | document {fs : Document} {r : RawDocument} : fs.encode = .ok r → Packs (document fs) (raw r)
  | map {fs : DocumentMap} {r : RawDocument} : fs.encode = .ok r → Packs (map fs) (raw r)
  | inDocument {v w : Value} {name : String} {before after : Fields Value} : Packs v w →
      Packs (document (before ++ (name, v) :: after)) (document (before ++ (name, w) :: after))
  | inMap {v w : Value} {name : String} {before after : Fields Value} : Packs v w →
      Packs (map (before ++ (name, v) :: after)) (map (before ++ (name, w) :: after))
  | inArray {v w : Value} {before after : List Value} : Packs v w →
      Packs (array (before ++ v :: after)) (array (before ++ w :: after))
  | inScope {v w : Value} {code name : String} {before after : Fields Value} : Packs v w →
      Packs (codeWithScope code (before ++ (name, v) :: after))
        (codeWithScope code (before ++ (name, w) :: after))

variable {v w : Value}

theorem Packs.elementType_eq (h : Packs v w) : w.elementType = v.elementType := by
  cases h <;> rfl

/-- fields are written alike if the values in one place are -/
theorem writeFields_congr (tag : w.elementType = v.elementType)
    (payload : writePayload w = writePayload v) (name : String) (before after : Fields Value) :
    writeFields (before ++ (name, w) :: after) = writeFields (before ++ (name, v) :: after) := by
  rw [writeFields_append, writeFields_append, writeFields, writeFields, tag, payload]

theorem numbered_append (i : Nat) (before after : List Value) :
    numbered i (before ++ after) = numbered i before ++ numbered (i + before.length) after := by
  induction before generalizing i with
  | nil => rfl
  | cons v rest ih =>
    rw [List.cons_append, numbered, numbered, ih, List.length_cons, List.cons_append,
      Nat.add_right_comm, Nat.add_assoc]

theorem writePayload_raw_of_encode {r : RawDocument}
    (written : (writePayload v).written = .ok r.bytes) :
    writePayload (raw r) = writePayload v := by
  rw [(appends_payload v).eq_put written, writePayload]

/-- the encoder writes the same onto any buffer -/
theorem Packs.writePayload_eq (h : Packs v w) : writePayload w = writePayload v := by
  induction h with
  | document encoded => exact writePayload_raw_of_encode (Document.encode_eq_ok_iff.1 encoded)
  | map encoded => exact writePayload_raw_of_encode (DocumentMap.encode_eq_ok_iff.1 encoded)
  | inDocument packs ih | inMap packs ih =>
    rw [writePayload, writePayload, writeFields_congr packs.elementType_eq ih]
  | inArray packs ih =>
    rw [writePayload_array, writePayload_array, numbered_append, numbered_append, numbered,
      numbered, writeFields_congr packs.elementType_eq ih]
  | inScope packs ih =>
    rw [writePayload_codeWithScope, writePayload_codeWithScope,
      writeFields_congr packs.elementType_eq ih]

theorem encode_eq (v : Value) : v.encode =
    if v.elementType = .embeddedDocument then (writePayload v).written.map RawDocument.mk
    else .error (Fault.unsupportedType v.typeName).error := by
  cases v with
  | document fs | map fs =>
    rw [writePayload]
    rfl
  | raw r =>
    rw [writePayload]
    rfl
  | _ => rfl

theorem Packs.encode_eq (h : Packs v w) : w.encode = v.encode := by
  rw [Value.encode_eq, Value.encode_eq, h.elementType_eq, h.writePayload_eq]
  cases h <;> rfl

/-- **The encoder only appends**: onto any buffer, a value, a document and an array are written as
onto an empty one, behind what stands there, and they fail alike; what stands there stays in any
case. What is added for a container begins with its length. So documents and maps in a value, any
number of them, may be left as the bytes that they are written to, and the bytes of the whole are
the same. -/
theorem writing_appends :
    (∀ v, (writePayload v).Appends ∧ (v.elements?.isSome → ∀ out,
      (writePayload v).written = .ok out → IsLength (out.take 4) out.length)) ∧
    (∀ fs, (writeDocument fs).Appends ∧ ∀ out,
      (writeDocument fs).written = .ok out → IsLength (out.take 4) out.length) ∧
    (∀ items, (Writer.enclosed (writeItems 0 items)).Appends ∧ ∀ out,
      (Writer.enclosed (writeItems 0 items)).written = .ok out →
        IsLength (out.take 4) out.length) ∧
    ∀ v w, Relation.ReflTransGen Packs v w →
      writePayload w = writePayload v ∧ w.encode = v.encode := by
  refine ⟨fun v => ⟨appends_payload v, fun container _ => isLength_of_written container⟩,
    fun fs => ⟨(appends_fields fs).enclosed,
      fun _ written => (delimited_of_enclosed (appends_fields fs) written).2⟩,
    fun items => ?_, fun v w packs => ?_⟩
  · rw [writeItems_eq]
    exact ⟨(appends_fields _).enclosed,
      fun _ written => (delimited_of_enclosed (appends_fields _) written).2⟩
  · induction packs with
    | refl => exact ⟨rfl, rfl⟩
    | tail _ packs ih =>
      exact ⟨packs.writePayload_eq.trans ih.1, packs.encode_eq.trans ih.2⟩

/-- a map in the scope of code is packed, and then the document around them -/
theorem writing_appends_packed_twice :
    let outer : RawDocument := ⟨[40, 0, 0, 0, 15, 99, 0, 32, 0, 0, 0, 2, 0, 0, 0, 102, 0,
      22, 0, 0, 0, 10, 0, 3, 97, 0, 12, 0, 0, 0, 16, 98, 0, 1, 0, 0, 0, 0, 0, 0]⟩
    let code (field : Value) : Value := .codeWithScope "f" [("", .null), ("a", field)]
    let v : Value := .array [.null, .document [("c", code (.map [("b", .int32 1)]))]]
    let w : Value := .array [.null, .raw outer]
    Relation.ReflTransGen Packs v w ∧ writePayload w = writePayload v ∧
      ∃ out, (writePayload w).written = .ok out ∧ IsLength (out.take 4) out.length := by
  intro outer code v w
  let inner : RawDocument := ⟨[12, 0, 0, 0, 16, 98, 0, 1, 0, 0, 0, 0]⟩
  have map : DocumentMap.encode [("b", .int32 1)] = .ok inner := by decide +kernel
  have around : Document.encode [("c", code (.raw inner))] = .ok outer := by decide +kernel
  -- from the inside outwards: the map in its scope, then the document of the code
  have scope : Packs (code (.map [("b", .int32 1)])) (code (.raw inner)) :=
    @Packs.inScope _ _ "f" "a" [("", .null)] [] (.map map)
  have first : Packs v (.array [.null, .document [("c", code (.raw inner))]]) :=
    @Packs.inArray _ _ [.null] [] (@Packs.inDocument _ _ "c" [] [] scope)
  have second : Packs (.array [.null, .document [("c", code (.raw inner))]]) w :=
    @Packs.inArray _ _ [.null] [] (.document around)
  have packs : Relation.ReflTransGen Packs v w := .tail (.single first) second
  obtain ⟨values, -, -, packed⟩ := writing_appends
  exact ⟨packs, (packed v w packs).1, _, rfl, (values w).2 rfl _ rfl⟩

end Value

end Bson
