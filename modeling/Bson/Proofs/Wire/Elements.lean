import Bson.Proofs.Wire.Grammar

/-!
# Elements as they stand in bytes

An `Element` is a type, a name and the bytes of a payload, with the value that the payload denotes.

* `Element.bytes`, `Element.field`  what stands in a document for it, and the field it is read as;
* `Element.Has`         the name can be written, and the payload has the value in a format;
* `HasElements`         the elements of a document, one after another up to the terminator;
* `isElements_iff`, `isDocument_iff_elements`  the grammar, said of such lists.
-/

namespace Bson

namespace Grammar

/-- an element of a document, with its payload as bytes and as a value -/
structure Element where
  type : ElementType
  name : String
  payload : Bytes
  value : Value

namespace Element

def bytes (e : Element) : Bytes := e.type.tag :: ((utf8 e.name ++ [0]) ++ e.payload)

def field (e : Element) : String × Value := (e.name, e.value)

/-- the name can be written, and the payload has the value in the format -/
def Has (format : ElementType → Bytes → Value → Prop) (e : Element) : Prop :=
  0 ∉ utf8 e.name ∧ format e.type e.payload e.value

theorem bytes_append (e : Element) (rest : Bytes) :
    e.bytes ++ rest = e.type.tag :: ((utf8 e.name ++ [0]) ++ (e.payload ++ rest)) := by
  rw [bytes, List.cons_append, List.append_assoc]

theorem flatMap_bytes_cons (e : Element) (es : List Element) :
    (e :: es).flatMap bytes =
      e.type.tag :: ((utf8 e.name ++ [0]) ++ (e.payload ++ es.flatMap bytes)) := by
  rw [List.flatMap_cons, bytes_append]

end Element

/-- the elements of a document between its length and its terminator -/
def HasElements (order : ArrayOrder) (bs : Bytes) (es : List Element) : Prop :=
  bs.drop 4 = es.flatMap Element.bytes ++ [0] ∧ ∀ e ∈ es, e.Has (IsPayload order)

variable {order : ArrayOrder}

theorem isElements_iff {bs : Bytes} {fs : Fields Value} :
    IsElements order bs fs ↔
      ∃ es : List Element, bs = es.flatMap Element.bytes ∧ fs = es.map Element.field ∧
        ∀ e ∈ es, e.Has (IsPayload order) := by
  constructor
  · intro h
    induction fs generalizing bs with
    | nil =>
      cases h
      exact ⟨[], rfl, rfl, nofun⟩
    | cons f fs ih =>
      cases h with
      | @cons t bs cs rest name v _ hn hp hr =>
        obtain ⟨free⟩ := hn
        obtain ⟨es, rfl, rfl, has⟩ := ih hr
        have bytes := Element.flatMap_bytes_cons ⟨t, name, cs, v⟩ es
        exact ⟨_ :: es, bytes.symm, rfl, List.forall_mem_cons.2 ⟨⟨free, hp⟩, has⟩⟩
  · intro hx
    obtain ⟨es, rfl, rfl, has⟩ := hx
    induction es with
    | nil => exact .nil
    | cons e es ih =>
      obtain ⟨⟨free, payload⟩, more⟩ := List.forall_mem_cons.1 has
      rw [Element.flatMap_bytes_cons]
      exact .cons (.mk free) payload (ih more)

theorem isDocument_iff_elements {bs : Bytes} {fs : Fields Value} :
    IsDocument order bs fs ↔
      Delimited bs ∧ ∃ es, HasElements order bs es ∧ fs = es.map Element.field := by
  rw [isDocument_iff]
  refine and_congr_right fun _ => ?_
  constructor
  · intro hx
    obtain ⟨_, hbs, elements⟩ := hx
    obtain ⟨es, rfl, rfl, has⟩ := isElements_iff.1 elements
    exact ⟨es, ⟨hbs, has⟩, rfl⟩
  · intro hx
    obtain ⟨es, ⟨hbs, has⟩, rfl⟩ := hx
    exact ⟨_, hbs, isElements_iff.2 ⟨es, rfl, rfl, has⟩⟩

end Grammar

end Bson
