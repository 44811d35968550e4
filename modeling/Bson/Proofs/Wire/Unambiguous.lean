import Bson.Proofs.Wire.Decoding

/-!
# The grammar is unambiguous

What a reader accepts is cut off the front of its input in one way only (`Reader.Accepts.unique`).

* `IsPayload.unique`    so a byte string begins with at most one payload of a type, which has one
                        value;
* `HasElements.unique`, `IsDocument.unique`  the bytes of a document have one list of elements, and
                        denote one list of fields.
-/

namespace Bson

namespace Grammar

variable {order : ArrayOrder}

theorem IsPayload.unique {t : ElementType} {bs cs rest left : Bytes} {v w : Value}
    (hv : IsPayload order t bs v) (hw : IsPayload order t cs w) (same : bs ++ rest = cs ++ left) :
    bs = cs ∧ v = w ∧ rest = left := by
  let config : Config := { arrayOrder := order }
  let levels := max v.depth w.depth
  have inner (ds : Bytes) (fs : Fields Value) (hds : Delimited ds) :
      contents config levels .document ds = .ok fs ↔
        IsDocument order ds fs ∧ Document.depth fs ≤ levels := contents_eq_ok_iff hds
  have accepts := Reader.accepts_payload inner t
  exact accepts.unique ⟨hv, Nat.le_max_left ..⟩ ⟨hw, Nat.le_max_right ..⟩ same

theorem tag_inj {t u : ElementType} (h : t.tag = u.tag) : t = u := by
  have found := congrArg ElementType.ofTag? h
  rw [ElementType.ofTag?_tag, ElementType.ofTag?_tag] at found
  injection found

theorem Element.unique {e e' : Element} (h : e.Has (IsPayload order))
    (h' : e'.Has (IsPayload order)) {rest left : Bytes}
    (same : e.bytes ++ rest = e'.bytes ++ left) : e = e' ∧ rest = left := by
  rw [Element.bytes_append, Element.bytes_append] at same
  obtain ⟨type, name, payload, value⟩ := e
  obtain ⟨type', name', payload', value'⟩ := e'
  obtain ⟨tags, behind⟩ := List.cons.inj same
  obtain rfl : type = type' := tag_inj tags
  obtain ⟨-, rfl, behind⟩ := Reader.accepts_cstring.unique (.mk h.1) (.mk h'.1) behind
  obtain ⟨rfl, rfl, rfl⟩ := h.2.unique h'.2 behind
  exact ⟨rfl, rfl⟩

theorem flatMap_bytes_unique {es es' : List Element} (h : ∀ e ∈ es, e.Has (IsPayload order))
    (h' : ∀ e ∈ es', e.Has (IsPayload order))
    (same : es.flatMap Element.bytes ++ [0] = es'.flatMap Element.bytes ++ [0]) : es = es' := by
  -- a tag is no terminator, so the two lists end together
  have ends (e : Element) (rest : Bytes) : e.bytes ++ rest ≠ [0] := by
    intro h0
    rw [Element.bytes_append] at h0
    exact e.type.tag_ne_zero (List.cons.inj h0).1
  induction es generalizing es' with
  | nil =>
    cases es' with
    | nil => rfl
    | cons e' es' =>
      rw [List.flatMap_cons, List.append_assoc] at same
      exact absurd same.symm (ends e' _)
  | cons e es ih =>
    cases es' with
    | nil =>
      rw [List.flatMap_cons, List.append_assoc] at same
      exact absurd same (ends e _)
    | cons e' es' =>
      obtain ⟨first, more⟩ := List.forall_mem_cons.1 h
      obtain ⟨first', more'⟩ := List.forall_mem_cons.1 h'
      rw [List.flatMap_cons, List.flatMap_cons, List.append_assoc, List.append_assoc] at same
      obtain ⟨rfl, behind⟩ := Element.unique first first' same
      rw [ih more more' behind]

theorem HasElements.unique {bs : Bytes} {es es' : List Element} (h : HasElements order bs es)
    (h' : HasElements order bs es') : es = es' :=
  flatMap_bytes_unique h.2 h'.2 (h.1.symm.trans h'.1)

theorem IsDocument.unique {bs : Bytes} {fs gs : Fields Value} (h : IsDocument order bs fs)
    (h' : IsDocument order bs gs) : fs = gs := by
  obtain ⟨-, es, hes, rfl⟩ := isDocument_iff_elements.1 h
  obtain ⟨-, es', hes', rfl⟩ := isDocument_iff_elements.1 h'
  rw [hes.unique hes']

end Grammar

end Bson
