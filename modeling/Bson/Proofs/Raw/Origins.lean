import Bson.Proofs.Host.Rebuilt
import Bson.Proofs.Wire.Frames

/-!
# Where raw documents come from

* `RawDocument.Made`    the raw documents that operations give: checked, written, left unread by the
                        decoder, rebuilt from a host record, or taken from a source;
* `RawDocument.made_iff`  all of them have the frame of a document but those taken from a source,
                        which may lack the terminator; and a document of raw documents comes back
                        from its bytes exactly if they have it.
-/

namespace Bson

open Grammar

namespace RawDocument

/-- the raw documents that operations give, if `taken` allows those that come from a source.
`written` stands for documents and maps as well, which are values. -/
inductive Made (taken : RawDocument → Prop) : RawDocument → Prop
  | checked {bs : Bytes} {doc : RawDocument} : ofBytes bs = .ok doc → Made taken doc
  | written {v : Value} {doc : RawDocument} : (∀ inner, v = .raw inner → Made taken inner) →
      v.encode = .ok doc → Made taken doc
  | unread {config : Config} {shape : Shape} {nesting : Nesting} {bs : Bytes} {v : Value}
      {doc : RawDocument} : config.decode shape nesting bs = .ok v → v.Holds doc → Made taken doc
  | rebuilt {h : Host} {v : Value} {doc : RawDocument} : h.toValue = .ok v → v.Holds doc →
      Made taken doc
  | read {ceiling : Nat} {source left : ByteSource} {doc : RawDocument} :
      ByteSource.readRaw ceiling source = .ok doc left → taken doc → Made taken doc
  | streamed {s s' : DocumentStream} {doc : RawDocument} : s.next = (some (.ok doc), s') →
      taken doc → Made taken doc

theorem framed_or_taken_of_made {taken : RawDocument → Prop} {doc : RawDocument}
    (h : Made taken doc) : doc.Framed ∨ taken doc ∧ Delimited doc.bytes := by
  induction h with
  | checked h => exact .inl (ofBytes_eq_ok_iff.1 h).2
  | @written v doc _ encoded ih =>
    cases v with
    | document fs | map fs => exact .inl (framed_encode (d := fs) encoded)
    | raw inner =>
      cases encoded
      exact ih _ rfl
    | _ => cases encoded
  | unread decoded holds => exact .inl (Value.framed_iff.1 (Config.framed_decode decoded) _ holds)
  | rebuilt built holds => exact .inl (Value.framed_iff.1 (Host.framed_toValue _ built) _ holds)
  | read h allowed => exact .inr ⟨allowed, ByteSource.delimited_readRaw h⟩
  | streamed h allowed =>
    obtain ⟨left, read⟩ := DocumentStream.readRaw_of_next h
    exact .inr ⟨allowed, ByteSource.delimited_readRaw read⟩

theorem made_of_delimited {taken : RawDocument → Prop} {doc : RawDocument} (allowed : taken doc)
    (delimited : Delimited doc.bytes) : Made taken doc := by
  have delivers : ByteSource.Delivers [.data doc.bytes] (doc.bytes ++ []) := .data _ .ended
  obtain ⟨left, read, -⟩ := ByteSource.readRaw_eq doc.bytes.length delivers
  rw [List.append_nil, front_eq_ok_iff.2 ⟨List.prefix_refl _, delimited, Nat.le_refl _⟩] at read
  exact .read read allowed

/-! ### documents of raw documents -/

def element (f : String × RawDocument) : Element := ⟨.embeddedDocument, f.1, f.2.bytes, .raw f.2⟩

theorem elements_of_written {raws : Fields RawDocument} {out : Bytes}
    (h : (writeFields (raws.mapValues .raw)).written = .ok out) :
    out = (raws.map element).flatMap Element.bytes ∧ ∀ f ∈ raws, 0 ∉ utf8 f.1 := by
  induction raws generalizing out with
  | nil => exact ⟨written_nil_iff.1 h, nofun⟩
  | cons f raws ih =>
    obtain ⟨cs, more, free, payload, written, rfl⟩ := written_cons_iff.1 h
    obtain ⟨rfl, others⟩ := ih written
    cases payload
    exact ⟨(Element.flatMap_bytes_cons (element f) _).symm, List.forall_mem_cons.2 ⟨free, others⟩⟩

theorem noNest_iff_framed {config : Config} {raws : Fields RawDocument} {r : RawDocument}
    (encoded : Document.encode (raws.mapValues .raw) = .ok r)
    (small : r.bytes.length ≤ config.maxDocumentSize) :
    config.decodeDocument .noNest r.bytes = .ok (raws.mapValues .raw) ↔
      ∀ f ∈ raws, f.2.Framed := by
  constructor
  · intro decoded f hf
    have inside := Fields.forall_mem_mapValues.1 (Config.framed_decodeDocument decoded)
    exact Value.framed_raw_iff.1 (inside f hf)
  · intro framed
    have taken : front config.maxDocumentSize r.bytes = .ok r.bytes :=
      front_eq_ok_iff.2 ⟨List.prefix_refl _, delimited_of_framed (framed_encode encoded), small⟩
    have enclosed := Document.encode_eq_ok_iff.1 encoded
    rw [writePayload, Writer.written_enclosed_iff (appends_fields _)] at enclosed
    obtain ⟨out, written, -, whole⟩ := enclosed
    obtain ⟨rfl, free⟩ := elements_of_written written
    refine Config.noNest_eq_ok_iff.2 ⟨_, taken, raws.map element, ?_, ?_, ?_⟩
    · rw [whole, List.drop_left' (Writer.length_lengthBytes _)]
    · rw [List.map_map]
      rfl
    · refine List.forall_mem_map.2 fun f hf => ⟨free f hf, ?_⟩
      exact (if_pos rfl).mpr ⟨framed f hf, rfl⟩

/-- **Raw documents have frames**, wherever they come from but from a source: one that is taken from
a source has the length that it declares, and may lack the terminator. A document of raw documents
is decoded to them from its bytes exactly if all of them are framed. -/
theorem made_iff (taken : RawDocument → Prop) (config : Config) :
    (∀ doc, Made taken doc ↔ doc.Framed ∨ taken doc ∧ Delimited doc.bytes) ∧
    ∀ (raws : Fields RawDocument) (r : RawDocument),
      Document.encode (raws.mapValues .raw) = .ok r → r.bytes.length ≤ config.maxDocumentSize →
      (config.decodeDocument .noNest r.bytes = .ok (raws.mapValues .raw) ↔
        ∀ f ∈ raws, f.2.Framed) := by
  refine ⟨fun doc => ⟨framed_or_taken_of_made, ?_⟩, fun _ _ => noNest_iff_framed⟩
  rintro (framed | ⟨allowed, delimited⟩)
  · exact .checked (ofBytes_eq_ok_iff.2 ⟨rfl, framed⟩)
  · exact made_of_delimited allowed delimited

/-- a framed document comes back, and one without its terminator does not -/
theorem made_iff_one_field :
    let whole : Fields RawDocument := [("a", ⟨[5, 0, 0, 0, 0]⟩)]
    let cut : Fields RawDocument := [("a", ⟨[5, 0, 0, 0, 1]⟩)]
    (∃ r, Document.encode (whole.mapValues .raw) = .ok r ∧
      Config.standard.decodeDocument .noNest r.bytes = .ok (whole.mapValues .raw)) ∧
    ∃ r, Document.encode (cut.mapValues .raw) = .ok r ∧
      Config.standard.decodeDocument .noNest r.bytes ≠ .ok (cut.mapValues .raw) := by
  intro whole cut
  have back := (made_iff (fun _ => True) .standard).2
  have framed : ∀ f ∈ whole, f.2.Framed := by decide
  have unframed : ¬ ∀ f ∈ cut, f.2.Framed := by decide
  refine ⟨⟨⟨[13, 0, 0, 0, 3, 97, 0, 5, 0, 0, 0, 0, 0]⟩, rfl, ?_⟩,
    ⟨⟨[13, 0, 0, 0, 3, 97, 0, 5, 0, 0, 0, 1, 0]⟩, rfl, ?_⟩⟩
  · exact (back whole _ rfl (by decide)).2 framed
  · exact mt (back cut _ rfl (by decide)).1 unframed

/-- five bytes without a terminator, which a source gives as a document -/
theorem made_unterminated :
    ∃ doc, Made (fun _ => True) doc ∧ ofBytes doc.bytes =
      .error (Fault.invalidDocument .missingTerminator).error :=
  ⟨⟨[5, 0, 0, 0, 1]⟩, @Made.read _ 5 [.data [5, 0, 0, 0, 1]] [.data []] _ rfl trivial, rfl⟩

end RawDocument

end Bson
