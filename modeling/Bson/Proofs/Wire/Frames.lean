import Bson.Proofs.Shape.Maps
import Bson.Proofs.Value.Frames
import Bson.Proofs.Wire.NoNest
import Bson.Proofs.Wire.Sources

/-!
# Where raw documents get their frames

* `RawDocument.framed_encode`  what the encoder encloses has the frame of a document;
* `Config.framed_decode`  what the decoder leaves unread has it too, and is checked for it;
* `ByteSource.delimited_readRaw`  what is taken from a source has the length that it declares, and
                        is not looked at any further;
* `DocumentStream.readRaw_of_next`  a stream takes its documents in the same way.
-/

namespace Bson

open Grammar

/-! ### written -/

theorem RawDocument.framed_encode {d : Document} {r : RawDocument} (h : d.encode = .ok r) :
    r.Framed := by
  obtain ⟨_, written, rfl⟩ := Except.map_eq_ok_iff.1 h
  have delimited := delimited_of_enclosed (appends_fields d) written
  obtain ⟨out, -, -, rfl⟩ := (Writer.written_enclosed_iff (appends_fields d)).1 written
  refine framed_iff.2 ⟨delimited, ?_⟩
  rw [← List.append_assoc, List.getLast?_concat]

/-! ### decoded -/

theorem framed_toMaps {v : Value} (h : v.framed) : v.toMaps.framed := by
  induction v using Value.childInduction with
  | step v ih =>
    have inside (w) (hw : w ∈ v.children) : w.toMaps.framed :=
      ih w hw (Value.framed_of_child h hw)
    cases v with
    | document fs =>
      rw [Value.toMaps_document]
      refine Value.everywhere_iff.2 ⟨rfl, List.forall_mem_map.2 fun f hf => ?_⟩
      have mapped := Fields.mem_sorted hf
      rw [Value.toMapsInFields_eq] at mapped
      obtain ⟨e, he, rfl⟩ := List.mem_map.1 mapped
      exact inside e.2 (List.mem_map_of_mem he)
    | array items =>
      rw [Value.toMaps_array]
      exact Value.everywhere_iff.2 ⟨rfl, List.forall_mem_map.2 inside⟩
    | _ => exact h

namespace Config

variable {config : Config} {nesting : Nesting} {bs : Bytes}

theorem framed_decodeDocument {d : Document} (h : config.decodeDocument nesting bs = .ok d) :
    ∀ f ∈ d, f.2.framed := by
  cases nesting with
  | nested =>
    obtain ⟨-, -, es, -, rfl, has⟩ := nested_eq_ok_iff.1 h
    exact List.forall_mem_map.2 fun e he => Value.framed_of_plain (has e he).2.1.plain
  | noNest =>
    obtain ⟨-, -, es, -, rfl, has⟩ := noNest_eq_ok_iff.1 h
    refine List.forall_mem_map.2 fun e he => ?_
    have payload := (has e he).2
    unfold IsUnread at payload
    by_cases embedded : e.type = .embeddedDocument
    · rw [if_pos embedded] at payload
      obtain ⟨framed, value⟩ := payload
      show e.value.framed
      rw [value]
      exact Value.framed_raw_iff.2 framed
    · rw [if_neg embedded] at payload
      exact Value.framed_of_plain payload.1.plain

theorem framed_decode {shape : Shape} {v : Value} (h : config.decode shape nesting bs = .ok v) :
    v.framed := by
  obtain ⟨fs, hfs, rfl⟩ := Except.map_eq_ok_iff.1 h
  cases shape with
  | document =>
    exact Value.everywhere_iff.2 ⟨rfl, List.forall_mem_map.2 (framed_decodeDocument hfs)⟩
  | map =>
    rw [fields_toMaps] at hfs
    obtain ⟨d, hd, rfl⟩ := Except.map_eq_ok_iff.1 hfs
    refine Value.everywhere_iff.2 ⟨rfl, List.forall_mem_map.2 fun f hf => ?_⟩
    obtain ⟨e, he, rfl⟩ := List.mem_map.1 (Fields.mem_sorted hf)
    exact framed_toMaps (framed_decodeDocument hd e he)

end Config

/-! ### taken from a source -/

namespace ByteSource

theorem length_readExactly {n : Nat} {source left : ByteSource} {bs : Bytes}
    (h : readExactly n source = .ok bs left) : bs.length = n := by
  fun_induction readExactly n source generalizing bs with
  | case1 =>
    cases h
    rfl
  | case3 n piece source whole =>
    cases h
    exact List.length_take_of_le whole
  | case4 n piece source short more left read ih =>
    cases h
    rw [List.length_append, ih read]
    omega
  | case6 n text source ih => exact ih h
  | _ => cases h

/-- what is read where a source may end is read exactly, if it has not ended -/
theorem readExactly_of_readOrEnd {n : Nat} {begun : Bool} {source left : ByteSource} {bs : Bytes}
    (h : readOrEnd n begun source = .ok (some bs) left) : readExactly n source = .ok bs left := by
  fun_induction readOrEnd n begun source generalizing bs with
  | case1 =>
    cases h
    exact readExactly_zero _
  | case4 n begun piece source whole =>
    cases h
    rw [readExactly, if_pos whole]
  | case5 n begun piece source short more left read ih =>
    cases more with
    | none => cases h
    | some more =>
      cases h
      rw [readExactly, if_neg short, ih read]
  | case7 n begun text source ih => exact ih h
  | _ => cases h

theorem delimited_readRaw {ceiling : Nat} {source left : ByteSource} {doc : RawDocument}
    (h : readRaw ceiling source = .ok doc left) : Delimited doc.bytes := by
  obtain ⟨front, _, read, rest⟩ := EStateM.bind_eq_ok_iff.1 h
  obtain ⟨declared, _, known, rest⟩ := EStateM.bind_eq_ok_iff.1 rest
  obtain ⟨body, _, read', whole⟩ := EStateM.bind_eq_ok_iff.1 rest
  obtain ⟨checked, rfl⟩ := lift_eq_ok_iff.1 known
  obtain ⟨small, -, same⟩ := declaredLength_eq_ok_iff.1 checked
  have four := length_readExactly read
  have others := length_readExactly read'
  obtain ⟨rfl, -⟩ := EStateM.Result.ok.inj whole
  unfold Reader.smallestDocument at small
  have length : (front ++ body).length = declared := by
    rw [List.length_append]
    omega
  refine ⟨?_, ?_⟩
  · rw [length, Reader.smallestDocument]
    omega
  · rw [length, List.take_left' four]
    exact ⟨four, same⟩

end ByteSource

namespace DocumentStream

/-- what a stream gives, its source gives when it is asked for one document -/
theorem readRaw_of_next {s s' : DocumentStream} {doc : RawDocument}
    (h : s.next = (some (.ok doc), s')) :
    ∃ left, ByteSource.readRaw s.ceiling s.source = .ok doc left := by
  unfold next at h
  by_cases done : s.done
  · rw [if_pos done] at h
    cases h
  rw [if_neg done] at h
  cases read : readNext s.ceiling s.source with
  | error e left =>
    rw [read] at h
    cases h
  | ok item left =>
    rw [read] at h
    cases item with
    | none => cases h
    | some item =>
      cases h
      obtain ⟨front, middle, begun, rest⟩ := EStateM.bind_eq_ok_iff.1 read
      cases front with
      | none => cases rest
      | some front =>
        obtain ⟨doc, body, same⟩ := EStateM.map_eq_ok_iff.1 rest
        cases same
        exact ⟨left, EStateM.bind_eq_ok_iff.2
          ⟨front, middle, ByteSource.readExactly_of_readOrEnd begun, body⟩⟩

end DocumentStream

end Bson
