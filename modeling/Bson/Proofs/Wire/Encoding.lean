import Bson.Proofs.Text.Decimal
import Bson.Proofs.Wire.Grammar
import Bson.Proofs.Wire.Written
import Bson.Wire.Encode

/-!
# What the encoder writes

* `numbered`            the items of an array as fields, named by their indices (`writeItems_eq`);
* `appends_payload`, `appends_fields`  the encoder only appends;
* `written_binary_iff`, `written_regex_iff`, `written_dbPointer_iff`, `written_codeWithScope_iff`
                        the payloads of more than one part, and when they are written;
* `isPayload_of_written`, `isDocument_of_enclosed`  what it writes has the grammar, and denotes the
                        value that was written, arrays in the order of the numbers;
* `Document.encode_eq_ok_iff`, `DocumentMap.encode_eq_ok_iff`  a document and a map are encoded to
                        the payload of the value that they are.
-/

namespace Bson

open Grammar

/-! ### items as fields -/

/-- items as fields, named by their indices, of which the first is `i` -/
def numbered (i : Nat) : List Value → Fields Value
  | [] => []
  | v :: rest => (Decimal.ofNat i, v) :: numbered (i + 1) rest

theorem writeItems_eq (i : Nat) (items : List Value) :
    writeItems i items = writeFields (numbered i items) := by
  induction items generalizing i with
  | nil => rw [numbered, writeItems, writeFields]
  | cons v rest ih => rw [numbered, writeItems, writeFields, ih]

@[simp] theorem map_snd_numbered (i : Nat) (items : List Value) :
    (numbered i items).map Prod.snd = items := by
  induction items generalizing i with
  | nil => rfl
  | cons v rest ih => rw [numbered, List.map_cons, ih]

@[simp] theorem length_numbered (i : Nat) (items : List Value) :
    (numbered i items).length = items.length := by
  have h := congrArg List.length (map_snd_numbered i items)
  rwa [List.length_map] at h

theorem mem_numbered {i : Nat} {items : List Value} {f : String × Value}
    (h : f ∈ numbered i items) :
    f.2 ∈ items ∧ ∃ j, i ≤ j ∧ j < i + items.length ∧ f.1 = Decimal.ofNat j := by
  induction items generalizing i with
  | nil => cases h
  | cons v rest ih =>
    rw [List.length_cons]
    rcases List.mem_cons.1 h with rfl | h
    · exact ⟨List.mem_cons_self .., i, Nat.le_refl i, by omega, rfl⟩
    · obtain ⟨hv, j, h1, h2, hj⟩ := ih h
      exact ⟨List.mem_cons_of_mem _ hv, j, by omega, by omega, hj⟩

theorem zero_not_mem_of_mem_numbered {i : Nat} {items : List Value} {f : String × Value}
    (h : f ∈ numbered i items) : 0 ∉ utf8 f.1 := by
  obtain ⟨-, j, -, -, index⟩ := mem_numbered h
  rw [index]
  exact Decimal.zero_not_mem_ofNat j

theorem arrayIndex?_ofNat {n : Nat} (h : n < 2 ^ 64) : arrayIndex? (Decimal.ofNat n) = some n :=
  Decimal.unsigned?_ofNat h

theorem numericLE_ofNat {m n : Nat} (h : m ≤ n) (hn : n < 2 ^ 64) :
    numericLE (Decimal.ofNat m) (Decimal.ofNat n) := by
  have hm := arrayIndex?_ofNat (Nat.lt_of_le_of_lt h hn)
  simp only [numericLE, hm, arrayIndex?_ofNat hn]
  exact decide_eq_true h

theorem numbered_ordered {i : Nat} {items : List Value} (h : i + items.length ≤ 2 ^ 64) :
    (numbered i items).Pairwise fun f g => ArrayOrder.numeric.le f.1 g.1 := by
  induction items generalizing i with
  | nil => exact .nil
  | cons v rest ih =>
    rw [List.length_cons] at h
    refine List.pairwise_cons.2 ⟨fun g hg => ?_, ih (by omega)⟩
    obtain ⟨-, j, h1, h2, hj⟩ := mem_numbered hg
    rw [hj]
    exact numericLE_ofNat (by omega) (by omega)

theorem writeFields_append (fs gs : Fields Value) :
    writeFields (fs ++ gs) = writeFields fs >>= fun _ => writeFields gs := by
  induction fs with
  | nil => rw [List.nil_append, writeFields, pure_bind]
  | cons f rest ih => rw [List.cons_append, writeFields, writeFields, ih, bind_assoc]

/-! ### appending -/

theorem appends_element {name : String} {v : Value} (h : (writePayload v).Appends) :
    (Writer.within name do
      Writer.put [v.elementType.tag]
      Writer.cstring name
      writePayload v).Appends :=
  .within ((Writer.appends_put _).seq ((Writer.appends_cstring _).seq h)) name

theorem appends_fields_of {fs : Fields Value} (h : ∀ f ∈ fs, (writePayload f.2).Appends) :
    (writeFields fs).Appends := by
  induction fs with
  | nil =>
    rw [writeFields]
    exact Writer.appends_pure
  | cons f rest ih =>
    obtain ⟨first, more⟩ := List.forall_mem_cons.1 h
    rw [writeFields]
    exact (appends_element first).seq (ih more)

theorem writePayload_array (items : List Value) :
    writePayload (.array items) = Writer.enclosed (writeFields (numbered 0 items)) := by
  rw [writePayload, writeItems_eq]

theorem writePayload_codeWithScope (code : String) (scope : Fields Value) :
    writePayload (.codeWithScope code scope) = Writer.measured
      (Writer.string code >>= fun _ =>
        Writer.within "Scope" (Writer.enclosed (writeFields scope))) := by
  rw [writePayload]
  unfold Writer.measured
  simp only [bind_assoc]

theorem appends_payload (v : Value) : (writePayload v).Appends := by
  induction v using Value.childInduction with
  | step v ih =>
    have fields {fs : Fields Value} (h : v.children = fs.map Prod.snd) :
        (writeFields fs).Appends :=
      appends_fields_of fun f hf => ih _ (Value.mem_children_of_fields h hf)
    cases v with
    | array items =>
      rw [writePayload_array]
      exact .enclosed (fields (map_snd_numbered 0 items).symm)
    | document fs | map fs =>
      rw [writePayload]
      exact .enclosed (fields rfl)
    | codeWithScope code scope =>
      rw [writePayload_codeWithScope]
      have scope := (fields rfl : (writeFields scope).Appends).enclosed.within "Scope"
      exact .measured ((Writer.appends_string code).seq scope)
    | string s | javaScript s | symbol s =>
      rw [writePayload]
      exact Writer.appends_string s
    | binary bs =>
      rw [writePayload]
      exact Writer.appends_length fun _ => (Writer.appends_put _).seq (Writer.appends_put _)
    | regex r =>
      rw [writePayload]
      exact (Writer.appends_cstring _).seq (Writer.appends_cstring _)
    | dbPointer p =>
      rw [writePayload]
      exact (Writer.appends_string _).seq (Writer.appends_put _)
    | undefined | null | minKey | maxKey =>
      rw [writePayload]
      exact Writer.appends_pure
    | _ =>
      rw [writePayload]
      exact Writer.appends_put _

theorem appends_fields (fs : Fields Value) : (writeFields fs).Appends :=
  appends_fields_of fun f _ => appends_payload f.2

/-! ### fields that were written -/

/-- a field is written as its tag, its name and its payload, in front of the others -/
theorem written_cons_iff {name : String} {v : Value} {rest : Fields Value} {out : Bytes} :
    (writeFields ((name, v) :: rest)).written = .ok out ↔
      ∃ cs more, 0 ∉ utf8 name ∧ (writePayload v).written = .ok cs ∧
        (writeFields rest).written = .ok more ∧
          out = v.elementType.tag :: ((utf8 name ++ [0]) ++ (cs ++ more)) := by
  have payload := appends_payload v
  rw [writeFields, Writer.written_seq_iff (appends_fields rest)]
  simp only [Writer.written_within_iff,
    Writer.written_seq_iff ((Writer.appends_cstring name).seq payload),
    Writer.written_seq_iff payload, Writer.written_cstring_iff, Writer.written_put,
    Except.ok.injEq]
  constructor
  · intro hx
    obtain ⟨_, more, ⟨_, _, rfl, ⟨_, cs, ⟨h, rfl⟩, hv, rfl⟩, rfl⟩, hmore, rfl⟩ := hx
    exact ⟨cs, more, h, hv, hmore, by simp⟩
  · intro hx
    obtain ⟨cs, more, h, hv, hmore, rfl⟩ := hx
    exact ⟨_, more, ⟨_, _, rfl, ⟨_, cs, ⟨h, rfl⟩, hv, rfl⟩, rfl⟩, hmore, by simp⟩

theorem written_nil_iff {out : Bytes} : (writeFields []).written = .ok out ↔ out = [] := by
  rw [writeFields, Writer.written_pure, Except.ok.injEq, eq_comm]

/-! ### payloads that were written -/

theorem written_binary_iff {bs out : Bytes} :
    (writePayload (.binary bs)).written = .ok out ↔
      bs.length < 2 ^ 31 ∧ out = Writer.lengthBytes bs.length ++ 0 :: bs := by
  rw [writePayload, Writer.written_length_iff]
  refine and_congr_right fun _ => ?_
  show Except.ok _ = Except.ok out ↔ _
  rw [Except.ok.injEq, eq_comm]
  rfl

theorem written_regex_iff {r : Regex} {out : Bytes} :
    (writePayload (.regex r)).written = .ok out ↔
      (0 ∉ utf8 r.pattern ∧ 0 ∉ utf8 r.options) ∧
        out = (utf8 r.pattern ++ [0]) ++ (utf8 r.options ++ [0]) := by
  rw [writePayload, Writer.written_seq_iff (Writer.appends_cstring _)]
  simp only [Writer.written_cstring_iff]
  constructor
  · intro hx
    obtain ⟨_, _, ⟨pattern, rfl⟩, ⟨options, rfl⟩, rfl⟩ := hx
    exact ⟨⟨pattern, options⟩, rfl⟩
  · intro hx
    obtain ⟨⟨pattern, options⟩, rfl⟩ := hx
    exact ⟨_, _, ⟨pattern, rfl⟩, ⟨options, rfl⟩, rfl⟩

theorem written_dbPointer_iff {p : DbPointer} {out : Bytes} :
    (writePayload (.dbPointer p)).written = .ok out ↔
      ∃ bs, (Writer.string p.collection).written = .ok bs ∧ out = bs ++ p.id.bytes := by
  rw [writePayload, Writer.written_seq_iff (Writer.appends_put _)]
  simp only [Writer.written_put, Except.ok.injEq]
  constructor
  · intro hx
    obtain ⟨bs, _, collection, rfl, rfl⟩ := hx
    exact ⟨bs, collection, rfl⟩
  · intro hx
    obtain ⟨bs, collection, rfl⟩ := hx
    exact ⟨bs, _, collection, rfl, rfl⟩

/-- the length in front counts itself, the code and the scope -/
theorem written_codeWithScope_iff {code : String} {scope : Fields Value} {out : Bytes} :
    (writePayload (.codeWithScope code scope)).written = .ok out ↔
      ∃ bs cs, (Writer.string code).written = .ok bs ∧
        (Writer.enclosed (writeFields scope)).written = .ok cs ∧
          4 + bs.length + cs.length < 2 ^ 31 ∧
            out = Writer.lengthBytes (4 + bs.length + cs.length) ++ (bs ++ cs) := by
  have inside := (appends_fields scope).enclosed.within "Scope"
  rw [writePayload_codeWithScope,
    Writer.written_measured_iff ((Writer.appends_string code).seq inside)]
  simp only [Writer.written_seq_iff inside, Writer.written_within_iff]
  constructor
  · intro hx
    obtain ⟨_, ⟨bs, cs, text, document, rfl⟩, fits, rfl⟩ := hx
    rw [List.length_append, ← Nat.add_assoc] at fits ⊢
    exact ⟨bs, cs, text, document, fits, rfl⟩
  · intro hx
    obtain ⟨bs, cs, text, document, fits, rfl⟩ := hx
    refine ⟨bs ++ cs, ⟨bs, cs, text, document, rfl⟩, ?_⟩
    rw [List.length_append, ← Nat.add_assoc]
    exact ⟨fits, rfl⟩

/-! ### documents that were written -/

theorem isLength_lengthBytes {n : Nat} (h : n < 2 ^ 31) : IsLength (Writer.lengthBytes n) n :=
  isLength_ofInt32 h

theorem isLength_of_measured {w : Writer Unit} (h : w.Appends) {out : Bytes}
    (written : (Writer.measured w).written = .ok out) : IsLength (out.take 4) out.length := by
  obtain ⟨body, -, fits, rfl⟩ := (Writer.written_measured_iff h).1 written
  rw [List.take_left' (Writer.length_lengthBytes _), List.length_append,
    Writer.length_lengthBytes]
  exact isLength_lengthBytes fits

theorem delimited_of_enclosed {w : Writer Unit} (h : w.Appends) {out : Bytes}
    (written : (Writer.enclosed w).written = .ok out) : Delimited out := by
  refine ⟨?_, ?_⟩
  · obtain ⟨body, -, -, rfl⟩ := (Writer.written_enclosed_iff h).1 written
    rw [List.length_append, Writer.length_lengthBytes, List.length_append, List.length_singleton,
      Reader.smallestDocument]
    omega
  · rw [Writer.enclosed_eq] at written
    exact isLength_of_measured (h.seq (Writer.appends_put _)) written

theorem isString_of_written {s : String} {out : Bytes}
    (h : (Writer.string s).written = .ok out) : IsString out s := by
  obtain ⟨fits, rfl⟩ := Writer.written_string_iff.1 h
  exact .text (isLength_lengthBytes fits)

theorem isElements_of_written {order : ArrayOrder} {fs : Fields Value} {out : Bytes}
    (payload : ∀ f ∈ fs, ∀ cs, (writePayload f.2).written = .ok cs →
      IsPayload order f.2.elementType cs f.2)
    (h : (writeFields fs).written = .ok out) : IsElements order out fs := by
  induction fs generalizing out with
  | nil =>
    rw [written_nil_iff.1 h]
    exact .nil
  | cons f rest ih =>
    obtain ⟨cs, more, hn, hv, hmore, rfl⟩ := written_cons_iff.1 h
    obtain ⟨first, others⟩ := List.forall_mem_cons.1 payload
    exact .cons (.mk hn) (first cs hv) (ih others hmore)

theorem isDocument_of_enclosed {order : ArrayOrder} {fs : Fields Value} {out : Bytes}
    (payload : ∀ f ∈ fs, ∀ cs, (writePayload f.2).written = .ok cs →
      IsPayload order f.2.elementType cs f.2)
    (h : (Writer.enclosed (writeFields fs)).written = .ok out) : IsDocument order out fs := by
  obtain ⟨body, hbody, fits, rfl⟩ := (Writer.written_enclosed_iff (appends_fields fs)).1 h
  exact .mk (isLength_lengthBytes fits) (isElements_of_written payload hbody)

/-! ### values that were written -/

theorem isScalar_of_written {v : Value} {out : Bytes} (scalar : v.elementType.isContainer = false)
    (h : (writePayload v).written = .ok out) : IsScalar v.elementType out v := by
  cases v with
  | document | map | raw | array | codeWithScope => cases scalar
  | string | javaScript | symbol =>
    rw [writePayload] at h
    have text := isString_of_written h
    constructor
    exact text
  | binary bs =>
    obtain ⟨fits, rfl⟩ := written_binary_iff.1 h
    exact .binary (isLength_lengthBytes fits)
  | regex r =>
    obtain ⟨⟨pattern, options⟩, rfl⟩ := written_regex_iff.1 h
    exact .regex (.mk pattern) (.mk options)
  | dbPointer p =>
    obtain ⟨bs, collection, rfl⟩ := written_dbPointer_iff.1 h
    exact .dbPointer (isString_of_written collection)
  | double d =>
    obtain ⟨bits⟩ := d
    obtain ⟨width, rfl⟩ := Bytes.ofUInt64_eq_iff.1 (Except.ok.inj h)
    exact .double width
  | int32 n =>
    obtain ⟨width, rfl⟩ := Bytes.ofInt32_eq_iff.1 (Except.ok.inj h)
    exact .int32 width
  | dateTime n | timestamp n | int64 n =>
    obtain ⟨width, rfl⟩ := Bytes.ofInt64_eq_iff.1 (Except.ok.inj h)
    constructor
    exact width
  | boolean b =>
    obtain rfl := Except.ok.inj h
    cases b
    · exact .boolean
    · exact .boolean
  | objectId | undefined | null | minKey | maxKey =>
    obtain rfl := Except.ok.inj h
    constructor

theorem isPayload_of_written {v : Value} (plain : v.plain) {out : Bytes}
    (h : (writePayload v).written = .ok out) : IsPayload .numeric v.elementType out v := by
  induction v using Value.childInduction generalizing out with
  | step v ih =>
    obtain ⟨here, inside⟩ := Value.everywhere_iff.1 plain
    have payload {fs : Fields Value} (hfs : v.children = fs.map Prod.snd) :
        ∀ f ∈ fs, ∀ cs, (writePayload f.2).written = .ok cs →
          IsPayload .numeric f.2.elementType cs f.2 := by
      intro f hf cs hcs
      have child := Value.mem_children_of_fields hfs hf
      exact ih f.2 child (inside f.2 child) hcs
    cases hc : v.elementType.isContainer with
    | false => exact .scalar (isScalar_of_written hc h)
    | true =>
      cases v with
      | document fs =>
        rw [writePayload] at h
        exact .embeddedDocument (isDocument_of_enclosed (payload rfl) h)
      | array items =>
        rw [writePayload_array] at h
        have hdoc := isDocument_of_enclosed (payload (map_snd_numbered 0 items).symm) h
        have few : 0 + items.length ≤ 2 ^ 64 := by
          have h1 := hdoc.length_le
          have h2 := hdoc.length_lt
          rw [length_numbered] at h1
          omega
        have arranged := ArrayOrder.Arranged.of_ordered (numbered_ordered few)
        have array := IsPayload.array hdoc arranged
        rwa [map_snd_numbered] at array
      | codeWithScope code scope =>
        obtain ⟨bs, cs, text, document, fits, rfl⟩ := written_codeWithScope_iff.1 h
        have hdoc := isDocument_of_enclosed (payload rfl) document
        exact .codeWithScope (isLength_lengthBytes fits) (isString_of_written text) hdoc
      | map | raw => cases here
      | _ => cases hc

theorem Document.encode_eq_ok_iff {d : Document} {r : RawDocument} :
    d.encode = .ok r ↔ (writePayload (.document d)).written = .ok r.bytes := by
  rw [encode, Except.map_eq_ok_iff, writePayload, writeDocument]
  constructor
  · intro hx
    obtain ⟨out, hout, rfl⟩ := hx
    exact hout
  · exact fun hout => ⟨r.bytes, hout, rfl⟩

theorem DocumentMap.encode_eq_ok_iff {m : DocumentMap} {r : RawDocument} :
    m.encode = .ok r ↔ (writePayload (.map m)).written = .ok r.bytes := by
  rw [writePayload_map]
  exact Document.encode_eq_ok_iff

end Bson
