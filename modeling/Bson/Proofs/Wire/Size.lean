import Mathlib.Algebra.Order.BigOperators.Group.List
import Mathlib.Algebra.Order.Group.Nat
import Mathlib.Algebra.Ring.Nat
import Bson.Proofs.Value.Children
import Bson.Proofs.Wire.Encoding

/-!
# How much the encoder writes

* `Value.wireSize`      the number of bytes of a payload;
* `Value.nulFree`       whether the names, patterns and options in a value are free of zero bytes;
* `length_of_written`   what is written has that size;
* `exists_written`      a value free of zero bytes is written if its size is below 2³¹;
* `nulFree_of_written`  and only values free of zero bytes are written.

The size of an array depends on the order of its items only through the digits of the indices
(`wireSizeOfItems_le`).
-/

namespace Bson

namespace Value

/-- the number of bytes of a text behind its length -/
def wireSizeOfText (s : String) : Nat := 4 + (utf8 s).length + 1

mutual

/-- the number of bytes of a payload -/
def wireSize : Value → Nat
  | string s | javaScript s | symbol s => wireSizeOfText s
  | document fs | map fs => 4 + wireSizeOfFields fs + 1
  | array items => 4 + wireSizeOfItems 0 items + 1
  | codeWithScope code scope => 4 + wireSizeOfText code + (4 + wireSizeOfFields scope + 1)
  | raw doc => doc.bytes.length
  | binary bs => 4 + (bs.length + 1)
  | objectId _ => 12
  | boolean _ => 1
  | double _ | dateTime _ | timestamp _ | int64 _ => 8
  | int32 _ => 4
  | regex r => ((utf8 r.pattern).length + 1) + ((utf8 r.options).length + 1)
  | dbPointer p => wireSizeOfText p.collection + 12
  | undefined | null | minKey | maxKey => 0

def wireSizeOfFields : List (String × Value) → Nat
  | [] => 0
  | (name, v) :: rest => 1 + ((utf8 name).length + 1) + v.wireSize + wireSizeOfFields rest

/-- the number of bytes of the elements of items, of which the first has the index `i` -/
def wireSizeOfItems (i : Nat) : List Value → Nat
  | [] => 0
  | v :: rest =>
    1 + ((utf8 (Decimal.ofNat i)).length + 1) + v.wireSize + wireSizeOfItems (i + 1) rest

end

theorem wireSizeOfItems_eq (i : Nat) (items : List Value) :
    wireSizeOfItems i items = wireSizeOfFields (numbered i items) := by
  induction items generalizing i with
  | nil => rw [numbered, wireSizeOfItems, wireSizeOfFields]
  | cons v rest ih => rw [numbered, wireSizeOfItems, wireSizeOfFields, ih]

theorem wireSizeOfFields_eq (fs : Fields Value) :
    wireSizeOfFields fs = (fs.map fun f => 1 + ((utf8 f.1).length + 1) + f.2.wireSize).sum := by
  induction fs with
  | nil => rw [wireSizeOfFields, List.map_nil, List.sum_nil]
  | cons f rest ih => rw [wireSizeOfFields, ih, List.map_cons, List.sum_cons]

theorem wireSizeOfItems_congr {α : Type} {f g : α → Value} {items : List α}
    (h : ∀ a ∈ items, (f a).wireSize = (g a).wireSize) (i : Nat) :
    wireSizeOfItems i (items.map f) = wireSizeOfItems i (items.map g) := by
  induction items generalizing i with
  | nil => rfl
  | cons a rest ih =>
    obtain ⟨first, more⟩ := List.forall_mem_cons.1 h
    rw [List.map_cons, List.map_cons, wireSizeOfItems, wireSizeOfItems, first, ih more]

theorem wireSizeOfFields_mapValues_le {f : Value → Value} {fs : Fields Value}
    (h : ∀ e ∈ fs, (f e.2).wireSize ≤ e.2.wireSize) :
    wireSizeOfFields (fs.mapValues f) ≤ wireSizeOfFields fs := by
  rw [wireSizeOfFields_eq, wireSizeOfFields_eq, Fields.mapValues, List.map_map]
  exact List.sum_le_sum fun e he => Nat.add_le_add_left (h e he) _

theorem wireSizeOfItems_map_le {f : Value → Value} {items : List Value}
    (h : ∀ v ∈ items, (f v).wireSize ≤ v.wireSize) (i : Nat) :
    wireSizeOfItems i (items.map f) ≤ wireSizeOfItems i items := by
  induction items generalizing i with
  | nil => exact Nat.le_refl _
  | cons v rest ih =>
    obtain ⟨first, more⟩ := List.forall_mem_cons.1 h
    have rest := ih more (i + 1)
    rw [List.map_cons, wireSizeOfItems, wireSizeOfItems]
    omega

/-- with indices of at most seven digits, an element of an array takes nine bytes or less besides
its payload -/
theorem wireSizeOfItems_le {i : Nat} {items : List Value} (h : i + items.length ≤ 10 ^ 7) :
    wireSizeOfItems i items ≤ 9 * items.length + (items.map wireSize).sum := by
  induction items generalizing i with
  | nil =>
    rw [wireSizeOfItems]
    exact Nat.zero_le _
  | cons v rest ih =>
    rw [List.length_cons] at h
    have digits : (utf8 (Decimal.ofNat i)).length ≤ 7 := Decimal.length_ofNat_le (by omega)
    have more := ih (i := i + 1) (by omega)
    rw [wireSizeOfItems, List.length_cons, List.map_cons, List.sum_cons]
    omega

/-- the order of the items does not matter to this bound -/
theorem wireSize_array_le_of_perm {fs gs : Fields Value} (perm : gs.Perm fs)
    (few : fs.length ≤ 10 ^ 7) :
    (array (gs.map Prod.snd)).wireSize ≤
      5 + 9 * fs.length + (fs.map fun f => f.2.wireSize).sum := by
  have count := perm.length_eq
  have sum : ((gs.map Prod.snd).map wireSize).sum = (fs.map fun f => f.2.wireSize).sum := by
    rw [List.map_map]
    exact (perm.map _).sum_nat
  have indices : 0 + (gs.map Prod.snd).length ≤ 10 ^ 7 := by
    rw [List.length_map]
    omega
  have items := wireSizeOfItems_le indices
  rw [sum, List.length_map, count] at items
  rw [wireSize]
  omega

theorem wireSize_le_of_mem {fs : Fields Value} {f : String × Value} (h : f ∈ fs) :
    f.2.wireSize ≤ wireSizeOfFields fs := by
  induction fs with
  | nil => cases h
  | cons g rest ih =>
    rw [wireSizeOfFields]
    rcases List.mem_cons.1 h with rfl | h
    · omega
    · have := ih h
      omega

/-- whether the names, patterns and options in a value are free of zero bytes -/
def nulFree : Value → Bool :=
  everywhere fun
    | document fs | map fs | codeWithScope _ fs => fs.all fun f => decide (0 ∉ utf8 f.1)
    | regex r => decide (0 ∉ utf8 r.pattern ∧ 0 ∉ utf8 r.options)
    | _ => true

theorem nulFree_fields_iff {v : Value} {fs : Fields Value} (hfs : v.children = fs.map Prod.snd) :
    ((fs.all fun f => decide (0 ∉ utf8 f.1)) = true ∧ ∀ w ∈ v.children, w.nulFree) ↔
      ∀ f ∈ fs, 0 ∉ utf8 f.1 ∧ f.2.nulFree := by
  rw [hfs, List.all_eq_true, List.forall_mem_map]
  simp only [decide_eq_true_eq]
  exact ⟨fun h f hf => ⟨h.1 f hf, h.2 f hf⟩,
    fun h => ⟨fun f hf => (h f hf).1, fun f hf => (h f hf).2⟩⟩

theorem nulFree_document_iff {fs : Fields Value} :
    (document fs).nulFree ↔ ∀ f ∈ fs, 0 ∉ utf8 f.1 ∧ f.2.nulFree :=
  everywhere_iff.trans (nulFree_fields_iff rfl)

theorem nulFree_map_iff {fs : Fields Value} :
    (map fs).nulFree ↔ ∀ f ∈ fs, 0 ∉ utf8 f.1 ∧ f.2.nulFree :=
  everywhere_iff.trans (nulFree_fields_iff rfl)

theorem nulFree_codeWithScope_iff {code : String} {scope : Fields Value} :
    (codeWithScope code scope).nulFree ↔ ∀ f ∈ scope, 0 ∉ utf8 f.1 ∧ f.2.nulFree :=
  everywhere_iff.trans (nulFree_fields_iff rfl)

theorem nulFree_array_iff {items : List Value} : (array items).nulFree ↔ ∀ v ∈ items, v.nulFree :=
  everywhere_iff.trans (and_iff_right rfl)

end Value

/-! ### the size of what is written -/

theorem length_fields_of {fs : Fields Value} {out : Bytes}
    (payload : ∀ f ∈ fs, ∀ cs, (writePayload f.2).written = .ok cs → cs.length = f.2.wireSize)
    (h : (writeFields fs).written = .ok out) : out.length = Value.wireSizeOfFields fs := by
  induction fs generalizing out with
  | nil =>
    rw [written_nil_iff.1 h, Value.wireSizeOfFields]
    rfl
  | cons f rest ih =>
    obtain ⟨cs, more, -, hv, hmore, rfl⟩ := written_cons_iff.1 h
    obtain ⟨first, others⟩ := List.forall_mem_cons.1 payload
    have h1 := first cs hv
    have h2 := ih others hmore
    rw [Value.wireSizeOfFields]
    simp only [List.length_cons, List.length_append, List.length_nil]
    omega

theorem length_enclosed_of {fs : Fields Value} {out : Bytes}
    (payload : ∀ f ∈ fs, ∀ cs, (writePayload f.2).written = .ok cs → cs.length = f.2.wireSize)
    (h : (Writer.enclosed (writeFields fs)).written = .ok out) :
    out.length = 4 + Value.wireSizeOfFields fs + 1 := by
  obtain ⟨body, hbody, -, rfl⟩ := (Writer.written_enclosed_iff (appends_fields fs)).1 h
  have h1 := length_fields_of payload hbody
  rw [List.length_append, Writer.length_lengthBytes, List.length_append, List.length_singleton, h1]
  omega

theorem length_string_of_written {s : String} {out : Bytes}
    (h : (Writer.string s).written = .ok out) : out.length = Value.wireSizeOfText s := by
  obtain ⟨-, rfl⟩ := Writer.written_string_iff.1 h
  rw [List.length_append, Writer.length_lengthBytes, List.length_append, List.length_singleton,
    Value.wireSizeOfText, Nat.add_assoc]

theorem length_scalar_of_written {v : Value} {out : Bytes}
    (scalar : v.elementType.isContainer = false) (h : (writePayload v).written = .ok out) :
    out.length = v.wireSize := by
  cases v with
  | document | map | raw | array | codeWithScope => cases scalar
  | string s | javaScript s | symbol s =>
    rw [writePayload] at h
    rw [Value.wireSize, length_string_of_written h]
  | binary bs =>
    obtain ⟨-, rfl⟩ := written_binary_iff.1 h
    rw [List.length_append, Writer.length_lengthBytes, List.length_cons, Value.wireSize]
  | regex r =>
    obtain ⟨-, rfl⟩ := written_regex_iff.1 h
    simp only [List.length_append, List.length_singleton, Value.wireSize]
  | dbPointer p =>
    obtain ⟨bs, collection, rfl⟩ := written_dbPointer_iff.1 h
    rw [List.length_append, length_string_of_written collection, Value.wireSize]
    exact congrArg (_ + ·) p.id.length_bytes
  | objectId id =>
    obtain rfl := Except.ok.inj h
    exact id.length_bytes
  | double d =>
    obtain rfl := Except.ok.inj h
    exact Bytes.length_ofUInt64 _
  | dateTime n | timestamp n | int64 n =>
    obtain rfl := Except.ok.inj h
    exact Bytes.length_ofInt64 _
  | int32 n =>
    obtain rfl := Except.ok.inj h
    exact Bytes.length_ofInt32 _
  | boolean | undefined | null | minKey | maxKey =>
    obtain rfl := Except.ok.inj h
    rfl

theorem length_of_written {v : Value} {out : Bytes} (h : (writePayload v).written = .ok out) :
    out.length = v.wireSize := by
  induction v using Value.childInduction generalizing out with
  | step v ih =>
    have payload {fs : Fields Value} (hfs : v.children = fs.map Prod.snd) :
        ∀ f ∈ fs, ∀ cs, (writePayload f.2).written = .ok cs → cs.length = f.2.wireSize :=
      fun f hf cs hcs => ih f.2 (Value.mem_children_of_fields hfs hf) hcs
    cases hc : v.elementType.isContainer with
    | false => exact length_scalar_of_written hc h
    | true =>
      cases v with
      | document fs | map fs =>
        rw [writePayload] at h
        rw [Value.wireSize, length_enclosed_of (payload rfl) h]
      | array items =>
        rw [writePayload_array] at h
        rw [Value.wireSize, Value.wireSizeOfItems_eq,
          length_enclosed_of (payload (map_snd_numbered 0 items).symm) h]
      | codeWithScope code scope =>
        obtain ⟨bs, cs, text, document, -, rfl⟩ := written_codeWithScope_iff.1 h
        have h1 := length_string_of_written text
        have h2 := length_enclosed_of (payload rfl) document
        rw [Value.wireSize, List.length_append, Writer.length_lengthBytes, List.length_append]
        omega
      | raw doc =>
        obtain rfl := Except.ok.inj h
        rfl
      | _ => cases hc

/-! ### values that can be written -/

theorem exists_fields_of {fs : Fields Value} (names : ∀ f ∈ fs, 0 ∉ utf8 f.1)
    (payload : ∀ f ∈ fs, ∃ cs, (writePayload f.2).written = .ok cs) :
    ∃ out, (writeFields fs).written = .ok out := by
  induction fs with
  | nil => exact ⟨[], written_nil_iff.2 rfl⟩
  | cons f rest ih =>
    obtain ⟨name, more⟩ := List.forall_mem_cons.1 names
    obtain ⟨⟨cs, hcs⟩, others⟩ := List.forall_mem_cons.1 payload
    obtain ⟨out, hout⟩ := ih more others
    exact ⟨_, written_cons_iff.2 ⟨cs, out, name, hcs, hout, rfl⟩⟩

theorem exists_enclosed_of {fs : Fields Value} (names : ∀ f ∈ fs, 0 ∉ utf8 f.1)
    (payload : ∀ f ∈ fs, ∃ cs, (writePayload f.2).written = .ok cs)
    (small : 4 + Value.wireSizeOfFields fs + 1 < 2 ^ 31) :
    ∃ out, (Writer.enclosed (writeFields fs)).written = .ok out := by
  obtain ⟨body, hbody⟩ := exists_fields_of names payload
  have h1 := length_fields_of (fun _ _ _ => length_of_written) hbody
  rw [← h1] at small
  exact ⟨_, (Writer.written_enclosed_iff (appends_fields fs)).2 ⟨body, hbody, small, rfl⟩⟩

theorem exists_string_of {s : String} (small : Value.wireSizeOfText s < 2 ^ 31) :
    ∃ out, (Writer.string s).written = .ok out := by
  unfold Value.wireSizeOfText at small
  exact ⟨_, Writer.written_string_iff.2 ⟨by omega, rfl⟩⟩

theorem exists_scalar_of {v : Value} (scalar : v.elementType.isContainer = false)
    (free : v.nulFree) (small : v.wireSize < 2 ^ 31) : ∃ out, (writePayload v).written = .ok out := by
  obtain ⟨here, -⟩ := Value.everywhere_iff.1 free
  cases v with
  | document | map | raw | array | codeWithScope => cases scalar
  | string s | javaScript s | symbol s =>
    rw [writePayload]
    exact exists_string_of small
  | binary bs =>
    rw [Value.wireSize] at small
    exact ⟨_, written_binary_iff.2 ⟨by omega, rfl⟩⟩
  | regex r => exact ⟨_, written_regex_iff.2 ⟨of_decide_eq_true here, rfl⟩⟩
  | dbPointer p =>
    rw [Value.wireSize] at small
    obtain ⟨bs, collection⟩ := exists_string_of (s := p.collection) (by omega)
    exact ⟨_, written_dbPointer_iff.2 ⟨bs, collection, rfl⟩⟩
  | _ => exact ⟨_, rfl⟩

theorem exists_written {v : Value} (free : v.nulFree) (small : v.wireSize < 2 ^ 31) :
    ∃ out, (writePayload v).written = .ok out := by
  induction v using Value.childInduction with
  | step v ih =>
    obtain ⟨here, inside⟩ := Value.everywhere_iff.1 free
    have payload {fs : Fields Value} (hfs : v.children = fs.map Prod.snd)
        (total : Value.wireSizeOfFields fs < 2 ^ 31) :
        ∀ f ∈ fs, ∃ cs, (writePayload f.2).written = .ok cs := by
      intro f hf
      have child := Value.mem_children_of_fields hfs hf
      exact ih f.2 child (inside f.2 child) (Nat.lt_of_le_of_lt (Value.wireSize_le_of_mem hf) total)
    -- an array has no names of its own to check: its indices are free of zero bytes
    have names {fs : Fields Value} (h : (fs.all fun f => decide (0 ∉ utf8 f.1)) = true) :
        ∀ f ∈ fs, 0 ∉ utf8 f.1 :=
      fun f hf => of_decide_eq_true (List.all_eq_true.1 h f hf)
    cases hc : v.elementType.isContainer with
    | false => exact exists_scalar_of hc free small
    | true =>
      cases v with
      | document fs | map fs =>
        rw [Value.wireSize] at small
        rw [writePayload]
        exact exists_enclosed_of (names here) (payload rfl (by omega)) small
      | array items =>
        rw [Value.wireSize, Value.wireSizeOfItems_eq] at small
        rw [writePayload_array]
        have hfs := (map_snd_numbered 0 items).symm
        exact exists_enclosed_of (fun f => zero_not_mem_of_mem_numbered) (payload hfs (by omega))
          small
      | codeWithScope code scope =>
        rw [Value.wireSize] at small
        obtain ⟨bs, text⟩ := exists_string_of (s := code) (by omega)
        obtain ⟨cs, document⟩ := exists_enclosed_of (names here) (payload rfl (by omega)) (by omega)
        have h1 := length_string_of_written text
        have h2 := length_enclosed_of (fun _ _ _ => length_of_written) document
        exact ⟨_, written_codeWithScope_iff.2 ⟨bs, cs, text, document, by omega, rfl⟩⟩
      | raw doc => exact ⟨_, rfl⟩
      | _ => cases hc

theorem free_of_written {fs : Fields Value} {out : Bytes}
    (h : (writeFields fs).written = .ok out) :
    ∀ f ∈ fs, 0 ∉ utf8 f.1 ∧ ∃ cs, (writePayload f.2).written = .ok cs := by
  induction fs generalizing out with
  | nil => exact List.forall_mem_nil _
  | cons f rest ih =>
    obtain ⟨cs, more, free, hcs, hmore, -⟩ := written_cons_iff.1 h
    exact List.forall_mem_cons.2 ⟨⟨free, cs, hcs⟩, ih hmore⟩

theorem nulFree_of_written {v : Value} {out : Bytes} (h : (writePayload v).written = .ok out) :
    v.nulFree := by
  induction v using Value.childInduction generalizing out with
  | step v ih =>
    have enclosed {fs : Fields Value} (hfs : v.children = fs.map Prod.snd) {out : Bytes}
        (h : (Writer.enclosed (writeFields fs)).written = .ok out) :
        (fs.all fun f => decide (0 ∉ utf8 f.1)) = true ∧ ∀ w ∈ v.children, w.nulFree := by
      obtain ⟨body, hbody, -⟩ := (Writer.written_enclosed_iff (appends_fields fs)).1 h
      have free := free_of_written hbody
      refine ⟨List.all_eq_true.2 fun f hf => decide_eq_true (free f hf).1, ?_⟩
      intro w hw
      rw [hfs] at hw
      obtain ⟨f, hf, rfl⟩ := List.mem_map.1 hw
      obtain ⟨cs, hcs⟩ := (free f hf).2
      exact ih f.2 (Value.mem_children_of_fields hfs hf) hcs
    refine Value.everywhere_iff.2 ?_
    cases v with
    | document fs | map fs =>
      rw [writePayload] at h
      exact enclosed rfl h
    | array items =>
      rw [writePayload_array] at h
      exact ⟨rfl, (enclosed (map_snd_numbered 0 items).symm h).2⟩
    | codeWithScope code scope =>
      obtain ⟨_, _, -, document, -⟩ := written_codeWithScope_iff.1 h
      exact enclosed rfl document
    | regex r => exact ⟨decide_eq_true (written_regex_iff.1 h).1, List.forall_mem_nil _⟩
    | _ => exact ⟨rfl, List.forall_mem_nil _⟩

end Bson
