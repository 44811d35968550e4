import Bson.Proofs.Error.Paths
import Bson.Proofs.Wire.Size

/-!
# Zero bytes in names

A name, and a pattern and its options, end at their first zero byte, so that a value in which one of
them holds a zero byte cannot be written.

* `Value.elements?`     the elements that are written for a container, the items of an array under
                        their indices, and the segments in front of their names;
* `Value.FirstNul`      the path to the first such text of a value, in the order of writing;
* `Value.nulFree_iff_not_firstNul`  a value is free of zero bytes if there is none;
* `payload_of_firstNul` the error of writing is located by that path;
* `Document.encode_error_iff`  so a document that is not too large fails to be encoded exactly if
                        there is such a text, and there.
-/

namespace Bson

namespace Value

/-- the elements that are written for a container, and the segments in front of their names -/
def elements? : Value → Option (List String × Fields Value)
  | document fs | map fs => some ([], fs)
  | array items => some ([], numbered 0 items)
  | codeWithScope _ scope => some (["Scope"], scope)
  | _ => none

/-- the path leads to the first text of a value, in the order of writing, that holds a zero byte
where it ends at one -/
inductive FirstNul : Value → List String → Prop
  | regex {r : Regex} : 0 ∈ utf8 r.pattern ∨ 0 ∈ utf8 r.options → FirstNul (regex r) []
  | name {v w : Value} {segments : List String} {before after : Fields Value} {name : String} :
      v.elements? = some (segments, before ++ (name, w) :: after) →
      (∀ f ∈ before, 0 ∉ utf8 f.1 ∧ f.2.nulFree) → 0 ∈ utf8 name →
      FirstNul v (segments ++ [name])
  | inside {v w : Value} {segments : List String} {before after : Fields Value} {name : String}
      {path : List String} : v.elements? = some (segments, before ++ (name, w) :: after) →
      (∀ f ∈ before, 0 ∉ utf8 f.1 ∧ f.2.nulFree) → 0 ∉ utf8 name → FirstNul w path →
      FirstNul v (segments ++ name :: path)

/-- whether no field of a value, at any level, has the empty name -/
def named : Value → Bool :=
  everywhere fun
    | document fs | map fs | codeWithScope _ fs => fs.all fun f => f.1 != ""
    | _ => true

variable {v w : Value} {segments path : List String} {fs : Fields Value}

/-! ### elements -/

theorem children_of_elements? (h : v.elements? = some (segments, fs)) :
    v.children = fs.map Prod.snd := by
  cases v with
  | document | map | codeWithScope =>
    cases h
    rfl
  | array items =>
    cases h
    exact (map_snd_numbered 0 items).symm
  | _ => cases h

theorem mem_children_of_elements? (h : v.elements? = some (segments, fs)) {f : String × Value}
    (hf : f ∈ fs) : f.2 ∈ v.children :=
  mem_children_of_fields (children_of_elements? h) hf

theorem nulFree_iff_of_elements? (h : v.elements? = some (segments, fs)) :
    v.nulFree ↔ ∀ f ∈ fs, 0 ∉ utf8 f.1 ∧ f.2.nulFree := by
  cases v with
  | document =>
    cases h
    exact nulFree_document_iff
  | map =>
    cases h
    exact nulFree_map_iff
  | codeWithScope =>
    cases h
    exact nulFree_codeWithScope_iff
  | array items =>
    cases h
    rw [nulFree_array_iff]
    constructor
    · exact fun free f hf => ⟨zero_not_mem_of_mem_numbered hf, free f.2 (mem_numbered hf).1⟩
    · intro free w hw
      rw [← map_snd_numbered 0 items] at hw
      obtain ⟨f, hf, rfl⟩ := List.mem_map.1 hw
      exact (free f hf).2
  | _ => cases h

theorem wireSize_le_of_elements? (h : v.elements? = some (segments, fs)) :
    wireSizeOfFields fs ≤ v.wireSize := by
  cases v with
  | document | map | codeWithScope =>
    cases h
    rw [wireSize]
    omega
  | array items =>
    cases h
    rw [wireSize, wireSizeOfItems_eq]
    omega
  | _ => cases h

/-- what is neither a container nor a regular expression holds no text that ends at a zero byte -/
theorem nulFree_of_elements?_eq_none (h : v.elements? = none) (plain : ∀ r, v ≠ regex r) :
    v.nulFree := by
  cases v with
  | document | map | array | codeWithScope => cases h
  | regex r => exact absurd rfl (plain r)
  | _ => rfl

theorem nulFree_regex_iff {r : Regex} :
    (regex r).nulFree ↔ ¬ (0 ∈ utf8 r.pattern ∨ 0 ∈ utf8 r.options) := by
  rw [not_or]
  exact decide_eq_true_iff

/-! ### the first text -/

theorem exists_first {p : String × Value → Prop} [DecidablePred p] (h : ¬ ∀ f ∈ fs, p f) :
    ∃ before f after, fs = before ++ f :: after ∧ (∀ g ∈ before, p g) ∧ ¬ p f := by
  have some' : (fs.find? fun f => decide (¬ p f)).isSome := by
    rw [List.find?_isSome]
    obtain ⟨f, hf, not⟩ := not_forall₂.1 h
    exact ⟨f, hf, decide_eq_true not⟩
  obtain ⟨f, found⟩ := Option.isSome_iff_exists.1 some'
  obtain ⟨not, before, after, rfl, free⟩ := List.find?_eq_some_iff_append.1 found
  exact ⟨before, f, after, rfl, fun g hg => by simpa using free g hg, of_decide_eq_true not⟩

theorem exists_firstNul (h : ¬ v.nulFree) : ∃ path, FirstNul v path := by
  induction v using childInduction with
  | step v ih =>
    cases elements : v.elements? with
    | none =>
      by_cases expression : ∃ r, v = regex r
      · obtain ⟨r, rfl⟩ := expression
        rw [nulFree_regex_iff, not_not] at h
        exact ⟨[], .regex h⟩
      · exact absurd (nulFree_of_elements?_eq_none elements (not_exists.1 expression)) h
    | some inside =>
      obtain ⟨segments, fs⟩ := inside
      rw [nulFree_iff_of_elements? elements] at h
      obtain ⟨before, ⟨name, w⟩, after, rfl, free, offends⟩ := exists_first h
      by_cases zero : 0 ∈ utf8 name
      · exact ⟨_, .name elements free zero⟩
      · have child := mem_children_of_elements? elements
          (List.mem_append_right before (List.mem_cons_self ..))
        obtain ⟨path, first⟩ := ih w child fun all => offends ⟨zero, all⟩
        exact ⟨_, .inside elements free zero first⟩

theorem FirstNul.not_nulFree (h : FirstNul v path) : ¬ v.nulFree := by
  induction h with
  | regex zero =>
    rw [nulFree_regex_iff, not_not]
    exact zero
  | name elements _ zero =>
    rw [nulFree_iff_of_elements? elements]
    exact fun free => (free _ (List.mem_append_right _ (.head _))).1 zero
  | inside elements _ _ _ ih =>
    rw [nulFree_iff_of_elements? elements]
    exact fun free => ih (free _ (List.mem_append_right _ (.head _))).2

theorem named_of_elements? (h : v.elements? = some (segments, fs)) (named : v.named) :
    (∀ segment ∈ segments, segment ≠ "") ∧ ∀ f ∈ fs, f.1 ≠ "" ∧ f.2.named := by
  obtain ⟨here, inside⟩ := everywhere_iff.1 named
  have fields (h : v.children = fs.map Prod.snd) : ∀ f ∈ fs, f.2.named :=
    fun f hf => inside f.2 (mem_children_of_fields h hf)
  cases v with
  | document | map | codeWithScope =>
    cases h
    refine ⟨by decide, fun f hf => ⟨?_, fields rfl f hf⟩⟩
    simpa using List.all_eq_true.1 here f hf
  | array items =>
    cases h
    refine ⟨by decide, fun f hf => ⟨?_, fields (map_snd_numbered 0 items).symm f hf⟩⟩
    obtain ⟨-, j, -, -, index⟩ := mem_numbered hf
    rw [index]
    exact Decimal.ofNat_ne_empty j
  | _ => cases h

/-- no name on the way to the first text is empty, if none is in the value -/
theorem FirstNul.named (h : FirstNul v path) (named : v.named) : ∀ name ∈ path, name ≠ "" := by
  induction h with
  | regex => exact List.forall_mem_nil _
  | name elements _ _ =>
    obtain ⟨segments, fields⟩ := named_of_elements? elements named
    have name := (fields _ (List.mem_append_right _ (.head _))).1
    exact List.forall_mem_append.2 ⟨segments, List.forall_mem_singleton.2 name⟩
  | inside elements _ _ _ ih =>
    obtain ⟨segments, fields⟩ := named_of_elements? elements named
    obtain ⟨name, below⟩ := fields _ (List.mem_append_right _ (.head _))
    exact List.forall_mem_append.2 ⟨segments, List.forall_mem_cons.2 ⟨name, ih below⟩⟩

end Value

/-! ### writing up to the first text -/

variable {v w : Value} {segments : List String} {before after : Fields Value} {name : String}
  {e : Error}

theorem fields_of_error (free : ∀ f ∈ before, 0 ∉ utf8 f.1 ∧ f.2.nulFree)
    (small : Value.wireSizeOfFields (before ++ (name, w) :: after) < 2 ^ 31)
    (failed : (writeFields ((name, w) :: after)).written = .error e) :
    (writeFields (before ++ (name, w) :: after)).written = .error e := by
  have size (f) (hf : f ∈ before) : f.2.wireSize < 2 ^ 31 :=
    Nat.lt_of_le_of_lt (Value.wireSize_le_of_mem (List.mem_append_left _ hf)) small
  obtain ⟨out, done⟩ := exists_fields_of (fun f hf => (free f hf).1) fun f hf =>
    exists_written (free f hf).2 (size f hf)
  rw [writeFields_append]
  exact Writer.written_seq_of_second (appends_fields _) done failed

theorem cons_of_name (zero : 0 ∈ utf8 name) :
    (writeFields ((name, w) :: after)).written = .error (Fault.interiorNul.error.within name) := by
  have payload := appends_payload w
  have element := Writer.written_seq_of_second ((Writer.appends_cstring name).seq payload)
    (Writer.written_put [w.elementType.tag])
    (Writer.written_seq_of_first payload (Writer.written_cstring_of_zero zero))
  rw [writeFields]
  exact Writer.written_seq_of_first (appends_fields after)
    (Writer.written_within_of_error element name)

theorem cons_of_payload (free : 0 ∉ utf8 name) (failed : (writePayload w).written = .error e) :
    (writeFields ((name, w) :: after)).written = .error (e.within name) := by
  have payload := appends_payload w
  have element := Writer.written_seq_of_second ((Writer.appends_cstring name).seq payload)
    (Writer.written_put [w.elementType.tag])
    (Writer.written_seq_of_second payload (Writer.written_cstring_iff.2 ⟨free, rfl⟩) failed)
  rw [writeFields]
  exact Writer.written_seq_of_first (appends_fields after)
    (Writer.written_within_of_error element name)

/-- a container fails with its elements, under the segments in front of them -/
theorem payload_of_fields {fs : Fields Value} (elements : v.elements? = some (segments, fs))
    (small : v.wireSize < 2 ^ 31) (failed : (writeFields fs).written = .error e) :
    (writePayload v).written = .error (e.under segments) := by
  have document := Writer.written_enclosed_of_error (appends_fields fs) failed
  cases v with
  | document | map =>
    cases elements
    rw [writePayload]
    exact document
  | array items =>
    cases elements
    rw [writePayload_array]
    exact document
  | codeWithScope code scope =>
    cases elements
    have appends := (appends_fields fs).enclosed.within "Scope"
    rw [Value.wireSize] at small
    obtain ⟨out, done⟩ := exists_string_of (s := code) (by omega)
    rw [writePayload_codeWithScope]
    exact Writer.written_measured_of_error ((Writer.appends_string code).seq appends)
      (Writer.written_seq_of_second appends done (Writer.written_within_of_error document "Scope"))
  | _ => cases elements

/-- writing fails at the first text, and is located by the path to it -/
theorem payload_of_firstNul {path : List String} (h : v.FirstNul path)
    (small : v.wireSize < 2 ^ 31) :
    (writePayload v).written = .error (Fault.interiorNul.error.under path) := by
  induction h with
  | @regex r zero =>
    rw [writePayload]
    by_cases pattern : 0 ∈ utf8 r.pattern
    · exact Writer.written_seq_of_first (Writer.appends_cstring _)
        (Writer.written_cstring_of_zero pattern)
    · exact Writer.written_seq_of_second (Writer.appends_cstring _)
        (Writer.written_cstring_iff.2 ⟨pattern, rfl⟩)
        (Writer.written_cstring_of_zero (zero.resolve_left pattern))
  | name elements free zero =>
    have fields := Nat.lt_of_le_of_lt (Value.wireSize_le_of_elements? elements) small
    rw [Error.under_append]
    exact payload_of_fields elements small (fields_of_error free fields (cons_of_name zero))
  | @inside v w segments before after name path elements free named _ ih =>
    have fields := Nat.lt_of_le_of_lt (Value.wireSize_le_of_elements? elements) small
    have member : (name, w) ∈ before ++ (name, w) :: after :=
      List.mem_append_right _ (.head _)
    have below := ih (Nat.lt_of_le_of_lt (Value.wireSize_le_of_mem member) fields)
    rw [Error.under_append]
    exact payload_of_fields elements small
      (fields_of_error free fields (cons_of_payload named below))

namespace Document

theorem encode_eq_error_iff {d : Document} {e : Error} :
    d.encode = .error e ↔ (writePayload (.document d)).written = .error e := by
  rw [encode, Except.map_eq_error_iff, writePayload, writeDocument]

/-- **When encoding fails, and where**: a document that takes less than 2³¹ bytes fails to be encoded
exactly if a name, a pattern or options hold a zero byte, at any level outside of bytes that were
not read. The error is located by the names, the indices and the scopes on the way to the first such
text in the order of writing. Other texts may hold zero bytes. -/
theorem encode_error_iff {d : Document} (named : (Value.document d).named)
    (small : (Value.document d).wireSize < 2 ^ 31) :
    ((∃ e, d.encode = .error e) ↔ ¬ (Value.document d).nulFree) ∧
      ∀ e, d.encode = .error e ↔
        ∃ path, (Value.document d).FirstNul path ∧
          e = .located (.ofNames path) .interiorNul := by
  have located (e) : d.encode = .error e ↔
      ∃ path, (Value.document d).FirstNul path ∧ e = .located (.ofNames path) .interiorNul := by
    rw [encode_eq_error_iff]
    have at' {path} (first : (Value.document d).FirstNul path) :
        (writePayload (.document d)).written = .error (.located (.ofNames path) .interiorNul) := by
      rw [payload_of_firstNul first small, Fault.under_of_named (first.named named)]
    constructor
    · intro failed
      have zero : ¬ (Value.document d).nulFree := by
        intro free
        obtain ⟨out, done⟩ := exists_written free small
        rw [done] at failed
        cases failed
      obtain ⟨path, first⟩ := Value.exists_firstNul zero
      rw [at' first] at failed
      injection failed with failed
      exact ⟨path, first, failed.symm⟩
    · rintro ⟨path, first, rfl⟩
      exact at' first
  refine ⟨?_, located⟩
  constructor
  · rintro ⟨e, failed⟩
    obtain ⟨path, first, -⟩ := (located e).1 failed
    exact first.not_nulFree
  · intro zero
    obtain ⟨path, first⟩ := Value.exists_firstNul zero
    exact ⟨_, (located _).2 ⟨path, first, rfl⟩⟩

/-- the options of an expression in a scope in an array, behind a text that may hold a zero byte -/
theorem encode_error_iff_scope_in_array :
    let d : Document := [("s", .string "a\x00"),
      ("x", .array [.null, .codeWithScope "f" [("r", .regex ⟨"a", "\x00"⟩)]])]
    (Value.document d).named ∧ (Value.document d).wireSize < 2 ^ 31 ∧
      d.encode = .error (.located (.ofNames ["x", "1", "Scope", "r"]) .interiorNul) := by
  intro d
  have named : (Value.document d).named := by decide
  have small : (Value.document d).wireSize < 2 ^ 31 := by decide
  let scope : Value := .codeWithScope "f" [("r", .regex ⟨"a", "\x00"⟩)]
  -- from the expression outwards: the scope, the array, the document
  have first : (Value.regex ⟨"a", "\x00"⟩).FirstNul [] := .regex (.inr (by decide))
  have first : scope.FirstNul ["Scope", "r"] :=
    @Value.FirstNul.inside _ _ ["Scope"] [] [] "r" [] rfl (List.forall_mem_nil _) (by decide) first
  have first : (Value.array [.null, scope]).FirstNul ["1", "Scope", "r"] :=
    @Value.FirstNul.inside _ _ [] [("0", .null)] [] "1" _ rfl (by decide) (by decide) first
  have first : (Value.document d).FirstNul ["x", "1", "Scope", "r"] :=
    @Value.FirstNul.inside _ _ [] [("s", .string "a\x00")] [] "x" _ rfl (by decide) (by decide) first
  exact ⟨named, small, ((encode_error_iff named small).2 _).2 ⟨_, first, rfl⟩⟩

end Document

end Bson
