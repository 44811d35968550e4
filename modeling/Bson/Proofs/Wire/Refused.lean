import Bson.Proofs.Wire.Failures
import Bson.Proofs.Wire.Unambiguous

/-!
# Violations are refused

The converse of the way from an error to a violation: bytes with a violation of the grammar are not
read, and they have one violation, to which one list of names leads.

* `Grammar.Encloses.unique`, `Grammar.IsPayload.encloses`  a container encloses one document, which
                        is one of the grammar if the container is accepted;
* `Reader.WrongAt.not_acceptable`, `Reader.WrongAt.unique`  what is wrong behind a tag is no payload,
                        and is so for one reason;
* `rest_of_elements`    so elements that are accepted stand in front of the violation;
* `Grammar.WrongInput.unique`, `Config.decode_fails_at_violation`  decoding fails exactly at the
                        violations, with an error of shape whose path, if it has one, leads there.
-/

namespace Bson

open Grammar

variable {order : ArrayOrder} {levels : Nat} {nesting : Nesting}

namespace Grammar

/-! ### containers -/

/-- the scope of code is known from the length, the text and the scope in front -/
theorem Encloses.scope_eq {w cs bs rest ds input : Bytes} {segments : List String} {code : String}
    (h : Encloses .codeWithScope input segments ds) (hw : w.length = 4) (hs : IsString cs code)
    (hd : Delimited bs) (same : input = w ++ (cs ++ (bs ++ rest))) : ds = bs := by
  cases h with
  | codeWithScope hw' _ hs' hd' =>
    obtain ⟨-, texts⟩ := List.append_inj same (hw'.trans hw.symm)
    obtain ⟨-, -, documents⟩ := Reader.accepts_string.unique hs' hs texts
    exact (Reader.accepts_documentBytes.unique ⟨hd', rfl⟩ ⟨hd, rfl⟩ documents).1

theorem Encloses.unique {t : ElementType} {bs bs' cs cs' : Bytes} {segments segments' : List String}
    (h : Encloses t bs segments cs) (h' : Encloses t bs' segments' cs') (same : bs = bs') :
    segments = segments' ∧ cs = cs' := by
  cases h with
  | embeddedDocument hd =>
    cases h' with
    | embeddedDocument hd' =>
      exact ⟨rfl, (Reader.accepts_documentBytes.unique ⟨hd, rfl⟩ ⟨hd', rfl⟩ same).1⟩
  | array hd =>
    cases h' with
    | array hd' => exact ⟨rfl, (Reader.accepts_documentBytes.unique ⟨hd, rfl⟩ ⟨hd', rfl⟩ same).1⟩
  | codeWithScope hw large hs hd =>
    cases h' with
    | codeWithScope hw' _ hs' hd' =>
      exact ⟨rfl, (Encloses.codeWithScope hw large hs hd).scope_eq hw' hs' hd' same⟩

theorem IsPayload.encloses {t : ElementType} {bs : Bytes} {v : Value}
    (isContainer : t.isContainer = true) (h : IsPayload order t bs v) (rest : Bytes) :
    ∃ segments cs fs, Encloses t (bs ++ rest) segments cs ∧ IsDocument order cs fs ∧
      ∀ levels, v.depth ≤ levels → Document.depth fs ≤ levels := by
  cases h with
  | scalar h => cases h <;> cases isContainer
  | @embeddedDocument _ fs hdoc =>
    exact ⟨[], bs, fs, .embeddedDocument hdoc.delimited, hdoc, fun _ => id⟩
  | @array _ fs gs hdoc hgs =>
    exact ⟨[], bs, fs, .array hdoc.delimited, hdoc,
      fun _ => (Value.depth_array_le_of_perm hgs.perm).1⟩
  | @codeWithScope w text cs code scope hw hs hdoc =>
    have large : 8 + (Reader.smallestDocument : Int) ≤ (Bytes.toInt32 w).toInt := by
      have h1 := hs.length_le
      have h2 := hdoc.delimited.1
      rw [hw.2]
      omega
    refine ⟨["Scope"], cs, scope, ?_, hdoc, fun _ => id⟩
    rw [List.append_assoc, List.append_assoc]
    exact .codeWithScope hw.1 large hs hdoc.delimited

/-! ### payloads -/

theorem isRead_of_acceptable {t : ElementType} {bs : Bytes} {v : Value} (enters : nesting.Enters t)
    (h : Acceptable order levels nesting t bs v) : IsRead order levels t bs v := by
  cases nesting with
  | nested => exact h
  | noNest =>
    have other : t ≠ .embeddedDocument := enters.resolve_left nofun
    change IsUnread order levels t bs v at h
    rwa [IsUnread, if_neg other] at h

theorem isUnread_embeddedDocument {bs : Bytes} {v : Value} :
    IsUnread order levels .embeddedDocument bs v ↔ RawDocument.Framed ⟨bs⟩ ∧ v = .raw ⟨bs⟩ := by
  rw [IsUnread, if_pos rfl]

theorem encloses_of_acceptable {t : ElementType} {bs : Bytes} {v : Value}
    (isContainer : t.isContainer = true) (h : Acceptable order levels nesting t bs v)
    (rest : Bytes) : ∃ segments cs, Encloses t (bs ++ rest) segments cs := by
  by_cases enters : nesting.Enters t
  · obtain ⟨segments, cs, -, encloses, -⟩ :=
      (isRead_of_acceptable enters h).1.encloses isContainer rest
    exact ⟨segments, cs, encloses⟩
  · obtain ⟨flat, embedded⟩ := not_or.1 enters
    obtain rfl := Decidable.of_not_not embedded
    cases nesting with
    | nested => exact absurd rfl flat
    | noNest =>
      obtain ⟨framed, -⟩ := isUnread_embeddedDocument.1 h
      exact ⟨[], bs, .embeddedDocument (delimited_of_framed framed)⟩

/-- what is wrong behind a tag is no payload that is accepted -/
theorem WrongPayload.not_acceptable {tag : UInt8} {input : Bytes}
    (wrong : WrongPayload order levels nesting tag input) {t : ElementType} {bs rest : Bytes}
    {v : Value} (tags : t.tag = tag) (split : input = bs ++ rest) :
    ¬ Acceptable order levels nesting t bs v := by
  intro accepted
  cases wrong with
  | unknown unknown => exact unknown t tags
  | scalar ht none =>
    obtain rfl := tag_inj tags
    have other : t ≠ .embeddedDocument := by
      rintro rfl
      cases ht
    have read := isRead_of_acceptable (.inr other) accepted
    exact none bs rest v split ((isPayload_iff_of_scalar ht).1 read.1)
  | frame ht none =>
    obtain rfl := tag_inj tags
    obtain ⟨segments, cs, encloses⟩ := encloses_of_acceptable ht accepted rest
    exact none segments cs (split ▸ encloses)
  | @span w text ds behind code scope hw hs hdoc _ differ =>
    obtain rfl : t = .codeWithScope := tag_inj tags
    have other : ElementType.codeWithScope ≠ .embeddedDocument := by decide
    have read := (isRead_of_acceptable (.inr other) accepted).1
    cases read with
    | scalar h => cases h
    | @codeWithScope w' text' ds' code' scope' hw' hs' hdoc' =>
      simp only [List.append_assoc] at split
      obtain ⟨rfl, texts⟩ := List.append_inj split (hw.trans hw'.1.symm)
      obtain ⟨rfl, -, documents⟩ := Reader.accepts_string.unique hs hs' texts
      obtain ⟨rfl, -, -⟩ := Reader.accepts_documentBytes.unique ⟨hdoc.delimited, rfl⟩
        ⟨hdoc'.delimited, rfl⟩ documents
      refine differ ?_
      rw [hw'.2, List.length_append, List.length_append, hw, Nat.add_assoc]
  | @terminator ds behind left delimited last =>
    obtain rfl : t = .embeddedDocument := tag_inj tags
    subst left
    obtain ⟨framed, -⟩ := isUnread_embeddedDocument.1 accepted
    obtain ⟨delimited', last'⟩ := framed_iff.1 framed
    obtain ⟨rfl, -, -⟩ := Reader.accepts_documentBytes.unique ⟨delimited, rfl⟩
      ⟨delimited', rfl⟩ split
    exact last last'

end Grammar

/-- containers one level down are read as the grammar has them, and those with a violation are not,
of which each has one -/
structure Reader.Decides (order : ArrayOrder) (levels : Nat) (inner : Contents) : Prop
    extends Reader.Reads order levels inner where
  refused : ∀ bs names, WrongContainer order levels bs names → ∀ fs, inner .document bs ≠ .ok fs
  unique : ∀ bs names names', WrongContainer order levels bs names →
    WrongContainer order levels bs names' → names = names'

variable {inner : Contents}

theorem Reader.WrongAt.not_acceptable (h : Reader.Decides order levels inner) {tag : UInt8}
    {input : Bytes} {names : List String} (wrong : WrongAt order levels nesting tag input names)
    {t : ElementType} {bs rest : Bytes} {v : Value} (tags : t.tag = tag)
    (split : input = bs ++ rest) : ¬ Acceptable order levels nesting t bs v := by
  rcases wrong with ⟨-, wrong⟩ | ⟨t', segments, cs, path, rfl, encloses, enters, wrong, -⟩
  · exact wrong.not_acceptable tags split
  · intro accepted
    obtain rfl := tag_inj tags
    have isContainer : t.isContainer = true := by cases encloses <;> rfl
    obtain ⟨read, depth⟩ := isRead_of_acceptable enters accepted
    obtain ⟨_, _, fs, encloses', hdoc, shallow⟩ := read.encloses isContainer rest
    obtain ⟨-, rfl⟩ := encloses'.unique encloses split.symm
    exact h.refused _ _ wrong fs ((h.accepted _ _ hdoc.delimited).2 ⟨hdoc, shallow _ depth⟩)

theorem Grammar.Encloses.not_wrongPayload (h : Reader.Decides order levels inner)
    {t : ElementType} {input cs : Bytes} {segments names : List String}
    (encloses : Encloses t input segments cs) (enters : nesting.Enters t)
    (container : WrongContainer order levels cs names) :
    ¬ WrongPayload order levels nesting t.tag input := by
  intro own
  have isContainer : t.isContainer = true := by cases encloses <;> rfl
  generalize tags : t.tag = tag at own
  cases own with
  | unknown unknown => exact unknown t tags
  | scalar scalar =>
    obtain rfl := tag_inj tags
    rw [isContainer] at scalar
    cases scalar
  | frame _ none =>
    obtain rfl := tag_inj tags
    exact none _ _ encloses
  | span hw hs hdoc shallow =>
    obtain rfl : t = .codeWithScope := tag_inj tags
    obtain rfl := encloses.scope_eq hw hs hdoc.delimited rfl
    exact h.refused _ _ container _ ((h.accepted _ _ hdoc.delimited).2 ⟨hdoc, shallow⟩)
  | terminator left =>
    obtain rfl : t = .embeddedDocument := tag_inj tags
    subst left
    rcases enters with ⟨⟨⟩⟩ | other
    exact other rfl

theorem Reader.WrongAt.unique (h : Reader.Decides order levels inner) {tag : UInt8} {input : Bytes}
    {names names' : List String} (wrong : WrongAt order levels nesting tag input names)
    (wrong' : WrongAt order levels nesting tag input names') : names = names' := by
  rcases wrong with ⟨rfl, own⟩ | ⟨t, segments, cs, path, rfl, encloses, enters, container, rfl⟩
  · rcases wrong' with ⟨rfl, -⟩ | ⟨t, segments, cs, path, rfl, encloses, enters, container, -⟩
    · rfl
    · exact absurd own (encloses.not_wrongPayload h enters container)
  · rcases wrong' with ⟨-, own⟩ | ⟨t', segments', cs', path', tags, encloses', -, container', rfl⟩
    · exact absurd own (encloses.not_wrongPayload h enters container)
    · obtain rfl := tag_inj tags
      obtain ⟨rfl, rfl⟩ := encloses.unique encloses' rfl
      rw [h.unique _ _ _ container container']

/-! ### elements -/

theorem Grammar.Stuck.ne_tagged {rest bs : Bytes} (stuck : Stuck rest) {tag : UInt8} {name : String}
    (tagged : tag ≠ 0) (free : 0 ∉ utf8 name) : rest ≠ tag :: ((utf8 name ++ [0]) ++ bs) := by
  intro same
  cases stuck with
  | ended => cases same
  | afterTerminator => exact tagged (List.cons.inj same).1.symm
  | name _ nameless => exact nameless _ _ _ (List.cons.inj same).2 (.mk free)

/-- where elements halt, none that is accepted goes on -/
theorem Halts.not_begins (h : Reader.Decides order levels inner) {rest left : Bytes}
    {names : List String} (halts : Halts (Reader.WrongAt order levels nesting) rest names)
    {e : Element} (has : e.Has (Acceptable order levels nesting)) : rest ≠ e.bytes ++ left := by
  rw [Element.bytes_append]
  cases halts with
  | stuck stuck => exact stuck.ne_tagged e.type.tag_ne_zero has.1
  | payload tagged free wrong =>
    intro begins
    obtain ⟨tags, behind⟩ := List.cons.inj begins
    obtain ⟨-, -, split⟩ := Reader.accepts_cstring.unique (.mk free) (.mk has.1) behind
    exact wrong.not_acceptable h tags.symm split has.2

theorem Halts.ne_last {wrong : UInt8 → Bytes → List String → Prop} {rest : Bytes}
    {names : List String} (halts : Halts wrong rest names) : rest ≠ [0] := by
  intro last
  cases halts with
  | stuck stuck =>
    cases stuck with
    | ended => cases last
    | afterTerminator more => exact more (List.cons.inj last).2
    | name tagged => exact tagged (List.cons.inj last).1
  | payload tagged => exact tagged (List.cons.inj last).1

theorem Halts.unique (h : Reader.Decides order levels inner) {rest rest' : Bytes}
    {names names' : List String}
    (halts : Halts (Reader.WrongAt order levels nesting) rest names)
    (halts' : Halts (Reader.WrongAt order levels nesting) rest' names') (same : rest = rest') :
    names = names' := by
  cases halts with
  | stuck stuck =>
    cases halts' with
    | stuck => rfl
    | payload tagged free => exact absurd same (stuck.ne_tagged tagged free)
  | payload tagged free wrong =>
    cases halts' with
    | stuck stuck => exact absurd same.symm (stuck.ne_tagged tagged free)
    | payload _ free' wrong' =>
      obtain ⟨rfl, behind⟩ := List.cons.inj same
      obtain ⟨-, rfl, rfl⟩ := Reader.accepts_cstring.unique (.mk free) (.mk free') behind
      rw [wrong.unique h wrong']

/-- elements that are accepted are those up to where they halt, or the first of them -/
theorem rest_of_elements (h : Reader.Decides order levels inner) {es es' : List Element}
    {rest rest' : Bytes} {names : List String}
    (has : ∀ e ∈ es, e.Has (Acceptable order levels nesting))
    (halts : Halts (Reader.WrongAt order levels nesting) rest names)
    (has' : ∀ e ∈ es', e.Has (Acceptable order levels nesting))
    (same : es.flatMap Element.bytes ++ rest = es'.flatMap Element.bytes ++ rest') :
    ∃ more : List Element, (∀ e ∈ more, e.Has (Acceptable order levels nesting)) ∧
      rest' = more.flatMap Element.bytes ++ rest := by
  induction es' generalizing es with
  | nil => exact ⟨es, has, same.symm⟩
  | cons e' es' ih =>
    obtain ⟨here', has'⟩ := List.forall_mem_cons.1 has'
    rw [List.flatMap_cons, List.append_assoc] at same
    cases es with
    | nil => exact absurd same (halts.not_begins h here')
    | cons e es =>
      obtain ⟨here, has⟩ := List.forall_mem_cons.1 has
      rw [List.flatMap_cons, List.append_assoc, Element.bytes_append, Element.bytes_append] at same
      obtain ⟨tags, behind⟩ := List.cons.inj same
      obtain ⟨-, -, payloads⟩ := Reader.accepts_cstring.unique (.mk here.1) (.mk here'.1) behind
      have payload (t : ElementType) : (readPayload order .document nesting inner t).Accepts _ :=
        Reader.accepts_acceptable h.toReads t
      obtain ⟨-, -, behind⟩ := (payload e.type).unique here.2 (tag_inj tags ▸ here'.2) payloads
      exact ih has has' behind

theorem Grammar.WrongElements.not_read (h : Reader.Decides order levels inner) {body : Bytes}
    {names : List String} (wrong : WrongElements order levels nesting body names)
    (fs : Fields Value) : elementsOf (readTagged order .document nesting inner) body ≠ .ok fs := by
  intro read
  obtain ⟨es', rfl, -, has'⟩ :=
    (elementsOf_eq_ok_iff (Reader.accepts_tagged_acceptable h.toReads)).1 read
  obtain ⟨es, rest, has, same, halts⟩ := wrongElements_iff.1 wrong
  obtain ⟨more, -, last⟩ := rest_of_elements h has halts has' same.symm
  cases more with
  | nil => exact halts.ne_last last.symm
  | cons e more =>
    rw [Element.flatMap_bytes_cons] at last
    exact e.type.tag_ne_zero (List.cons.inj last).1.symm

theorem Grammar.WrongElements.unique (h : Reader.Decides order levels inner) {body : Bytes}
    {names names' : List String}
    (wrong : WrongElements order levels nesting body names)
    (wrong' : WrongElements order levels nesting body names') : names = names' := by
  obtain ⟨es, rest, has, rfl, halts⟩ := wrongElements_iff.1 wrong
  obtain ⟨es', rest', has', same, halts'⟩ := wrongElements_iff.1 wrong'
  obtain ⟨more, hasMore, split⟩ := rest_of_elements h has halts has' same
  cases more with
  | nil => exact halts.unique h halts' split.symm
  | cons e more =>
    rw [List.flatMap_cons, List.append_assoc] at split
    exact absurd split (halts'.not_begins h (hasMore e (List.mem_cons_self ..)))

theorem decides_contents (config : Config) (levels : Nat) :
    Reader.Decides config.arrayOrder levels (contents config levels) := by
  induction levels with
  | zero =>
    refine ⟨reads_contents config 0, fun bs names wrong fs read => ?_,
      fun bs names names' wrong wrong' => ?_⟩
    · cases read
    · cases wrong
      cases wrong'
      rfl
  | succ levels ih =>
    refine ⟨reads_contents config (levels + 1), fun bs names wrong fs => ?_,
      fun bs names names' wrong wrong' => ?_⟩
    · cases wrong with
      | elements wrong => exact wrong.not_read ih fs
    · cases wrong with
      | elements wrong =>
        cases wrong' with
        | elements wrong' => exact wrong.unique ih wrong'

/-! ### whole inputs -/

theorem Grammar.WrongInput.unique {config : Config} {bs : Bytes} {names names' : List String}
    (wrong : WrongInput config nesting bs names) (wrong' : WrongInput config nesting bs names') :
    names = names' := by
  cases wrong with
  | front none =>
    cases wrong' with
    | front => rfl
    | elements prefixed delimited fits =>
      exact absurd (none _ prefixed delimited) (Nat.not_lt.2 fits)
  | elements prefixed delimited fits wrong =>
    cases wrong' with
    | front none => exact absurd (none _ prefixed delimited) (Nat.not_lt.2 fits)
    | elements prefixed' delimited' fits' wrong' =>
      have taken := front_eq_ok_iff.2 ⟨prefixed, delimited, fits⟩
      rw [front_eq_ok_iff.2 ⟨prefixed', delimited', fits'⟩] at taken
      cases taken
      exact wrong.unique (decides_contents config _) wrong'

namespace Config

variable {config : Config} {shape : Shape} {bs : Bytes}

theorem fields_of_wrongInput {names : List String} (wrong : WrongInput config nesting bs names)
    (fs : Fields Value) : config.fields .document nesting bs ≠ .ok fs := by
  intro read
  rw [fields_eq, Except.bind_eq_ok_iff] at read
  obtain ⟨p, taken, read⟩ := read
  cases wrong with
  | front none =>
    obtain ⟨prefixed, delimited, fits⟩ := front_eq_ok_iff.1 taken
    exact Nat.not_lt.2 fits (none p prefixed delimited)
  | elements prefixed delimited fits wrong =>
    rw [front_eq_ok_iff.2 ⟨prefixed, delimited, fits⟩] at taken
    cases taken
    exact wrong.not_read (decides_contents config _) fs read

theorem decode_fails_iff :
    (∃ e, config.decode shape nesting bs = .error e) ↔
      ∃ names, WrongInput config nesting bs names := by
  simp only [decode_eq_error_iff]
  constructor
  · rintro ⟨e, failed⟩
    rcases fields_error failed with ⟨names, -, -, -, wrong⟩ | ⟨wrong, -⟩
    · exact ⟨names, wrong⟩
    · exact ⟨[], wrong⟩
  · rintro ⟨names, wrong⟩
    cases result : config.fields .document nesting bs with
    | error e => exact ⟨e, rfl⟩
    | ok fs => exact absurd result (fields_of_wrongInput wrong fs)

/-- **Decoding fails exactly at the violations of the grammar**, whatever the configuration, the
shape and the nesting mode: with an error of shape, and never for a name that contains a zero byte.
A violation is reached in one way; an error with a path has the names that lead to it from the top,
behind elements that are accepted, joined by dots if none is empty. -/
theorem decode_fails_at_violation (config : Config) (shape : Shape) (nesting : Nesting)
    (bs : Bytes) :
    ((∃ e, config.decode shape nesting bs = .error e) ↔
      ∃ names, WrongInput config nesting bs names) ∧
    (∀ names names', WrongInput config nesting bs names → WrongInput config nesting bs names' →
      names = names') ∧
    ∀ e, config.decode shape nesting bs = .error e →
      e.kind = .shape ∧ (∀ path, e ≠ .located path .interiorNul) ∧
        ∀ path fault, e = .located path fault → ∃ names, WrongInput config nesting bs names ∧
          path = FieldPath.root.under names ∧
            ((∀ name ∈ names, name ≠ "") → path = .ofNames names) := by
  refine ⟨decode_fails_iff, fun _ _ => WrongInput.unique, fun e failed => ?_⟩
  rcases fields_error (decode_eq_error_iff.1 failed) with
    ⟨names, fault, rfl, reading, wrong⟩ | ⟨-, declared, rfl⟩
  · rw [Fault.error, Error.under_located]
    refine ⟨Fault.kind_of_ofReading reading, fun path same => ?_, fun path other same => ?_⟩
    · injection same with _ same
      rw [same] at reading
      cases reading
    · injection same with same
      refine ⟨names, wrong, same.symm, fun named => ?_⟩
      rw [← same, FieldPath.under_root named]
  · refine ⟨rfl, fun path same => ?_, fun path fault same => ?_⟩
    · cases same
    · cases same

/-- an unknown tag in the scope of code in an array, where embedded documents are left as bytes -/
theorem decode_fails_at_violation_in_scope :
    let bs : Bytes := [33, 0, 0, 0, 4, 97, 0, 25, 0, 0, 0, 15, 48, 0, 17, 0, 0, 0, 1, 0, 0, 0, 0,
      8, 0, 0, 0, 32, 98, 0, 0, 0, 0]
    let path : FieldPath := .ofNames ["a", "0", "Scope", "b"]
    let e : Error := .located path (.invalidElementType 32)
    Config.standard.decode .map .noNest bs = .error e ∧ e.kind = .shape ∧
      ∃ names, WrongInput .standard .noNest bs names ∧ path = FieldPath.root.under names := by
  intro bs path e
  have failed : Config.standard.decode .map .noNest bs = .error e := rfl
  obtain ⟨-, -, fails⟩ := decode_fails_at_violation .standard .map .noNest bs
  obtain ⟨kind, -, located⟩ := fails e failed
  obtain ⟨names, wrong, same, -⟩ := located path _ rfl
  exact ⟨failed, kind, names, wrong, same⟩

end Config

end Bson
