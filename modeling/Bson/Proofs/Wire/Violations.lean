import Bson.Proofs.Wire.NoNest

/-!
# Where bytes violate the grammar

Bytes that are no document are read from the front as long as there are elements to accept. What is
met then is the violation, which stands in the elements of a container somewhere inside, and has the
names on the way to it. It is said here of the bytes, without a reader:

* `Grammar.Acceptable`  the payloads that are accepted in a nesting mode;
* `Grammar.Encloses`    the bytes of a container in which its elements stand, and the segments that
                        lead to them from its name;
* `Grammar.Stuck`       bytes that go on with no element, and do not end the list properly;
* `Grammar.WrongPayload`  bytes that go on with no payload of a tag, for a reason of their own;
* `Grammar.WrongElements`, `Grammar.WrongContainer`  the elements of a document, or of a container
                        inside one, with the names from there to the violation;
* `Grammar.WrongInput`  a whole input, with the names from the top.
-/

namespace Bson

/-- whether the elements inside a payload are looked at -/
def Nesting.Enters (nesting : Nesting) (t : ElementType) : Prop :=
  nesting = .nested ∨ t ≠ .embeddedDocument

namespace Grammar

/-- a payload that is accepted in a nesting mode, where some levels may be entered -/
def Acceptable (order : ArrayOrder) (levels : Nat) : Nesting → ElementType → Bytes → Value → Prop
  | .nested => IsRead order levels
  | .noNest => IsUnread order levels

/-- the bytes begin with a container whose elements stand in bytes that declare their own number,
and the segments lead there -/
inductive Encloses : ElementType → Bytes → List String → Bytes → Prop
  | embeddedDocument {bs rest : Bytes} : Delimited bs →
      Encloses .embeddedDocument (bs ++ rest) [] bs
  | array {bs rest : Bytes} : Delimited bs → Encloses .array (bs ++ rest) [] bs
  | codeWithScope {w cs bs rest : Bytes} {code : String} : w.length = 4 →
      8 + (Reader.smallestDocument : Int) ≤ (Bytes.toInt32 w).toInt → IsString cs code →
      Delimited bs → Encloses .codeWithScope (w ++ (cs ++ (bs ++ rest))) ["Scope"] bs

theorem Encloses.front {t : ElementType} {bs cs : Bytes} {segments : List String}
    (other : t ≠ .codeWithScope) (h : Encloses t bs segments cs) :
    ∃ rest, bs = cs ++ rest ∧ Delimited cs := by
  cases h with
  | embeddedDocument delimited | array delimited => exact ⟨_, rfl, delimited⟩
  | codeWithScope => exact absurd rfl other

theorem Encloses.of_delimited {t : ElementType} {bs : Bytes} (isContainer : t.isContainer = true)
    (other : t ≠ .codeWithScope) (delimited : Delimited bs) (rest : Bytes) :
    Encloses t (bs ++ rest) [] bs := by
  cases t with
  | embeddedDocument => exact .embeddedDocument delimited
  | array => exact .array delimited
  | codeWithScope => exact absurd rfl other
  | _ => cases isContainer

/-- the bytes go on with no element, and do not end a list: they end without a terminator, go on
behind it, or have no name behind a tag -/
inductive Stuck : Bytes → Prop
  | ended : Stuck []
  | afterTerminator {rest : Bytes} : rest ≠ [] → Stuck (0 :: rest)
  | name {tag : UInt8} {rest : Bytes} : tag ≠ 0 →
      (∀ bs left name, rest = bs ++ left → ¬ IsName bs name) → Stuck (tag :: rest)

/-- the bytes behind a tag and a name go on with no payload, and no element inside is to blame: the
tag is unknown, a scalar is malformed or truncated, a container does not enclose its elements, code
does not span what it declares, or a document that is left as bytes has no terminator -/
inductive WrongPayload (order : ArrayOrder) (levels : Nat) (nesting : Nesting) :
    UInt8 → Bytes → Prop
  | unknown {tag : UInt8} {bs : Bytes} : (∀ t : ElementType, t.tag ≠ tag) →
      WrongPayload order levels nesting tag bs
  | scalar {t : ElementType} {bs : Bytes} : t.isContainer = false →
      (∀ cs rest v, bs = cs ++ rest → ¬ IsScalar t cs v) →
      WrongPayload order levels nesting t.tag bs
  | frame {t : ElementType} {bs : Bytes} : t.isContainer = true →
      (∀ segments cs, ¬ Encloses t bs segments cs) → WrongPayload order levels nesting t.tag bs
  | span {w cs bs rest : Bytes} {code : String} {scope : Fields Value} : w.length = 4 →
      IsString cs code → IsDocument order bs scope → Document.depth scope ≤ levels →
      (Bytes.toInt32 w).toInt ≠ (w ++ (cs ++ bs)).length →
      WrongPayload order levels nesting ElementType.codeWithScope.tag (w ++ (cs ++ (bs ++ rest)))
  | terminator {bs rest : Bytes} : nesting = .noNest → Delimited bs → bs.getLast? ≠ some 0 →
      WrongPayload order levels nesting ElementType.embeddedDocument.tag (bs ++ rest)

mutual

/-- the elements of a document, without its length, are accepted up to a violation, and the names
lead to it -/
inductive WrongElements (order : ArrayOrder) : Nat → Nesting → Bytes → List String → Prop
  | list {levels : Nat} {nesting : Nesting} {es : List Element} {rest : Bytes} :
      (∀ e ∈ es, e.Has (Acceptable order levels nesting)) → Stuck rest →
      WrongElements order levels nesting (es.flatMap Element.bytes ++ rest) []
  | payload {levels : Nat} {nesting : Nesting} {es : List Element} {tag : UInt8} {name : String}
      {bs : Bytes} : (∀ e ∈ es, e.Has (Acceptable order levels nesting)) → tag ≠ 0 →
      0 ∉ utf8 name → WrongPayload order levels nesting tag bs →
      WrongElements order levels nesting
        (es.flatMap Element.bytes ++ tag :: ((utf8 name ++ [0]) ++ bs)) [name]
  | inside {levels : Nat} {nesting : Nesting} {es : List Element} {t : ElementType} {name : String}
      {bs cs : Bytes} {segments names : List String} :
      (∀ e ∈ es, e.Has (Acceptable order levels nesting)) → 0 ∉ utf8 name →
      Encloses t bs segments cs → nesting.Enters t → WrongContainer order levels cs names →
      WrongElements order levels nesting
        (es.flatMap Element.bytes ++ t.tag :: ((utf8 name ++ [0]) ++ bs))
        (name :: (segments ++ names))

/-- a container inside a document nests too deeply, or its elements hold a violation -/
inductive WrongContainer (order : ArrayOrder) : Nat → Bytes → List String → Prop
  | tooDeep {bs : Bytes} : WrongContainer order 0 bs []
  | elements {levels : Nat} {bs : Bytes} {names : List String} :
      WrongElements order levels .nested (bs.drop 4) names →
      WrongContainer order (levels + 1) bs names

end

/-- no document under the ceiling stands in front of the input, or its elements hold a violation -/
inductive WrongInput (config : Config) (nesting : Nesting) (bs : Bytes) : List String → Prop
  | front : (∀ p, p <+: bs → Delimited p → config.maxDocumentSize < p.length) →
      WrongInput config nesting bs []
  | elements {p : Bytes} {names : List String} : p <+: bs → Delimited p →
      p.length ≤ config.maxDocumentSize →
      WrongElements config.arrayOrder (config.maxNestingDepth - 1) nesting (p.drop 4) names →
      WrongInput config nesting bs names

end Grammar

end Bson
