import Bson.Proofs.Value.Children
import Bson.Wire.Framed

/-!
# The frames of the bytes inside a value

* `Value.Holds`         bytes that were not read, anywhere inside a value;
* `Value.framed`        whether all of them have the frame of a document (`Value.framed_iff`).
-/

namespace Bson

namespace Value

/-- bytes that were not read stand somewhere in a value -/
inductive Holds (doc : RawDocument) : Value → Prop
  | raw : Holds doc (.raw doc)
  | inside {v w : Value} : w ∈ v.children → Holds doc w → Holds doc v

theorem holds_iff {doc : RawDocument} {v : Value} :
    Holds doc v ↔ v = raw doc ∨ ∃ w ∈ v.children, Holds doc w := by
  constructor
  · intro holds
    cases holds with
    | raw => exact .inl rfl
    | inside child holds => exact .inr ⟨_, child, holds⟩
  · rintro (rfl | ⟨w, child, holds⟩)
    · exact .raw
    · exact .inside child holds

/-- whether bytes that were not read have the frame of a document, wherever they stand in a value -/
def framed : Value → Bool :=
  everywhere fun
    | raw doc => decide doc.Framed
    | _ => true

theorem framed_raw_iff {doc : RawDocument} : (raw doc).framed ↔ doc.Framed := decide_eq_true_iff

theorem framed_of_child {v w : Value} (h : v.framed) (child : w ∈ v.children) : w.framed :=
  (everywhere_iff.1 h).2 w child

theorem framed_iff {v : Value} : v.framed ↔ ∀ doc, Holds doc v → doc.Framed := by
  constructor
  · intro framed doc holds
    induction holds with
    | raw => exact framed_raw_iff.1 framed
    | inside child _ ih => exact ih (framed_of_child framed child)
  · intro all
    induction v using childInduction with
    | step v ih =>
      refine everywhere_iff.2 ⟨?_, fun w child => ih w child fun doc holds => ?_⟩
      · cases v with
        | raw doc => exact decide_eq_true (all doc .raw)
        | _ => rfl
      · exact all doc (.inside child holds)

theorem framed_of_plain {v : Value} (plain : v.plain) : v.framed := by
  refine everywhere_imp (fun v here => ?_) plain
  cases v with
  | raw => cases here
  | _ => rfl

end Value

end Bson
