import Bson.Value
import Bson.Wire.Reader

/-!
# Bytes with the frame of a document

`declaredLength` is the length that a document declares, if a document may have it under a ceiling.
`RawDocument.ofBytes` accepts bytes that have the frame of a document, whatever stands inside: at
least five bytes, a length in front that is the true one, and a zero byte at the end. `Framed` says
the same of a raw document.
-/

namespace Bson

/-- the length that a document declares: not below the smallest one, nor above the ceiling -/
def declaredLength (ceiling : Nat) (n : Int32) : Except Error Nat :=
  if n.toInt < Reader.smallestDocument then .error (Fault.invalidLength n.toInt).error
  else if ceiling < n.toInt.toNat then .error (.documentTooLarge n.toInt.toNat ceiling)
  else .ok n.toInt.toNat

namespace RawDocument

/-- the bytes of a document, if length and terminator are right -/
def ofBytes (bs : Bytes) : Except Error RawDocument :=
  if bs.length < Reader.smallestDocument then .error Fault.unexpectedEof.error
  else
    let declared := (Bytes.toInt32 (bs.take 4)).toInt
    if declared ≠ bs.length then .error (Fault.invalidLength declared).error
    else if bs.getLast? ≠ some 0 then
      .error (Fault.invalidDocument .missingTerminator).error
    else .ok ⟨bs⟩

/-- at least five bytes, the true length in front, a zero byte at the end -/
def Framed (doc : RawDocument) : Prop :=
  Reader.smallestDocument ≤ doc.bytes.length ∧
    (Bytes.toInt32 (doc.bytes.take 4)).toInt = doc.bytes.length ∧ doc.bytes.getLast? = some 0

instance (doc : RawDocument) : Decidable doc.Framed := inferInstanceAs (Decidable (_ ∧ _ ∧ _))

def isEmpty (doc : RawDocument) : Bool := doc.bytes.length ≤ Reader.smallestDocument

theorem ofBytes_eq_ok_iff {bs : Bytes} {doc : RawDocument} :
    ofBytes bs = .ok doc ↔ doc = ⟨bs⟩ ∧ doc.Framed := by
  unfold ofBytes Framed
  constructor
  · intro h
    by_cases h₁ : bs.length < Reader.smallestDocument
    · simp [h₁] at h
    · by_cases h₂ : (Bytes.toInt32 (bs.take 4)).toInt ≠ bs.length
      · simp [h₁, h₂] at h
      · by_cases h₃ : bs.getLast? ≠ some 0
        · simp [h₁, h₂, h₃] at h
        · simp only [h₁, h₂, h₃, if_false] at h
          injection h with h
          subst h
          exact ⟨rfl, Nat.le_of_not_lt h₁, Decidable.of_not_not h₂, Decidable.of_not_not h₃⟩
  · rintro ⟨rfl, h₁, h₂, h₃⟩
    simp [h₂, h₃, Nat.not_lt.2 h₁]

end RawDocument

end Bson
