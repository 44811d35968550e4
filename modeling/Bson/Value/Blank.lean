import Bson.Value

/-!
# Blank values

`isBlank` holds of the zero or empty value of a type: zero, false, an empty text, list or map, and
an absent option. Of the values of the wire format, null and undefined are blank too, while dates,
identifiers, code and the rest never are. A record leaves a field out when its value is blank.
-/

namespace Bson

/-- types with a notion of the blank value -/
class Blank (α : Type) where
  isBlank : α → Bool

export Blank (isBlank)

instance : Blank Bool := ⟨fun b => !b⟩

instance : Blank Int := ⟨fun n => n == 0⟩

instance : Blank Int32 := ⟨fun n => n == 0⟩

instance : Blank Int64 := ⟨fun n => n == 0⟩

instance : Blank Double := ⟨Double.isZero⟩

instance : Blank String := ⟨fun s => s == ""⟩

instance {α : Type} : Blank (List α) := ⟨List.isEmpty⟩

instance {α : Type} : Blank (Option α) := ⟨Option.isNone⟩

/-- the blank values of the wire format -/
def Value.blank : Value → Bool
  | .null | .undefined => true
  | .boolean b => isBlank b
  | .int32 n => isBlank n
  | .int64 n => isBlank n
  | .double d => isBlank d
  | .string s => isBlank s
  | .binary bs => isBlank bs
  | .array items => isBlank items
  | .document fs | .map fs => isBlank fs
  | _ => false

instance : Blank Value := ⟨Value.blank⟩

end Bson
