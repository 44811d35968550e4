import Bson.Config
import Bson.Json.Printer

/-!
# The configuration as JSON

* `Config.ofJson?`   the configuration of a JSON object: absent settings have their standard values,
                     unknown members are passed over. An array stands for the settings in order, of
                     which any number at the end may be missing;
* `Config.toJson`    the object with all settings.

Sizes are naturals of 64 bits; the array order goes by its name, alone or as the only member of an
object, with null.
-/

namespace Bson

def ArrayOrder.name : ArrayOrder → String
  | .numeric => "numeric"
  | .lexicographic => "lexicographic"

def ArrayOrder.ofName? (name : String) : Option ArrayOrder :=
  [ArrayOrder.numeric, .lexicographic].find? fun order => order.name == name

def ArrayOrder.ofJson? : Json → Option ArrayOrder
  | .string name => ofName? name
  | .object [(name, .null)] => ofName? name
  | _ => none

namespace Config

def sizeOfJson? : Json → Option Nat
  | .number (.natural n) => some n.toNat
  | _ => none

/-- the configuration with one setting from JSON; an unknown name changes nothing -/
def readSetting (config : Config) (name : String) (j : Json) : Option Config :=
  match name with
  | "max_document_size" => (sizeOfJson? j).map fun n => { config with maxDocumentSize := n }
  | "max_nesting_depth" => (sizeOfJson? j).map fun n => { config with maxNestingDepth := n }
  | "array_index_order" => (ArrayOrder.ofJson? j).map fun o => { config with arrayOrder := o }
  | _ => some config

def settingNames : List String := ["max_document_size", "max_nesting_depth", "array_index_order"]

def readSettings (config : Config) (members : Fields Json) : Option Config :=
  members.foldlM (fun config (name, j) => config.readSetting name j) config

def ofJson? : Json → Option Config
  | .object members => standard.readSettings members
  | .array items =>
    if items.length ≤ settingNames.length then standard.readSettings (settingNames.zip items)
    else none
  | _ => none

def toJson (config : Config) : Json :=
  .object [("max_document_size", .number (.ofNat config.maxDocumentSize)),
    ("max_nesting_depth", .number (.ofNat config.maxNestingDepth)),
    ("array_index_order", .string config.arrayOrder.name)]

end Config

end Bson
