import CommandText.Json.Basic

/-!
# Schema definitions

A schema is defined by a JSON value: enums with their literals, and classes with their features.
Each record of the definition may be written as an object or as an array of its fields in order.
-/

namespace CommandText

/-- What a feature is defined to hold. -/
inductive FeatureSort
  | string
  | integer
  | float
  | boolean
  | any
  | enum
  | reference
  | containment
deriving DecidableEq, Repr

structure EnumDefinition where
  name : String
  literals : List String
deriving Repr

structure FeatureDefinition where
  name : String
  sort : FeatureSort
  /-- The enum of an enum feature, the class of a reference or containment. -/
  target : Option String := none
  many : Bool := false
  default : Option Json := none
  unquoted : Bool := false
  /-- Children in this containment always need a role label. -/
  labeled : Bool := false
deriving Repr

structure ClassDefinition where
  name : String
  /-- The command word; without one, the last part of the name is it. -/
  command : Option String := none
  isAbstract : Bool := false
  root : Bool := true
  supertypes : List String := []
  /-- The arguments that are given by position. -/
  unlabeled : Option (List String) := none
  /-- The attribute that stands for references to the element. -/
  backward : Option String := none
  features : List FeatureDefinition := []
deriving Repr

structure SchemaDefinition where
  pattern : Option String := none
  generics : Bool := false
  lineAttribute : Option String := none
  fileAttribute : Option String := none
  fragmentAttribute : Option String := none
  enums : List EnumDefinition := []
  classes : List ClassDefinition := []
deriving Repr

/-! ### Decoding -/

namespace Json

/-- The fields of a record in the order of its keys. An object may hold other keys too, as long as
they are text, but none of these twice; an array holds the fields themselves and may stop early. -/
def record? (keys : List String) : Json → Option (List (Option Json))
  | object fields =>
    if fields.all (·.1.isSome) then
      keys.mapM fun key =>
        match fields.filter (·.1 = some key) with
        | [] => some none
        | [field] => some (some field.2)
        | _ => none
    else none
  | array items =>
    if items.length ≤ keys.length then
      some (items.map some ++ List.replicate (keys.length - items.length) none)
    else none
  | _ => none

def toString? : Json → Option String
  | string text => text
  | _ => none

def toBool? : Json → Option Bool
  | bool b => some b
  | _ => none

def toList? {α : Type} (item : Json → Option α) : Json → Option (List α)
  | array items => items.mapM item
  | _ => none

/-- A field that has to be there. -/
def required {α : Type} (read : Json → Option α) (field : Option Json) : Option α :=
  field.bind read

/-- A field with a value of its own if it is not there. -/
def defaulted {α : Type} (absent : α) (read : Json → Option α) : Option Json → Option α
  | none => some absent
  | some value => read value

/-- A field that may be missing or null. -/
def optional {α : Type} (read : Json → Option α) : Option Json → Option (Option α)
  | none | some null => some none
  | some value => (read value).map some

mutual

def depth : Json → Nat
  | array items => depthItems items + 1
  | object fields => depthFields fields + 1
  | _ => 0

def depthItems : List Json → Nat
  | [] => 0
  | item :: items => max item.depth (depthItems items)

def depthFields : List (JsonText × Json) → Nat
  | [] => 0
  | (_, value) :: fields => max value.depth (depthFields fields)

end

mutual

/-- Whether every number is in range, and every string and key is text. -/
def isSound : Json → Bool
  | number l => l.value?.isSome
  | string text => text.isSome
  | array items => areSoundItems items
  | object fields => areSoundFields fields
  | _ => true

def areSoundItems : List Json → Bool
  | [] => true
  | item :: items => item.isSound && areSoundItems items

def areSoundFields : List (JsonText × Json) → Bool
  | [] => true
  | (key, value) :: fields => key.isSome && value.isSound && areSoundFields fields

end

end Json

open Json

/-- How deeply a default value may be nested, so that the whole definition is nested less than 128
times. -/
def maxDefaultDepth : Nat := 122

/-- Any value, with its numbers in range and its strings text, and not nested too deeply. -/
def readDefault (value : Json) : Option Json :=
  if value.isSound && value.depth ≤ maxDefaultDepth then some value else none

namespace FeatureSort

def words : List (String × FeatureSort) := [("string", string), ("integer", integer),
  ("float", float), ("boolean", boolean), ("any", any), ("enum", enum), ("reference", reference),
  ("containment", containment)]

/-- A word, alone or as the only key of an object with a null in it. -/
def ofJson? : Json → Option FeatureSort
  | .string (some word) => words.lookup word
  | .object [(some word, .null)] => words.lookup word
  | _ => none

end FeatureSort

def EnumDefinition.ofJson? (value : Json) : Option EnumDefinition := do
  match ← value.record? ["name", "literals"] with
  | [name, literals] =>
    some ⟨← required toString? name, ← required (toList? toString?) literals⟩
  | _ => none

def FeatureDefinition.ofJson? (value : Json) : Option FeatureDefinition := do
  match ← value.record? ["name", "kind", "target", "many", "default", "unquoted", "labeled"] with
  | [name, sort, target, many, default, unquoted, labeled] =>
    some ⟨← required toString? name, ← required FeatureSort.ofJson? sort,
      ← optional toString? target, ← defaulted false toBool? many,
      ← optional readDefault default, ← defaulted false toBool? unquoted,
      ← defaulted false toBool? labeled⟩
  | _ => none

def ClassDefinition.ofJson? (value : Json) : Option ClassDefinition := do
  match ← value.record? ["name", "command", "abstract", "root", "supertypes", "unlabeled",
    "backward_reference", "features"] with
  | [name, command, isAbstract, root, supertypes, unlabeled, backward, features] =>
    some ⟨← required toString? name, ← optional toString? command,
      ← defaulted false toBool? isAbstract, ← defaulted true toBool? root,
      ← defaulted [] (toList? toString?) supertypes, ← optional (toList? toString?) unlabeled,
      ← optional toString? backward,
      ← defaulted [] (toList? FeatureDefinition.ofJson?) features⟩
  | _ => none

def SchemaDefinition.ofJson? (value : Json) : Option SchemaDefinition := do
  match ← value.record? ["reference_pattern", "enable_generics", "line_number_attribute",
    "file_name_attribute", "fragment_ref_attribute", "enums", "classes"] with
  | [pattern, generics, lineAttribute, fileAttribute, fragmentAttribute, enums, classes] =>
    some ⟨← optional toString? pattern, ← defaulted false toBool? generics,
      ← optional toString? lineAttribute, ← optional toString? fileAttribute,
      ← optional toString? fragmentAttribute,
      ← defaulted [] (toList? EnumDefinition.ofJson?) enums,
      ← defaulted [] (toList? ClassDefinition.ofJson?) classes⟩
  | _ => none

end CommandText
