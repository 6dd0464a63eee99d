import CommandText.Json.Reader
import CommandText.Pattern.Parser
import CommandText.Schema.Basic
import CommandText.Schema.Definition
import CommandText.Schema.Error
import CommandText.Schema.Inheritance

/-!
# From a definition to a schema

A definition is checked step by step, and the first step that fails decides the error: the pattern,
repeated names of enums and classes, supertypes, inheritance, the targets of features, then what
each class inherits, and last the command words.
-/

namespace CommandText

/-! ### Names -/

/-- Fails at the first name that stands earlier in the list too. -/
def checkDistinct (error : String → SchemaError) : List String → List String →
    Except SchemaError Unit
  | _, [] => .ok ()
  | seen, name :: names =>
    if seen.contains name then .error (error name) else checkDistinct error (name :: seen) names

/-- What stands behind the last double colon. -/
def afterColons? : List Char → Option (List Char)
  | [] => none
  | c :: cs =>
    (afterColons? cs).or <|
      match c, cs with
      | ':', ':' :: rest => some rest
      | _, _ => none

/-- What stands behind the last dot. -/
def afterDot (cs : List Char) : List Char := (cs.reverse.takeWhile (· != '.')).reverse

/-- The last part of a qualified name. -/
def shortName (name : String) : String :=
  String.ofList (afterDot ((afterColons? name.toList).getD name.toList))

namespace ClassDefinition

def commandWord (c : ClassDefinition) : String := c.command.getD (shortName c.name)

end ClassDefinition

namespace SchemaDefinition

variable (d : SchemaDefinition)

def classNamed? (name : String) : Option ClassId := d.classes.findIdx? (·.name == name)

def enumNamed? (name : String) : Option EnumId := d.enums.findIdx? (·.name == name)

/-- The class of a name that someone refers to. -/
def findClass (user name : String) : Except SchemaError ClassId :=
  match d.classNamed? name with
  | some c => .ok c
  | none => .error (.unknownClass name user)

def resolveSupertypes : Except SchemaError (List (List ClassId)) :=
  d.classes.mapM fun c => c.supertypes.mapM (d.findClass c.name)

/-- The inheritance order, with the name of a class on a cycle in place of its number. -/
def order (supertypes : List (List ClassId)) : Except SchemaError (List ClassId) :=
  match inheritanceOrder supertypes with
  | .ok order => .ok order
  | .error c => .error (.cyclicInheritance ((d.classes[c]?.map (·.name)).getD ""))

/-! ### Features -/

/-- The target that a feature of a class names. -/
def targetName (c : ClassDefinition) (f : FeatureDefinition) : Except SchemaError String :=
  match f.target with
  | some name => .ok name
  | none => .error (.missingTarget c.name f.name)

/-- What a feature of a class holds. -/
def resolveKind (c : ClassDefinition) (f : FeatureDefinition) : Except SchemaError FeatureKind :=
  let user := c.name ++ "." ++ f.name
  match f.sort with
  | .string => .ok (.data .string)
  | .integer => .ok (.data .integer)
  | .float => .ok (.data .float)
  | .boolean => .ok (.data .boolean)
  | .any => .ok (.data .any)
  | .enum => do
    let name ← targetName c f
    match d.enumNamed? name with
    | some e => .ok (.data (.enum e))
    | none => .error (.unknownEnum name user)
  | .reference => do .ok (.reference (← d.findClass user (← targetName c f)))
  | .containment => do .ok (.containment (← d.findClass user (← targetName c f)))

def ownFeatures (entry : ClassDefinition × ClassId) : Except SchemaError (List Feature) :=
  entry.1.features.mapM fun f => do
    let kind ← d.resolveKind entry.1 f
    .ok ⟨f.name, entry.2, kind, f.many, f.default, f.unquoted, f.labeled⟩

def resolveFeatures : Except SchemaError (List Feature) := do
  .ok (← d.classes.zipIdx.mapM d.ownFeatures).flatten

end SchemaDefinition

/-! ### Inheritance -/

/-- What a class has from its supertypes and itself. -/
structure Lineage where
  ancestors : List ClassId
  features : List FeatureId
  unlabeled : List FeatureId
  backward : Option String
deriving DecidableEq, Repr, Inhabited

/-- Adds what is not there yet, in order. -/
def addNew (xs ys : List Nat) : List Nat :=
  ys.foldl (fun xs y => if xs.contains y then xs else xs ++ [y]) xs

namespace Lineage

/-- The lineages of the classes worked on so far. -/
abbrev Table := List (ClassId × Lineage)

def Table.at (t : Table) (c : ClassId) : Lineage := (t.lookup c).getD default

variable (features : List Feature)

def nameOf (f : FeatureId) : String := (features.getD f default).name

/-- The features of a class: those of its supertypes, each once, and its own. -/
def inherited (parents : List Lineage) (own : List FeatureId) : List FeatureId :=
  parents.foldl (fun fs p => addNew fs p.features) [] ++ own

/-- The first name that occurs a second time. -/
def repeatedName? : List String → List String → Option String
  | _, [] => none
  | seen, name :: names =>
    if seen.contains name then some name else repeatedName? (name :: seen) names

/-- The feature of a name among some. -/
def named? (among : List FeatureId) (name : String) : Option FeatureId :=
  among.find? fun f => nameOf features f == name

/-- The arguments given by position: those that the class lists, or else those of the first
supertype that has any. -/
def unlabeledOf (c : ClassDefinition) (parents : List Lineage) (among : List FeatureId) :
    Except SchemaError (List FeatureId) :=
  match c.unlabeled with
  | some names =>
    names.mapM fun name =>
      match (named? features among name).filter fun f =>
          !(features.getD f default).isContainment with
      | some f => .ok f
      | none => .error (.unknownArgument c.name name)
  | none => .ok (((parents.map (·.unlabeled)).find? (!·.isEmpty)).getD [])

/-- The backward attribute: the one that the class names, or else that of the first supertype that
has one. -/
def backwardOf (c : ClassDefinition) (parents : List Lineage) (among : List FeatureId) :
    Except SchemaError (Option String) :=
  match c.backward with
  | some name =>
    if (named? features among name).isSome then .ok (some name)
    else .error (.unknownBackward c.name name)
  | none => .ok (parents.findSome? (·.backward))

/-- The lineage of a class, given those of its supertypes. -/
def derive (c : ClassDefinition) (id : ClassId) (parents : List Lineage) :
    Except SchemaError Lineage := do
  let own := (List.range features.length).filter fun f => (features.getD f default).owner == id
  let all := inherited parents own
  match repeatedName? [] (all.map (nameOf features)) with
  | some name => .error (.duplicateFeature c.name name)
  | none =>
    let unlabeled ← unlabeledOf features c parents all
    let backward ← backwardOf features c parents all
    .ok ⟨parents.foldl (fun cs p => addNew cs p.ancestors) [id], all, unlabeled, backward⟩

/-- The lineages of all classes, worked on in inheritance order. -/
def deriveAll (classes : List ClassDefinition) (supertypes : List (List ClassId))
    (order : List ClassId) : Except SchemaError Table :=
  order.foldlM (fun table id =>
    match classes[id]? with
    | none => .ok table
    | some c => do
      let lineage ← derive features c id ((supertypesOf supertypes id).map table.at)
      .ok ((id, lineage) :: table)) []

end Lineage

/-! ### Command words -/

/-- Enters a class under its command word, unless another class is there. -/
def addCommand (context : String) (table : List (String × ClassId)) (word : String)
    (c : ClassId) : Except SchemaError (List (String × ClassId)) :=
  match table.lookup word with
  | none => .ok (table ++ [(word, c)])
  | some other => if other = c then .ok table else .error (.ambiguousCommand word context)

namespace Schema

variable (s : Schema)

/-- A table of classes by their command words. -/
def commandTable (context : String) (classes : List ClassId) :
    Except SchemaError (List (String × ClassId)) :=
  classes.foldlM (fun table c => addCommand context table (s.commandOf c) c) []

def childClasses (c : ClassId) : List ClassId :=
  (s.containments c).flatMap fun f =>
    match (s.featureAt f).target? with
    | some target => s.subtypes target
    | none => []

def withCommands : Except SchemaError Schema := do
  let roots ← s.commandTable "<root>" (s.classIds.filter fun c => (s.classAt c).root)
  let tables ← s.classIds.mapM fun c => s.commandTable (s.className c) (s.childClasses c)
  .ok { s with
    rootCommands := roots
    classes := (s.classes.zip tables).map fun (c, commands) => { c with commands } }

end Schema

/-! ### All steps -/

namespace SchemaDefinition

variable (d : SchemaDefinition)

/-- The written form of the stock pattern. -/
def stockPattern : String := "\\w*(/\\w*)+"

def readPattern : Except SchemaError Pattern :=
  match d.pattern with
  | none => .ok .stock
  | some text =>
    match Pattern.ofText? text.toList with
    | some p => .ok p
    | none => .error .badPattern

def classOf (supertypes : List (List ClassId)) (table : Lineage.Table)
    (entry : ClassDefinition × ClassId) : Class :=
  let (c, id) := entry
  let lineage := table.at id
  { name := c.name
    command := c.commandWord
    isAbstract := c.isAbstract
    root := c.root
    supertypes := supertypesOf supertypes id
    ancestors := lineage.ancestors
    features := lineage.features
    unlabeled := lineage.unlabeled
    backward := lineage.backward
    commands := [] }

def build : Except SchemaError Schema := do
  let pattern ← d.readPattern
  checkDistinct .duplicateEnum [] (d.enums.map (·.name))
  checkDistinct .duplicateClass [] (d.classes.map (·.name))
  let supertypes ← d.resolveSupertypes
  let order ← d.order supertypes
  let features ← d.resolveFeatures
  let table ← Lineage.deriveAll features d.classes supertypes order
  let schema : Schema :=
    { classes := d.classes.zipIdx.map (classOf supertypes table)
      features
      enums := d.enums.map fun e => ⟨e.name, e.literals⟩
      rootCommands := []
      pattern
      patternText := d.pattern.getD stockPattern
      generics := d.generics
      lineAttribute := d.lineAttribute
      fileAttribute := d.fileAttribute
      fragmentAttribute := d.fragmentAttribute }
  schema.withCommands

end SchemaDefinition

namespace Schema

def ofJson (value : Json) : Except SchemaError Schema :=
  match SchemaDefinition.ofJson? value with
  | some d => d.build
  | none => .error .notDecodable

def ofText (text : List Char) : Except SchemaError Schema :=
  match Json.ofText? text with
  | some value => ofJson value
  | none => .error .notDecodable

end Schema

end CommandText
