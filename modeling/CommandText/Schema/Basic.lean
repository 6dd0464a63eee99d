import CommandText.Json.Basic
import CommandText.Pattern.Basic

/-!
# Schemas

A schema says which classes of elements there are, which features they have and by which command
words they are created. Classes, features and enums are numbered in the order of their definition.
-/

namespace CommandText

abbrev ClassId := Nat

abbrev FeatureId := Nat

abbrev EnumId := Nat

inductive DataType
  | string
  | integer
  | float
  | boolean
  | any
  | enum (e : EnumId)
deriving DecidableEq, Repr, Inhabited

inductive FeatureKind
  | data (t : DataType)
  | reference (target : ClassId)
  | containment (target : ClassId)
deriving DecidableEq, Repr, Inhabited

structure Feature where
  name : String
  owner : ClassId
  kind : FeatureKind
  many : Bool
  default : Option Json
  unquoted : Bool
  labeled : Bool
deriving Repr, Inhabited

namespace Feature

def isContainment (f : Feature) : Bool :=
  match f.kind with
  | .containment _ => true
  | _ => false

def target? (f : Feature) : Option ClassId :=
  match f.kind with
  | .reference c | .containment c => some c
  | .data _ => none

def dataType? (f : Feature) : Option DataType :=
  match f.kind with
  | .data t => some t
  | _ => none

end Feature

structure EnumType where
  name : String
  literals : List String
deriving DecidableEq, Repr, Inhabited

structure Class where
  name : String
  command : String
  isAbstract : Bool
  root : Bool
  supertypes : List ClassId
  /-- The class itself and all that it inherits from. -/
  ancestors : List ClassId
  /-- The inherited features and then its own. -/
  features : List FeatureId
  /-- The arguments that are given by position. -/
  unlabeled : List FeatureId
  /-- The attribute that stands for references to an element. -/
  backward : Option String
  /-- The classes that its containments take, by command word. -/
  commands : List (String × ClassId)
deriving DecidableEq, Repr, Inhabited

structure Schema where
  classes : List Class
  features : List Feature
  enums : List EnumType
  /-- The classes that may stand on root level, by command word. -/
  rootCommands : List (String × ClassId)
  pattern : Pattern
  patternText : String
  generics : Bool
  lineAttribute : Option String
  fileAttribute : Option String
  fragmentAttribute : Option String
deriving Repr

namespace Schema

variable (s : Schema)

/-! ### Classes -/

def classAt (c : ClassId) : Class := s.classes.getD c default

def featureAt (f : FeatureId) : Feature := s.features.getD f default

def enumAt (e : EnumId) : EnumType := s.enums.getD e default

/-- All classes in the order of their definition. -/
def classIds : List ClassId := List.range s.classes.length

def classNamed? (name : String) : Option ClassId := s.classes.findIdx? (·.name == name)

def className (c : ClassId) : String := (s.classAt c).name

def commandOf (c : ClassId) : String := (s.classAt c).command

/-- Whether a class is another one or inherits from it. -/
def conforms (c d : ClassId) : Bool := (s.classAt c).ancestors.contains d

/-- The classes that conform to a class, in the order of their definition. -/
def subtypes (c : ClassId) : List ClassId := s.classIds.filter (s.conforms · c)

def isConcrete (c : ClassId) : Bool := !(s.classAt c).isAbstract

def concreteSubtypes (c : ClassId) : List ClassId := (s.subtypes c).filter s.isConcrete

/-- The classes of which elements may stand on root level. -/
def rootClasses : List ClassId :=
  s.classIds.filter fun c => (s.classAt c).root && s.isConcrete c

/-! ### Command words -/

/-- The class that a command word creates on root level or inside an element of a class. -/
def classForCommand? (word : String) : Option ClassId → Option ClassId
  | none => s.rootCommands.lookup word
  | some c => (s.classAt c).commands.lookup word

def hasCommand (word : String) : Bool := s.classes.any (·.command == word)

/-! ### Features -/

def featuresOf (c : ClassId) : List FeatureId := (s.classAt c).features

def featureNamed? (c : ClassId) (name : String) : Option FeatureId :=
  (s.featuresOf c).find? fun f => (s.featureAt f).name == name

def containments (c : ClassId) : List FeatureId :=
  (s.featuresOf c).filter fun f => (s.featureAt f).isContainment

def arguments (c : ClassId) : List FeatureId :=
  (s.featuresOf c).filter fun f => !(s.featureAt f).isContainment

def unlabeledArguments (c : ClassId) : List FeatureId := (s.classAt c).unlabeled

def labeledArguments (c : ClassId) : List FeatureId :=
  (s.arguments c).filter fun f => !(s.unlabeledArguments c).contains f

/-- The containments of a class that take elements of another. -/
def containmentsAccepting (c child : ClassId) : List FeatureId :=
  (s.containments c).filter fun f => (s.featureAt f).target?.any (s.conforms child)

/-- The type of a feature as it is told to people. -/
def typeName (f : FeatureId) : String :=
  match (s.featureAt f).kind with
  | .data .string => "String"
  | .data .integer => "Integer"
  | .data .float => "Float"
  | .data .boolean => "Boolean"
  | .data .any => "Object"
  | .data (.enum e) => (s.enumAt e).name
  | .reference c | .containment c => s.className c

def isUnquotedString (f : FeatureId) : Bool :=
  (s.featureAt f).unquoted && (s.featureAt f).kind == .data .string

end Schema

end CommandText
