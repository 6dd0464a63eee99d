/-!
# Faulty schema definitions

Why a definition gives no schema. Unlike problems in a text, the first one stops the work.
-/

namespace CommandText

inductive SchemaError
  /-- The definition is no JSON, or not of the right form. -/
  | notDecodable
  /-- The reference pattern cannot be read. -/
  | badPattern
  | duplicateClass (name : String)
  | duplicateEnum (name : String)
  | duplicateFeature (className feature : String)
  | unknownClass (name user : String)
  | unknownEnum (name user : String)
  | missingTarget (className feature : String)
  | unknownArgument (className feature : String)
  | unknownBackward (className feature : String)
  | cyclicInheritance (className : String)
  | ambiguousCommand (word context : String)
deriving DecidableEq, Repr

def SchemaError.message : SchemaError → String
  | notDecodable => "invalid schema definition"
  | badPattern => "invalid reference pattern"
  | duplicateClass name => "duplicate class '" ++ name ++ "'"
  | duplicateEnum name => "duplicate enum '" ++ name ++ "'"
  | duplicateFeature c f =>
    "class '" ++ c ++ "' declares feature '" ++ f ++
      "' more than once (including inherited features)"
  | unknownClass name user => "unknown class '" ++ name ++ "' referenced by '" ++ user ++ "'"
  | unknownEnum name user => "unknown enum '" ++ name ++ "' referenced by '" ++ user ++ "'"
  | missingTarget c f => "feature '" ++ c ++ "." ++ f ++ "' needs a target"
  | unknownArgument c f => "class '" ++ c ++ "' lists unknown unlabeled argument '" ++ f ++ "'"
  | unknownBackward c f =>
    "class '" ++ c ++ "' names unknown backward reference attribute '" ++ f ++ "'"
  | cyclicInheritance c => "cyclic inheritance involving class '" ++ c ++ "'"
  | ambiguousCommand word context =>
    "command '" ++ word ++ "' is ambiguous in context '" ++ context ++ "'"

end CommandText
