import CommandText.Binding.Arguments
import CommandText.Binding.Children
import CommandText.Statement.Parser
import CommandText.Token.Stream

/-!
# Instantiating a text

A text is turned into elements of a model. A command word is looked up among those that the
containments of the enclosing class take, or on root level among those of root classes; each
statement whose word is found creates an element when its block is complete.
-/

namespace CommandText

/-- What is told about a text besides its characters. -/
structure Origin where
  file : Option String := none
  fragment : Option String := none
deriving DecidableEq, Repr

namespace BuildM

variable {τ : Type}

/-- Whether an attribute can hold a location. -/
def fitsLocation (t : Option DataType) : Value → Bool
  | .integer _ => t = some .any || t = some .integer
  | .string _ => t = some .any || t = some .string
  | _ => t = some .any

/-- Sets the attribute that the schema reserves for a part of the location, if there is one. -/
def setLocationPart (s : Schema) (id : ElementId) (name : Option String)
    (value : Option Value) : BuildM τ Unit := do
  let m ← getModel
  match name, value with
  | some name, some value =>
    match s.featureNamed? (m.classOf id) name with
    | some f =>
      if fitsLocation (s.featureAt f).dataType? value then change (·.setValue id f value)
    | none => return ()
  | _, _ => return ()

/-- Sets the attributes that hold the location of an element. -/
def setLocation (s : Schema) (origin : Origin) (id : ElementId) (line : Nat) :
    BuildM τ Unit := do
  setLocationPart s id s.lineAttribute (some (.integer line))
  setLocationPart s id s.fileAttribute (origin.file.map .string)
  setLocationPart s id s.fragmentAttribute (origin.fragment.map .string)

/-- Offers the comments and the note of a statement. Without a keeper comments are passed over and
a note is refused. -/
def offerComments (s : Schema) (keeper : Option (CommentKeeper τ)) (id : ElementId)
    (comments : List Comment) (note : Option String) (line : Nat) : BuildM τ Unit := do
  comments.forM fun c => do
    let taken ← match keeper with
      | some k => offer (k.comment s (some id) c)
      | none => pure true
    unless taken do problem .commentRefused c.line
  match note with
  | none => return ()
  | some text =>
    let taken ← match keeper with
      | some k => offer (k.note s id text)
      | none => pure false
    unless taken do problem .noteRefused line

def create (c : ClassId) (line : Nat) (isRoot : Bool) : BuildM τ ElementId := do
  let id := (← getModel).nextId
  modify fun b => { b with
    model := b.model.create c (some line)
    elements := b.elements ++ [id]
    roots := if isRoot then b.roots ++ [id] else b.roots }
  return id

end BuildM

open BuildM

/-- Why a command word that was not found cannot be used. -/
def Schema.missingCommand (s : Schema) (word : String) (isRoot : Bool) : Fault :=
  if !s.hasCommand word then .unknownCommand word
  else if isRoot then .notOnRootLevel word
  else .notInContext word

/-- The visitor that creates elements. The scope of a statement is the class of its command word. A
statement inside one whose word was not found is looked up on root level. -/
def builder {τ : Type} (s : Schema) (origin : Origin) (keeper : Option (CommentKeeper τ)) :
    Visitor (Building τ) (Option ClassId) ElementId where
  enter command enclosing := return s.classForCommand? command.text enclosing.join
  leave statement scope := do
    let word := statement.command.text
    let line := statement.command.line
    match scope with
    | none =>
      problem (s.missingCommand word statement.isRoot) line
      return none
    | some c =>
      if (s.classAt c).isAbstract then
        problem (.abstractClass word (s.className c)) line
        return none
      else
        let id ← create c line statement.isRoot
        bindArguments s id statement.arguments line
        placeChildren s id statement.members
        setLocation s origin id line
        offerComments s keeper id statement.comments statement.note line
        return some id
  comment c := do
    match keeper with
    | none => return ()
    | some k =>
      unless ← offer (k.comment s none c) do problem .looseCommentRefused c.line

/-- What came of a text. -/
structure Instantiation (τ : Type) where
  model : Model
  roots : List ElementId
  elements : List ElementId
  /-- The problems by line; on one line, in the order in which they were found. -/
  problems : List Problem
  unresolved : List Unresolved
  keeper : τ

def sortProblems (problems : List Problem) : List Problem :=
  problems.mergeSort fun p q => p.line ≤ q.line

/-- Turns a text into elements of a model. -/
def instantiateWith {τ : Type} (s : Schema) (origin : Origin) (keeper : Option (CommentKeeper τ))
    (state : τ) (m : Model) (text : List Char) : Instantiation τ :=
  let parsed := parse (tokenize s.pattern text)
  let (_, b) := (Entry.visitAll (builder s origin keeper) none parsed.entries).run
    { model := m, keeper := state }
  { model := b.model
    roots := b.roots
    elements := b.elements
    problems := (sortProblems (b.problems ++ parsed.problems)).map fun p =>
      { p with file := origin.file }
    unresolved := b.unresolved
    keeper := b.keeper }

/-- Turns a text into elements of an empty model; comments are passed over. -/
def instantiate (s : Schema) (text : List Char) : Instantiation Unit :=
  instantiateWith s {} none () {} text

end CommandText
