import CommandText.Model.Basic
import CommandText.Problem
import CommandText.Statement.Basic

/-!
# Building elements

The state in which statements are turned into elements of a model, and those who keep comments.
-/

namespace CommandText

/-- A reference that is kept by the text that names its target. -/
structure Unresolved where
  element : ElementId
  feature : String
  target : String
deriving DecidableEq, Repr

/-- The state of the work. The keeper of comments has a state of its own. -/
structure Building (τ : Type) where
  model : Model
  /-- The elements of statements on root level. -/
  roots : List ElementId := []
  elements : List ElementId := []
  problems : List Problem := []
  unresolved : List Unresolved := []
  keeper : τ

abbrev BuildM (τ : Type) := StateM (Building τ)

/-- Someone who is offered comments and notes, and answers whether they are taken. A loose comment
belongs to no element. -/
structure CommentKeeper (τ : Type) where
  comment : Schema → Option ElementId → Comment → StateM (Model × τ) Bool
  note : Schema → ElementId → String → StateM (Model × τ) Bool

namespace BuildM

variable {τ : Type}

def problem (fault : Fault) (line : Nat) : BuildM τ Unit :=
  modify fun b => { b with problems := b.problems ++ [⟨fault, line, none⟩] }

def change (f : Model → Model) : BuildM τ Unit := modify fun b => { b with model := f b.model }

def getModel : BuildM τ Model := return (← get).model

/-- Offers something to a keeper. -/
def offer (ask : StateM (Model × τ) Bool) : BuildM τ Bool := do
  let b ← get
  let (taken, model, keeper) := ask (b.model, b.keeper)
  set { b with model, keeper }
  return taken

end BuildM

/-! ### Comments in attributes -/

/-- The names of the attributes that take comments and notes. -/
structure AttributeKeeper where
  commentAttribute : String := "comment"
  noteAttribute : String := "annotation"
deriving DecidableEq, Repr

/-- Adds a line of text to the first value of a string attribute, or `none` if the element has no
such attribute. -/
def appendText? (s : Schema) (m : Model) (id : ElementId) (name text : String) : Option Model := do
  let f ← s.featureNamed? (m.classOf id) name
  if (s.featureAt f).dataType? = some .string then
    let joined := match (m.values id f).head?.bind Value.text? with
      | some before => before ++ "\n" ++ text
      | none => text
    some (m.setValue id f (.string joined))
  else none

namespace AttributeKeeper

/-- Appends text to an attribute of an element if it can take it. -/
def keep (s : Schema) (id : ElementId) (name text : String) : StateM (Model × Unit) Bool :=
  fun (m, _) =>
    match appendText? s m id name text with
    | some changed => (true, changed, ())
    | none => (false, m, ())

/-- Comments and notes are appended to attributes; loose comments are refused. -/
def keeper (k : AttributeKeeper) : CommentKeeper Unit where
  comment s id c :=
    match id, c.kind with
    | some id, .above | some id, .lineEnd => keep s id k.commentAttribute c.text
    | _, _ => return false
  note s id text := keep s id k.noteAttribute text

end AttributeKeeper

end CommandText
