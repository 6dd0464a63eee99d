import CommandText.Binding.Basic

/-!
# Binding arguments

An argument addresses a feature of the element's class: by its label, or as the next one of those
that are given by position. Its values are checked against the feature one by one.
-/

namespace CommandText

/-- The kinds of tokens that a feature takes, generic values apart. -/
def FeatureKind.tokenKinds : FeatureKind → List TokenKind
  | .reference _ => [.reference, .identifier]
  | .data (.enum _) => [.identifier, .string]
  | .data .string => [.string, .identifier, .integer, .float]
  | .data .integer => [.integer]
  | .data .float => [.float, .integer]
  | .data .boolean => [.boolean]
  | .data .any => [.string, .identifier, .integer, .float, .boolean]
  | .containment _ => []

/-- The value of a literal as it stands. -/
def Lexeme.literal : Lexeme → Value
  | integer n => .integer n
  | float x => .float x
  | long x => .long x
  | boolean b => .boolean b
  | l => .string l.text

namespace Schema

/-- A token of a fitting kind as a value of a feature. -/
def convert (s : Schema) (f : Feature) (t : Token) : Except Fault Value :=
  match f.kind with
  | .reference _ => .ok (.proxy t.text)
  | .data (.enum e) =>
    if (s.enumAt e).literals.contains t.text then .ok (.enum t.text)
    else .error (.wrongLiteral f.name t.text (s.enumAt e).literals)
  | .data .string => .ok (.string t.text)
  | .data .float =>
    match t.lexeme with
    | .integer n => .ok (.float (Float.ofInt n))
    | l => .ok l.literal
  | .data _ => .ok t.lexeme.literal
  | .containment _ => .error (.wrongKind f.name t.kind [])

/-- A value token as a value of a feature. -/
def accept (s : Schema) (f : Feature) (t : Token) : Except Fault Value :=
  if t.isKind .generic then
    if s.generics then .ok (.generic t.text) else .error .genericRefused
  else if f.kind.tokenKinds.contains t.kind then s.convert f t
  else .error (.wrongKind f.name t.kind f.kind.tokenKinds)

/-- The feature that an argument addresses; `position` counts the unlabeled arguments before it. -/
def address (s : Schema) (c : ClassId) (position : Nat) (label : Option Token) :
    Except Fault FeatureId :=
  match label with
  | none =>
    match (s.unlabeledArguments c)[position]? with
    | some f => .ok f
    | none => .error (.extraArgument (s.unlabeledArguments c).length)
  | some label =>
    match s.featureNamed? c label.text with
    | none => .error (.unknownArgument label.text)
    | some f =>
      if (s.featureAt f).isContainment then .error (.childrenOnly label.text) else .ok f

end Schema

/-- The line on which problems of an argument are told. -/
def Argument.lineOr (a : Argument) (line : Nat) : Nat :=
  ((a.label.or a.value.tokens.head?).map (·.line)).getD line

namespace BuildM

variable {τ : Type}

def bindValue (s : Schema) (id : ElementId) (f : FeatureId) (t : Token) : BuildM τ Unit :=
  match s.accept (s.featureAt f) t with
  | .error fault => problem fault t.line
  | .ok value => do
    change (·.addValue id f value)
    if let .proxy target := value then
      modify fun b =>
        { b with unresolved := b.unresolved ++ [⟨id, (s.featureAt f).name, target⟩] }

def bindValues (s : Schema) (id : ElementId) (f : FeatureId) (tokens : List Token)
    (line : Nat) : BuildM τ Unit :=
  if tokens.length > 1 && !(s.featureAt f).many then
    problem (.singleValueOnly (s.featureAt f).name) line
  else tokens.forM (bindValue s id f)

/-- Stores arguments in order. `position` counts the unlabeled ones so far, and `given` holds the
features addressed so far, each of which may be addressed only once. -/
def bindRest (s : Schema) (id : ElementId) (c : ClassId) (line : Nat) :
    Nat → List FeatureId → List Argument → BuildM τ Unit
  | _, _, [] => return ()
  | position, given, a :: rest => do
    let next := if a.label.isNone then position + 1 else position
    match s.address c position a.label with
    | .error fault =>
      problem fault (a.lineOr line)
      bindRest s id c line next given rest
    | .ok f =>
      if given.contains f then
        problem (.argumentRepeated (s.featureAt f).name) (a.lineOr line)
        bindRest s id c line next given rest
      else
        bindValues s id f a.value.tokens (a.lineOr line)
        bindRest s id c line next (f :: given) rest

/-- Stores the arguments of a statement in the element that it creates. -/
def bindArguments (s : Schema) (id : ElementId) (arguments : List Argument) (line : Nat) :
    BuildM τ Unit := do
  bindRest s id ((← getModel).classOf id) line 0 [] arguments

end BuildM

end CommandText
