import CommandText.Editor.Context
import CommandText.Json.Printer

/-!
# Completion

What can be typed at the cursor. Four places are told apart: outside of all elements (commands of
root level), behind a complete argument list (a block), inside a block (commands of children and
role labels) and in an argument list (values of the feature at the cursor and the labels that are
still free).
-/

namespace CommandText

inductive CompletionKind
  | command
  | label
  | value
  | reference
  | block
deriving DecidableEq, Repr

/-- One thing that can be typed. -/
structure Completion where
  kind : CompletionKind
  /-- What is put into the document. -/
  insert : String
  display : String
  detail : Option String
deriving DecidableEq, Repr

/-- A target that a reference may name. -/
structure ReferenceTarget where
  identifier : String
  typeName : String
deriving DecidableEq, Repr

structure CompletionOptions where
  /-- Blocks are offered from version 1 on. -/
  version : Nat := 1
  /-- What references at a context may name. -/
  references : Schema → Context → List ReferenceTarget := fun _ _ => []

def extendsTyped (typed : List Char) (name : String) : Bool := typed.isPrefixOf name.toList

/-- Keeps the first of each run of neighbours that are the same. -/
def dropRepeats {α : Type} (same : α → α → Bool) (items : List α) : List α :=
  items.foldr (fun a kept =>
    match kept with
    | b :: rest => if same a b then a :: rest else a :: kept
    | [] => [a]) []

/-! ### Texts -/

/-- Whether a text can be written as a value without quotes. -/
def isBareWord (text : String) : Bool :=
  text.toList.head?.any startsName && text.toList.all isWord && text != "true" && text != "false"

/-- How an enum literal is written. -/
def literalText (literal : String) : String :=
  if isBareWord literal then literal
  else String.ofList (['"'] ++ escape literal.toList ++ ['"'])

/-- The numbers that are offered if a feature has no default value. -/
def sampleNumbers : List String := ["0", "1", "2", "3", "4"]

def referenceCompletion (r : ReferenceTarget) : Completion :=
  { kind := .reference, insert := r.identifier, display := r.identifier, detail := some r.typeName }

/-- An empty block, laid out with the indentation of the document. -/
def blockCompletion (context : Context) : Completion :=
  { kind := .block
    insert := String.ofList (['\x7b', '\n'] ++ context.lineIndent ++ context.indent ++ ['\n'] ++
      context.lineIndent ++ ['\x7d'])
    display := "\x7b \x7d"
    detail := some "new block" }

namespace Schema

variable (s : Schema)

/-! ### Commands and labels -/

/-- Classes in the order of their command words; those with one word stay in order. -/
def sortByCommand (classes : List ClassId) : List ClassId :=
  classes.mergeSort fun c d => !(s.commandOf d < s.commandOf c)

/-- The classes whose command words go on from what is typed, in the order of these words. -/
def classesMatching (typed : List Char) (classes : List ClassId) : List ClassId :=
  s.sortByCommand (classes.filter fun c => extendsTyped typed (s.commandOf c))

/-- A command is shown with the names of its unlabeled arguments. -/
def commandCompletion (c : ClassId) : Completion :=
  let names := (s.unlabeledArguments c).map fun f => (s.featureAt f).name
  { kind := .command
    insert := s.commandOf c
    display := s.commandOf c ++ if names.isEmpty then "" else " " ++ commaList names
    detail := some (s.className c) }

def labelCompletion (f : FeatureId) : Completion :=
  let name := (s.featureAt f).name
  { kind := .label, insert := name ++ ": ", display := name ++ ":", detail := some (s.typeName f) }

/-- The commands of root level. Of classes with one command word the first is offered. -/
def rootCompletions (typed : List Char) : List Completion :=
  (dropRepeats (fun c d => s.commandOf c == s.commandOf d)
    (s.classesMatching typed s.rootClasses)).map s.commandCompletion

/-- The classes of the elements that a feature takes. -/
def takenClasses (f : FeatureId) : List ClassId :=
  match (s.featureAt f).target? with
  | some c => s.concreteSubtypes c
  | none => []

def childCompletions (f : FeatureId) (typed : List Char) : List Completion :=
  (s.classesMatching typed (s.takenClasses f)).map s.commandCompletion

/-! ### Blocks -/

/-- Whether the children of a containment must be given under its label: it demands that, or
another containment of the class takes one of them as well. -/
def needsLabel (c : ClassId) (f : FeatureId) : Bool :=
  (s.featureAt f).labeled ||
    (s.takenClasses f).any fun d => 1 < (s.containmentsAccepting c d).length

/-- The commands and labels that a block of an element of a class takes. -/
def memberCompletions (c : ClassId) (typed : List Char) : List Completion :=
  let (labeled, plain) := (s.containments c).partition (s.needsLabel c)
  (dropRepeats (· == ·) (s.classesMatching typed (plain.flatMap s.takenClasses))).map
      s.commandCompletion ++
    (labeled.filter fun f => extendsTyped typed (s.featureAt f).name).map s.labelCompletion

/-- What a block takes at the cursor. Under a role label only the label's children fit. -/
def inBlockCompletions (c : ClassId) (context : Context) : List Completion :=
  match context.feature.filter fun f => (s.featureAt f).isContainment with
  | some f => s.childCompletions f context.typed
  | none => s.memberCompletions c context.typed

/-- A block, for a class that has children. -/
def newBlockCompletions (c : ClassId) (context : Context) (version : Nat) : List Completion :=
  if version < 1 || (s.containments c).isEmpty || context.flags.beforeBrace then []
  else [blockCompletion context]

/-! ### Values -/

/-- What can stand as a value of an attribute. -/
def valueTexts (f : FeatureId) : DataType → List String
  | .enum e => (s.enumAt e).literals.map literalText
  | .string => [if s.isUnquotedString f then (s.featureAt f).name else "\"\""]
  | .integer =>
    match (s.featureAt f).default with
    | some value => [String.ofList value.compact]
    | none => sampleNumbers
  | .float =>
    match (s.featureAt f).default with
    | some value => [String.ofList value.compact]
    | none => sampleNumbers.map (· ++ ".0")
  | .boolean => ["true", "false"]
  | .any => []

def valueCompletion (f : FeatureId) (text : String) : Completion :=
  { kind := .value, insert := text, display := text, detail := some (s.typeName f) }

def featureCompletions (f : FeatureId) (context : Context) (options : CompletionOptions) :
    List Completion :=
  match (s.featureAt f).kind with
  | .reference _ => (options.references s context).map referenceCompletion
  | .containment _ => s.childCompletions f context.typed
  | .data t => (s.valueTexts f t).map (s.valueCompletion f)

/-- The labels of the arguments that an element does not have yet. -/
def freeLabelCompletions (c : ClassId) (id : ElementId) (context : Context) : List Completion :=
  if context.flags.afterLabel || context.flags.inArray then []
  else
    ((s.labeledArguments c).filter fun f =>
      !context.model.isSet id f && extendsTyped context.typed (s.featureAt f).name).map
      s.labelCompletion

def argumentCompletions (c : ClassId) (id : ElementId) (context : Context)
    (options : CompletionOptions) : List Completion :=
  (match context.feature with
    | some f => s.featureCompletions f context options
    | none => []) ++
    s.freeLabelCompletions c id context

end Schema

/-! ### All places -/

def complete (s : Schema) (context : Context) (options : CompletionOptions) : List Completion :=
  match context.element with
  | none => s.rootCompletions context.typed
  | some id =>
    let c := context.model.classOf id
    if context.problem.isSome then s.newBlockCompletions c context options.version
    else if context.flags.inBlock then s.inBlockCompletions c context
    else s.argumentCompletions c id context options

end CommandText
