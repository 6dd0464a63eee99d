import CommandText.Schema.Basic
import CommandText.Token.Basic

/-!
# Models

A model is a store of elements. Each element has a class and holds lists of values for features,
and each may be contained in another one. Elements are numbered in the order of their creation and
are never removed.

## Implementation notes

A child is recorded twice: its container is a field of the child, and the child is a value of its
container. `attach` is the only operation that writes the container.
-/

namespace CommandText

abbrev ElementId := Nat

/-- What features hold. -/
inductive Value
  | string (text : String)
  | integer (n : Int)
  | float (x : Float)
  | long (x : LongFloat)
  | boolean (b : Bool)
  | enum (literal : String)
  /-- What stands between the angle brackets of a generic value. -/
  | generic (text : String)
  /-- A reference by the text that names its target. -/
  | proxy (target : String)
  | element (id : ElementId)
deriving DecidableEq, Repr

namespace Value

def text? : Value → Option String
  | string s | enum s | generic s | proxy s => some s
  | _ => none

def element? : Value → Option ElementId
  | element id => some id
  | _ => none

end Value

/-- The values of an element by feature. A feature without an entry holds nothing. -/
abbrev Slots := List (FeatureId × List Value)

namespace Slots

def get (slots : Slots) (f : FeatureId) : List Value := (slots.lookup f).getD []

def put (f : FeatureId) (values : List Value) : Slots → Slots
  | [] => [(f, values)]
  | (g, old) :: rest => if g = f then (f, values) :: rest else (g, old) :: put f values rest

@[simp] theorem get_put_self (f : FeatureId) (values : List Value) (slots : Slots) :
    get (put f values slots) f = values := by
  induction slots with
  | nil => simp [put, get]
  | cons slot rest ih =>
    obtain ⟨g, old⟩ := slot
    simp only [put]
    split
    · simp [get]
    · next h => simpa [get, List.lookup_cons, beq_eq_false_iff_ne.mpr (Ne.symm h)] using ih

theorem get_put_of_ne {f g : FeatureId} (h : g ≠ f) (values : List Value) (slots : Slots) :
    get (put f values slots) g = get slots g := by
  induction slots with
  | nil => simp [put, get, List.lookup_cons, beq_eq_false_iff_ne.mpr h]
  | cons slot rest ih =>
    obtain ⟨k, old⟩ := slot
    simp only [put]
    split
    · next hk => subst hk; simp [get, List.lookup_cons, beq_eq_false_iff_ne.mpr h]
    · by_cases hg : g = k
      · subst hg; simp [get]
      · simpa [get, List.lookup_cons, beq_eq_false_iff_ne.mpr hg] using ih

end Slots

structure Element where
  type : ClassId
  /-- The line of the command that created it. -/
  line : Option Nat
  values : Slots := []
  /-- The element that contains it, and the feature it is contained in. -/
  container : Option (ElementId × FeatureId) := none
deriving DecidableEq, Repr, Inhabited

structure Model where
  elements : List Element := []
deriving DecidableEq, Repr

namespace Model

variable (m : Model)

def size : Nat := m.elements.length

def elementAt (id : ElementId) : Element := m.elements.getD id default

def classOf (id : ElementId) : ClassId := (m.elementAt id).type

/-- All elements in the order of their creation. -/
def ids : List ElementId := List.range m.size

def values (id : ElementId) (f : FeatureId) : List Value := (m.elementAt id).values.get f

/-- The values of the feature that the class of an element has under a name. -/
def valuesNamed (s : Schema) (id : ElementId) (name : String) : List Value :=
  match s.featureNamed? (m.classOf id) name with
  | some f => m.values id f
  | none => []

def isSet (id : ElementId) (f : FeatureId) : Bool := !(m.values id f).isEmpty

def container (id : ElementId) : Option (ElementId × FeatureId) := (m.elementAt id).container

def parent (id : ElementId) : Option ElementId := (m.container id).map (·.1)

/-- The elements among the values of a feature. -/
def children (id : ElementId) (f : FeatureId) : List ElementId :=
  (m.values id f).filterMap Value.element?

/-- The first child of the first containment that has one. -/
def firstChild (s : Schema) (id : ElementId) : Option ElementId :=
  (s.containments (m.classOf id)).findSome? fun f => (m.children id f).head?

def nextId : ElementId := m.size

/-- Creates an element, which gets the number `nextId`. -/
def create (type : ClassId) (line : Option Nat) : Model :=
  ⟨m.elements ++ [{ type := type, line := line }]⟩

def update (id : ElementId) (change : Element → Element) : Model :=
  ⟨m.elements.modify id change⟩

def putValues (id : ElementId) (f : FeatureId) (values : List Value) : Model :=
  m.update id fun e => { e with values := e.values.put f values }

def addValue (id : ElementId) (f : FeatureId) (value : Value) : Model :=
  m.putValues id f (m.values id f ++ [value])

def setValue (id : ElementId) (f : FeatureId) (value : Value) : Model := m.putValues id f [value]

/-- Whether an element may still be put into another one. -/
def isFree (child parent : ElementId) : Bool := (m.container child).isNone && parent != child

/-- Puts an element into a feature of another one. An element that is contained already, or is the
same one, is refused. -/
def attach? (parent : ElementId) (f : FeatureId) (child : ElementId) : Option Model :=
  if m.isFree child parent then
    some ((m.update child fun e => { e with container := some (parent, f) }).addValue parent f
      (.element child))
  else none

end Model

end CommandText
