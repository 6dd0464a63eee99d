import CommandText.Binding.Basic

/-!
# Placing children

A child goes into the containment that its role label names, or without one into the only
containment that takes its class.
-/

namespace CommandText.BuildM

variable {τ : Type}

/-- The line on which problems of a child are told. -/
def childLine (m : Model) (child : ElementId) : Nat := (m.elementAt child).line.getD 0

def attachInRole (s : Schema) (parent : ElementId) (f : FeatureId) (child : ElementId) :
    BuildM τ Unit := do
  let m ← getModel
  let feature := s.featureAt f
  let line := childLine m child
  match feature.target? with
  | none => return ()
  | some target =>
    if !s.conforms (m.classOf child) target then
      problem (.wrongClass feature.name (s.className (m.classOf child))
        ((s.concreteSubtypes target).map s.className)) line
    else if !feature.many && m.isSet parent f then
      problem (.singleChildOnly feature.name) line
    else
      match m.attach? parent f child with
      | some changed => change fun _ => changed
      | none => problem .containedElsewhere line

/-- Puts a child that has no role label into the containment that takes it. -/
def attachUnlabeled (s : Schema) (parent child : ElementId) : BuildM τ Unit := do
  let m ← getModel
  let line := childLine m child
  match s.containmentsAccepting (m.classOf parent) (m.classOf child) with
  | [] => problem (.notContained (s.commandOf (m.classOf child))) line
  | [f] =>
    if (s.featureAt f).labeled then problem .ambiguousRole line
    else attachInRole s parent f child
  | _ => problem .ambiguousRole line

/-- Places the children of one member of a block. -/
def placeMember (s : Schema) (parent : ElementId) : Member ElementId → BuildM τ Unit
  | .child child => attachUnlabeled s parent child
  | .role label children _ => do
    let m ← getModel
    match s.featureNamed? (m.classOf parent) label.text with
    | none => problem (.unknownRole label.text) label.line
    | some f =>
      if (s.featureAt f).isContainment then children.forM (attachInRole s parent f)
      else problem (.noChildrenIn label.text) label.line

def placeChildren (s : Schema) (parent : ElementId) (members : List (Member ElementId)) :
    BuildM τ Unit :=
  members.forM (placeMember s parent)

end CommandText.BuildM
