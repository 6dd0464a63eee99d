/-!
# Inheritance order

Classes are worked on in an order in which each one comes after all of its supertypes. The order is
that of a depth-first walk: a class is entered, its supertypes are walked, and then it is added to
the order. A class that is met again before it has been added lies on a cycle.

Classes are given by their index, and `supertypes` lists the indices of the supertypes of each.
-/

namespace CommandText

def supertypesOf (supertypes : List (List Nat)) (c : Nat) : List Nat := supertypes.getD c []

/-- Walks a class: the order extended by the class and what it inherits from, or the class that was
met again. `path` holds the classes entered and not yet added; a walk never enters more classes than
there are, which `bound` counts down. -/
def walk (supertypes : List (List Nat)) (bound : Nat) (path : List Nat) (c : Nat)
    (order : List Nat) : Except Nat (List Nat) :=
  if order.contains c then .ok order
  else if path.contains c then .error c
  else
    match bound with
    | 0 => .ok order
    | bound + 1 => do
      let order ← (supertypesOf supertypes c).foldlM
        (fun order s => walk supertypes bound (c :: path) s order) order
      .ok (order ++ [c])

/-- All classes in inheritance order, or a class that inherits from itself. -/
def inheritanceOrder (supertypes : List (List Nat)) : Except Nat (List Nat) :=
  (List.range supertypes.length).foldlM
    (fun order c => walk supertypes supertypes.length [] c order) []

end CommandText
