import CommandText.Statement.Basic

/-!
# Runs of a visitor

Working through entries is a recursion over their tree, with the state of the visitor passed along.
What holds of every single answer of the visitor holds of a whole run, if it can be handed on from
one entry to the next and from a block to its statement. The induction is made here once.
-/

namespace CommandText

/-- The answers that a member hands on, with or without a role. -/
def Member.answers {α : Type} : Member α → List α
  | child a => [a]
  | role _ children _ => children

namespace Entry

variable {σ Scope α : Type} (v : Visitor σ Scope α) (enclosing : Option Scope)

theorem visitAll_cons (x : Entry) (xs : List Entry) (st : σ) :
    visitAll v enclosing (x :: xs) st =
      ((x.visit v enclosing st).1 ++ (visitAll v enclosing xs (x.visit v enclosing st).2).1,
      (visitAll v enclosing xs (x.visit v enclosing st).2).2) := rfl

theorem visitAll_append (xs ys : List Entry) (st : σ) :
    visitAll v enclosing (xs ++ ys) st =
      ((visitAll v enclosing xs st).1 ++ (visitAll v enclosing ys (visitAll v enclosing xs st).2).1,
      (visitAll v enclosing ys (visitAll v enclosing xs st).2).2) := by
  induction xs generalizing st with
  | nil => rfl
  | cons x xs ih => rw [List.cons_append, visitAll_cons, visitAll_cons, ih, List.append_assoc]

end Entry

namespace Visitor

variable {σ Scope α : Type}

/-- A relation that every answer of a visitor keeps. It is given the scope of the enclosing
statement, the state before, the members handed on and the state after. -/
structure Keeps (v : Visitor σ Scope α)
    (P : Option Scope → σ → List (Member α) → σ → Prop) : Prop where
  nil : ∀ enclosing st, P enclosing st [] st
  append : ∀ {enclosing st₁ ms st₂ ms' st₃}, P enclosing st₁ ms st₂ → P enclosing st₂ ms' st₃ →
    P enclosing st₁ (ms ++ ms') st₃
  comment : ∀ enclosing c st, P enclosing st [] (v.comment c st).2
  role : ∀ {enclosing st₁ ms st₂} (label : Token) (list : Bool), P enclosing st₁ ms st₂ →
    P enclosing st₁ [.role label (ms.filterMap Member.child?) list] st₂
  /-- A statement in which reading was given up. -/
  abandon : ∀ {enclosing command st₁ ms st₂},
    P (some (v.enter command enclosing st₁).1) (v.enter command enclosing st₁).2 ms st₂ →
    P enclosing st₁ [] st₂
  leave : ∀ {enclosing command st₁ ms st₂} (arguments : List Argument) (comments : List Comment)
    (note : Option String),
    P (some (v.enter command enclosing st₁).1) (v.enter command enclosing st₁).2 ms st₂ →
    P enclosing st₁
      ((v.leave ⟨command, arguments, ms, comments, note, enclosing.isNone⟩
        (v.enter command enclosing st₁).1 st₂).1.toList.map .child)
      (v.leave ⟨command, arguments, ms, comments, note, enclosing.isNone⟩
        (v.enter command enclosing st₁).1 st₂).2

namespace Keeps

variable {v : Visitor σ Scope α} {P : Option Scope → σ → List (Member α) → σ → Prop}

mutual

theorem visit (h : v.Keeps P) (enclosing : Option Scope) (entry : Entry) (st : σ) :
    P enclosing st (entry.visit v enclosing st).1 (entry.visit v enclosing st).2 := by
  cases entry with
  | comment c => exact h.comment enclosing c st
  | role label list items => exact h.role label list (h.visitAll enclosing items st)
  | statement command arguments body closing =>
    cases closing with
    | none => exact h.abandon (h.visitAll _ body _)
    | some closing => exact h.leave arguments closing.comments closing.note (h.visitAll _ body _)

theorem visitAll (h : v.Keeps P) (enclosing : Option Scope) (entries : List Entry) (st : σ) :
    P enclosing st (Entry.visitAll v enclosing entries st).1
      (Entry.visitAll v enclosing entries st).2 := by
  cases entries with
  | nil => exact h.nil enclosing st
  | cons entry entries =>
    exact h.append (h.visit enclosing entry st) (h.visitAll enclosing entries _)

end

end Keeps

end Visitor

end CommandText
