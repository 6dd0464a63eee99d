import CommandText.Pattern.Expression
import CommandText.Text.Word

/-!
# Patterns

A pattern finds references in a text. It is an automaton whose states either take a character, test
the place, branch or accept. A branch prefers its first way to its second.

## Implementation notes

The search keeps all the states that the automaton can be in at a place, in the order of
preference, and passes over the text once. A state that is reached in several ways is kept for the
preferred one only. So the time is bounded by the number of states times the length of the text,
and a repetition whose round takes nothing ends where it comes back to itself.
-/

namespace CommandText

/-- A state of an automaton. States are known by their numbers. -/
inductive PatternState
  | accept
  | take (set : CharSet) (next : Nat)
  /-- Goes on if the place fulfils a condition. -/
  | test (anchor : Anchor) (next : Nat)
  /-- Goes on in two ways, of which the first is preferred. -/
  | branch (first second : Nat)
deriving Repr, DecidableEq

/-- An automaton that finds a kind of text. -/
structure Pattern where
  states : Array PatternState
  /-- The state in which a match starts. -/
  first : Nat
  /-- Whether matches only start at the start of the text. -/
  atStart : Bool
deriving Repr, DecidableEq

/-! ### The automaton of an expression -/

namespace Expression

/-- The state in which an expression starts, and all states so far. -/
abbrev Built := Nat × Array PatternState

def push (state : PatternState) (states : Array PatternState) : Built :=
  (states.size, states.push state)

/-- The branch between a further round and what comes after the rounds. -/
def fork (greedy : Bool) (again after : Nat) : PatternState :=
  if greedy then .branch again after else .branch after again

/-- Adds the states of an expression that goes on in the state `next`. A loop whose round may take
nothing has a branch of its own in front, so that the first round is never taken for a return. -/
def build : Expression → Nat → Array PatternState → Built
  | empty, next, states => (next, states)
  | one set, next, states => push (.take set next) states
  | anchor a, next, states => push (.test a next) states
  | seq a b, next, states =>
    let (second, states) := b.build next states
    a.build second states
  | alt a b, next, states =>
    let (left, states) := a.build next states
    let (right, states) := b.build next states
    push (.branch left right) states
  | group _ a, next, states => a.build next states
  | rounds low none greedy a, next, states =>
    let loop := states.size
    let (round, states) := a.build loop (states.push .accept)
    let states := states.setIfInBounds loop (fork greedy round next)
    match low with
    | 0 => if a.takesSome then (loop, states) else push (fork greedy round next) states
    | low + 1 => low.repeat (fun (next, states) => a.build next states) (round, states)
  | rounds low (some high) greedy a, next, states =>
    low.repeat (fun (next, states) => a.build next states) <|
      (high - low).repeat (fun (after, states) =>
        let (round, states) := a.build after states
        push (fork greedy round next) states) (next, states)

end Expression

namespace Pattern

def ofExpression (e : Expression) : Pattern :=
  let (first, states) := e.build 0 #[.accept]
  ⟨states, first, e.startsText⟩

/-! ### Search -/

/-- A place in a text. -/
structure Place where
  /-- How many characters stand before it. -/
  offset : Nat
  before : Option Char
  rest : List Char
deriving Repr, DecidableEq

/-- Whether exactly one side of a place is a word character. -/
def Place.isBoundary (p : Place) : Bool :=
  (match p.before with
    | none => false
    | some c => isWord c) != startsWithWord p.rest

def Place.fulfils (p : Place) : Anchor → Bool
  | .start => p.before.isNone
  | .stop => p.rest.isEmpty
  | .boundary => p.isBoundary
  | .inside => !p.isBoundary

/-- A match under way that needs a character of a set to go on. -/
structure Thread where
  /-- The offset where the match started. -/
  start : Nat
  set : CharSet
  /-- The state behind the character. -/
  next : Nat
deriving Repr, DecidableEq

/-- The states reached at a place. -/
structure Frontier where
  seen : Array Bool
  /-- The matches that can go on, the preferred one last. -/
  threads : List Thread
  /-- The offset where a match started that is complete here. It is preferred to all that could
  still be reached. -/
  complete : Option Nat
deriving Repr, DecidableEq

def noFrontier (p : Pattern) : Frontier := ⟨Array.replicate p.states.size false, [], none⟩

/-- What is reached from some states without taking a character, those of the first state before
those of the next, until a match is complete. `seen` and `threads` are what was reached before, and
`n` bounds the number of steps. -/
def reach (p : Pattern) (place : Place) (start : Nat) :
    Nat → List Nat → Array Bool → List Thread → Frontier
  | 0, _, seen, threads | _, [], seen, threads => ⟨seen, threads, none⟩
  | n + 1, i :: rest, seen, threads =>
    if seen.getD i true then reach p place start n rest seen threads
    else
      let seen := seen.setIfInBounds i true
      match p.states[i]? with
      | some (.branch a b) => reach p place start n (a :: b :: rest) seen threads
      | some (.test anchor next) =>
        if place.fulfils anchor then reach p place start n (next :: rest) seen threads
        else reach p place start n rest seen threads
      | some (.take set next) => reach p place start n rest seen (⟨start, set, next⟩ :: threads)
      | some .accept => ⟨seen, threads, some start⟩
      | none => reach p place start n rest seen threads

/-- Reaches the states that can be had from a state, unless a match is complete. Each state is left
at most once, and then for at most two others. -/
def enter (p : Pattern) (place : Place) (start state : Nat) : Frontier → Frontier
  | ⟨seen, threads, none⟩ =>
    p.reach place start (2 * p.states.size + 1) [state] seen threads
  | f => f

/-- What the threads that take a character reach at the place behind it. -/
def step (p : Pattern) (c : Char) (behind : Place) (threads : List Thread) : Frontier :=
  threads.foldl (fun (f : Frontier) (t : Thread) =>
    if t.set.contains c then p.enter behind t.start t.next f else f) p.noFrontier

/-- Where a match starts and stops, as numbers of characters in front. -/
structure Match where
  start : Nat
  stop : Nat
deriving Repr, DecidableEq

/-- The match in the rest of a text, or else the one found before. A new match is only started while
none was found. -/
def search (p : Pattern) (found : Option Match) (offset : Nat) (before : Option Char)
    (f : Frontier) (rest : List Char) : Option Match :=
  let f :=
    if found.isNone && (offset == 0 || !p.atStart) then
      p.enter ⟨offset, before, rest⟩ offset p.first f
    else f
  let found := (f.complete.map fun start => ⟨start, offset⟩).or found
  match rest with
  | [] => found
  | c :: rest =>
    if f.threads.isEmpty && (found.isSome || p.atStart) then found
    else
      let behind : Place := ⟨offset + 1, some c, rest⟩
      p.search found (offset + 1) (some c) (p.step c behind f.threads.reverse) rest

def find? (p : Pattern) (text : List Char) : Option Match := p.search none 0 none p.noFrontier text

/-! ### The stock pattern -/

/-- Any number of word characters. -/
def stockWord : Expression := .rounds 0 none true (.one .word)

/-- The stock reference pattern: words divided by slashes, with at least one slash. -/
def stock : Pattern :=
  .ofExpression (.concat [.anchor .start, stockWord,
    .rounds 1 none true (.group 0 (.concat [.one (.char '/'), stockWord]))])

end Pattern

end CommandText
