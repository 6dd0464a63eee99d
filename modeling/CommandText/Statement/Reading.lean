import CommandText.Problem
import CommandText.Statement.Basic

/-!
# Reading tokens

The state in which statements are read: the tokens not yet read and what went wrong so far. A place
calls for certain tokens; if another one stands there, it is left alone and a problem is told, but
only one until some token fits again. A piece of text that is no token is always passed over and
told. After too many misses in a row reading is given up.

## Implementation notes

Misses are logged whether they are told or not, with the number of tokens unread at that moment, so
that the log shows where reading stood each time. Once reading has been given up there is no next
token and nothing is logged any more; everything that reads then comes to its end by itself.
-/

namespace CommandText

/-- Something that did not fit. -/
structure Miss where
  /-- How many tokens were not yet read. -/
  unread : Nat
  fault : Fault
  line : Nat
  /-- Whether it becomes a problem. -/
  told : Bool
deriving DecidableEq, Repr

structure Reading where
  rest : List Token
  /-- The line of the last token passed over. -/
  line : Nat := 1
  /-- A problem has been told since the last token that fitted. -/
  told : Bool := false
  /-- How many misses in a row left a token alone. -/
  failures : Nat := 0
  /-- Reading has been given up. -/
  halted : Bool := false
  /-- The misses, the latest first. -/
  log : List Miss := []
deriving DecidableEq, Repr

namespace Reading

/-- As many misses in a row are put up with. -/
def maxFailures : Nat := 100

def next? (r : Reading) : Option Token := if r.halted then none else r.rest.head?

def nextIs (r : Reading) (p : Token → Bool) : Bool := r.next?.any p

def advance (r : Reading) : Reading :=
  match r.next? with
  | some t => { r with rest := r.rest.tail, line := t.line }
  | none => r

/-- Logs a miss at the next token. -/
def miss (r : Reading) (fault : Fault) (line : Nat) (told : Bool) : Reading :=
  { r with log := ⟨r.rest.length, fault, line, told⟩ :: r.log }

/-- Logs a miss, which is told unless another one has been. -/
def report (r : Reading) (fault : Fault) (line : Nat) : Reading :=
  { r.miss fault line (!r.told) with told := true }

/-- Leaves the next token alone, once too often perhaps. -/
def fail (r : Reading) (line : Nat) : Reading :=
  if r.failures < maxFailures then { r with failures := r.failures + 1 }
  else { r.miss .stuck line true with failures := r.failures + 1, halted := true }

/-- Takes the next token if it fits. -/
def consume (expected : List Expected) (r : Reading) : Option Token × Reading :=
  match r.next? with
  | none =>
    if r.halted then (none, r) else (none, r.report (.unexpectedEnd expected) r.line)
  | some t =>
    if expected.any (·.fits t) then
      (some t, { r.advance with told := false, failures := 0 })
    else
      match t.lexeme with
      | .error text =>
        (none, { (r.miss (.badToken text) t.line true).advance with told := true, failures := 0 })
      | found => (none, (r.report (.unexpected found expected) t.line).fail t.line)

/-- Passes over tokens up to and including the next line end. -/
def skipLine (r : Reading) : Reading :=
  if r.halted then r
  else
    let line := r.rest.takeWhile fun t => !t.isKind .newline
    match r.rest.dropWhile fun t => !t.isKind .newline with
    | newline :: rest => { r with rest := rest, line := newline.line }
    | [] => { r with rest := [], line := (line.getLast?.map (·.line)).getD r.line }

/-- Passes over the rest of a line, unless a closing bracket comes next, which an enclosing block
or list may call for. -/
def resync (r : Reading) : Reading :=
  if r.nextIs fun t => t.isPunct .closeBrace || t.isPunct .closeBracket then r else r.skipLine

def problems (r : Reading) : List Problem :=
  (r.log.reverse.filter (·.told)).map fun m => ⟨m.fault, m.line, none⟩

end Reading

abbrev ReadM := StateM Reading

namespace ReadM

def nextIs (p : Token → Bool) : ReadM Bool := return (← get).nextIs p

def take : ReadM (Option Token) := do
  let r ← get
  set r.advance
  return r.next?

/-- Takes the next token if it fits. -/
def consume (expected : List Expected) : ReadM (Option Token) := Reading.consume expected

/-- The end of a line; the rest of a line that does not end here is passed over. -/
def lineEnd : ReadM Unit := do
  if (← consume [.kind .newline]).isNone then modify Reading.resync

/-- A comment at the end of a line. -/
def endComment : ReadM (List Comment) := do
  if ← nextIs (·.isKind .comment) then
    return (← take).toList.map fun t => ⟨.lineEnd, t.line, t.text⟩
  else return []

/-- Lines that hold a comment or a note and nothing else. -/
def wholeLines (kind : TokenKind) : Nat → ReadM (List Token)
  | 0 => return []
  | bound + 1 => do
    if ← nextIs (·.isKind kind) then
      let first ← take
      discard (consume [.kind .newline])
      return first.toList ++ (← wholeLines kind bound)
    else return []

/-- The lines of the given kind that come next. -/
def lineBlock (kind : TokenKind) : ReadM (List Token) := do
  wholeLines kind (← get).rest.length

end ReadM

end CommandText
