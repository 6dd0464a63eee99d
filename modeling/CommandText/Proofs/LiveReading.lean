import CommandText.Proofs.EnoughRounds
import CommandText.Proofs.StalledReading
import CommandText.Proofs.Visiting

/-!
# Visiting while reading

A visitor that works through the entries of a text sees them after the whole text has been read. It
may as well be called while the text is being read: told of a command word as soon as it is taken,
and of a statement as soon as it is complete, with the scopes of the open commands on a stack. Both
ways the visitor is called in the same order with the same words and statements, so it ends in the
same state. The live way shows in which states of reading it is called: never once reading has been
given up.
-/

namespace CommandText

open List Entry

variable {bound : Nat} {m : ReadM Body} {word : Token} {isRoot : Bool}

/-- The state of reading and visiting at the same time. -/
structure Live (σ Scope : Type) where
  reading : Reading
  /-- The scopes of the open commands, the innermost first. -/
  scopes : List Scope
  visitor : σ
  /-- The states of reading in which the visitor was called, the latest first. -/
  heard : List Reading

/-- Something that reads and calls a visitor. -/
abbrev LiveM (σ Scope : Type) := StateM (Live σ Scope)

namespace ReadM

/-- The end of a line, with a comment perhaps. -/
def closeLine : ReadM (List Comment) := do
  let comments ← endComment
  lineEnd
  return comments

/-- A bracket and the end of its line. -/
def bracketLine (p : Punct) : ReadM (List Comment) := do
  discard (consume [.punct p])
  closeLine

/-- The end of a line where there is one. -/
def breakLine : ReadM (List Comment) := do
  if ← nextIs fun t => t.isKind .comment || t.isKind .newline then closeLine else return []

/-- The block of a command, if it has one. -/
def ownBlock (members : ReadM Body) : ReadM Body := do
  if ← nextIs (·.isPunct .openBrace) then block members else return ([], [])

instance Moves.closeLine : Moves closeLine := by
  unfold ReadM.closeLine
  infer_instance

instance Moves.bracketLine (p : Punct) : Moves (bracketLine p) := by
  unfold ReadM.bracketLine
  infer_instance

instance Moves.breakLine : Moves breakLine := by
  unfold ReadM.breakLine
  infer_instance

theorem roleBody_eq (items statement : ReadM (List Entry)) : roleBody items statement = do
    if ← nextIs (·.isPunct .openBracket) then return (true, ← elementList items)
    else
      let header ← breakLine
      return (false, ← statement, header) := by
  funext r
  unfold roleBody
  rw [nextIs_bind_apply, nextIs_bind_apply]
  cases r.nextIs (·.isPunct .openBracket) with
  | true => rfl
  | false =>
    rw [if_neg Bool.false_ne_true, if_neg Bool.false_ne_true, nextIs_bind_apply, bind_apply]
    unfold breakLine
    rw [nextIs_bind_apply]
    cases r.nextIs fun t => t.isKind .comment || t.isKind .newline <;> rfl

instance Moves.ownBlock {members : ReadM Body} [Moves members] : Moves (ownBlock members) := by
  unfold ReadM.ownBlock
  infer_instance

theorem command_of_word {r s : Reading} (h : consume [.kind .identifier] r = (some word, s))
    (members : ReadM Body) (above notes : List Token) : command members above notes r =
      (do
        let args ← arguments
        let (body, inner) ← ownBlock members
        let footer ← closeLine
        let closing := Closing.mk (commentOf .above above ++ inner ++ footer) (noteOf notes)
        return [Entry.statement word args body
          (if (← get).halted then none else some closing)]) s := by
  rw [command, bind_apply, h]
  change (arguments >>= _) s = (arguments >>= _) s
  refine bind_agree_at ?_
  rw [bind_apply (ownBlock members), nextIs_bind_apply]
  unfold ownBlock
  rw [nextIs_bind_apply]
  cases Reading.nextIs (arguments s).2 (·.isPunct .openBrace) <;> rfl

theorem looseLines_fst (comments notes : List Token) (r : Reading) :
    (looseLines comments notes r).1 = (commentOf .loose comments).map .comment := by
  cases notes <;> cases comments <;> rfl

end ReadM

namespace Live

open ReadM

variable {σ Scope α β : Type}

/-- Reads without a call. -/
def read (m : ReadM β) : LiveM σ Scope β :=
  fun l => ((m l.reading).1, { l with reading := (m l.reading).2 })

theorem read_nextIs_bind (p : Token → Bool) (f : Bool → LiveM σ Scope β) (l : Live σ Scope) :
    (read (nextIs p) >>= f) l = f (l.reading.nextIs p) l := rfl

theorem read_bind_apply (m : ReadM β) (f : β → LiveM σ Scope α) (l : Live σ Scope) :
    (read m >>= f) l = f (m l.reading).1 { l with reading := (m l.reading).2 } := rfl

theorem unlessHalted_apply (m n : LiveM σ Scope α) (l : Live σ Scope) :
    (do if (← get).reading.halted then m else n : LiveM σ Scope α) l =
      if l.reading.halted then m l else n l := by
  change (if l.reading.halted then m else n : LiveM σ Scope α) l = _
  split <;> rfl

section Run

variable (v : Visitor σ Scope α)

/-- Tells the visitor of a command word. -/
def enter (word : Token) : LiveM σ Scope Unit := fun l =>
  let (scope, st) := v.enter word l.scopes.head? l.visitor
  ((), { l with scopes := scope :: l.scopes, visitor := st, heard := l.reading :: l.heard })

/-- Tells the visitor of the statement of the innermost open command. -/
def leave (statement : Statement α) : LiveM σ Scope (Option α) := fun l =>
  match l.scopes with
  | [] => (none, l)
  | scope :: scopes =>
    let (answer, st) := v.leave statement scope l.visitor
    (answer, { l with scopes := scopes, visitor := st, heard := l.reading :: l.heard })

/-- Tells the visitor of a comment above no command. -/
def comment (c : Comment) : LiveM σ Scope Unit := fun l =>
  ((), { l with visitor := (v.comment c l.visitor).2, heard := l.reading :: l.heard })

/-- What a block says: its members, and the comments that belong to the statement around it. -/
abbrev Answered (α : Type) := List (Member α) × List Comment

/-- A block, given a reader for its members. -/
def block (members : LiveM σ Scope (Answered α)) : LiveM σ Scope (Answered α) := do
  let header ← read (bracketLine .openBrace)
  let (children, comments) ← members
  discard (read (consume [.punct .closeBrace]))
  return (children, header ++ comments)

/-- The block of a command, if it has one. -/
def ownBlock (members : LiveM σ Scope (Answered α)) : LiveM σ Scope (Answered α) := do
  if ← read (nextIs (·.isPunct .openBrace)) then block members else return ([], [])

/-- A list of statements in brackets, given a reader for them. -/
def elementList (items : LiveM σ Scope (List α)) : LiveM σ Scope (List α × List Comment) := do
  let header ← read (bracketLine .openBracket)
  let children ← items
  let footer ← read (bracketLine .closeBracket)
  return (children, header ++ footer)

/-- What follows a role label. -/
def roleBody (items : LiveM σ Scope (List α)) (statement : LiveM σ Scope (Option α)) :
    LiveM σ Scope (Bool × List α × List Comment) := do
  if ← read (nextIs (·.isPunct .openBracket)) then return (true, ← elementList items)
  else
    let header ← read breakLine
    return (false, (← statement).toList, header)

/-- Comment and note lines above no command. -/
def looseLines (comments notes : List Token) : LiveM σ Scope (Option α) := do
  (commentOf .loose comments).forM (comment v)
  discard (read (ReadM.looseLines comments notes))
  return none

/-- A command with its arguments and its block. -/
def command (isRoot : Bool) (members : LiveM σ Scope (Answered α)) (above notes : List Token) :
    LiveM σ Scope (Option α) := do
  match ← read (consume [.kind .identifier]) with
  | none =>
    read (modify Reading.resync)
    return none
  | some word =>
    enter v word
    let args ← read arguments
    let (children, inner) ← ownBlock members
    let footer ← read closeLine
    if (← get).reading.halted then return none
    else
      leave v
        ⟨word, args, children, commentOf .above above ++ inner ++ footer, noteOf notes, isRoot⟩

mutual

/-- A statement, or where `isLoose` allows it comment lines above no command. -/
def statement (isRoot : Bool) : Nat → Bool → LiveM σ Scope (Option α)
  | 0, _ => return none
  | bound + 1, isLoose => do
    let comments ← read (lineBlock .comment)
    let notes ← read (lineBlock .note)
    if (← get).reading.halted then return none
    else if !(← read (nextIs (·.isKind .identifier))) && isLoose then looseLines v comments notes
    else command v isRoot (members bound) comments notes

/-- The members of a block up to its closing brace. -/
def members : Nat → LiveM σ Scope (Answered α)
  | 0 => return ([], [])
  | bound + 1 => do
    if !(← read (nextIs fun t => !t.isPunct .closeBrace)) then return ([], [])
    else if ← read (nextIs (·.isKind .label)) then
      let label ← read take
      let (list, children, comments) ←
        roleBody (items (some .closeBracket) false bound) (statement false bound false)
      let (later, laterComments) ← members bound
      return (label.toList.map (.role · children list) ++ later, comments ++ laterComments)
    else
      let child ← statement false bound true
      let (later, comments) ← members bound
      return (child.toList.map .child ++ later, comments)

/-- Statements up to a bracket, or up to the end of the text. -/
def items (stop : Option Punct) (isRoot : Bool) : Nat → LiveM σ Scope (List α)
  | 0 => return []
  | bound + 1 => do
    if !(← read (nextIs fun t => !stop.any t.isPunct)) then return []
    else
      let child ← statement isRoot bound true
      return child.toList ++ (← items stop isRoot bound)

end

/-- Reads a list of tokens, and calls a visitor on the way. -/
def run (tokens : List Token) (st : σ) : List α × Live σ Scope :=
  items v none true (2 * tokens.length + 2) ⟨{ rest := tokens }, [], st, []⟩

end Run

/-! ### Doing the same -/

/-- A live reader, which leads from `l` to `l'`, does what reading some entries, with the state
`r` behind them, and visiting them afterwards does. Unless reading has been given up, its answer
agrees with the members that visiting gives. -/
structure Mirrors (v : Visitor σ Scope α) (l : Live σ Scope) (es : List Entry) (r : Reading)
    (l' : Live σ Scope) (Agrees : List (Member α) → Prop) : Prop where
  reading : l'.reading = r
  visitor : l'.visitor = (visitAll v l.scopes.head? es l.visitor).2
  heard : ∀ s ∈ l'.heard, s ∈ l.heard ∨ s.halted = false
  answers : r.halted = false →
    l'.scopes = l.scopes ∧ Agrees (visitAll v l.scopes.head? es l.visitor).1

namespace Mirrors

variable {v : Visitor σ Scope α} {l l' l'' : Live σ Scope} {es es' : List Entry} {r r' : Reading}
  {A B C : List (Member α) → Prop}

theorem mono (h : Mirrors v l es r l' A) (hAB : ∀ ms, r.halted = false → A ms → B ms) :
    Mirrors v l es r l' B :=
  ⟨h.reading, h.visitor, h.heard, fun hr => ⟨(h.answers hr).1, hAB _ hr (h.answers hr).2⟩⟩

theorem silent (s : Reading) (hA : A []) : Mirrors v l [] s { l with reading := s } A :=
  ⟨rfl, rfl, fun _ hs => .inl hs, fun _ => ⟨rfl, hA⟩⟩

theorem read_then {s : Reading} (h : Mirrors v { l with reading := s } es r l' A) :
    Mirrors v l es r l' A :=
  ⟨h.reading, h.visitor, h.heard, h.answers⟩

theorem then_read (m : ReadM β) [hm : Moves m] (h : Mirrors v l es r l' A) :
    Mirrors v l es (m r).2 (read m l').2 A :=
  ⟨congrArg (fun r => (m r).2) h.reading, h.visitor, h.heard,
    fun hr => h.answers ((hm.reaches r).halted_eq_false hr)⟩

theorem trans (h : Mirrors v l es r l' A) (h' : Mirrors v l' es' r' l'' B) (hreach : r.Reaches r')
    (hhalted : r.halted = true → es' = []) (hC : ∀ ms ms', A ms → B ms' → C (ms ++ ms')) :
    Mirrors v l (es ++ es') r' l'' C := by
  -- unless reading has been given up in between, the second part begins with the same scopes
  have hscope : visitAll v l'.scopes.head? es' l'.visitor =
      visitAll v l.scopes.head? es' (visitAll v l.scopes.head? es l.visitor).2 := by
    rw [h.visitor]
    cases hr : r.halted with
    | true =>
      rw [hhalted hr]
      rfl
    | false => rw [(h.answers hr).1]
  refine ⟨h'.reading, ?_, fun s hs => ?_, fun hr' => ?_⟩
  · rw [h'.visitor, hscope, visitAll_append]
  · exact (h'.heard s hs).elim (h.heard s) .inr
  · have hr := hreach.halted_eq_false hr'
    have hB := (h'.answers hr').2
    rw [hscope] at hB
    rw [visitAll_append]
    exact ⟨(h'.answers hr').1.trans (h.answers hr).1, hC _ _ (h.answers hr).2 hB⟩

theorem role (label : Token) (list : Bool) (h : Mirrors v l es r l' A) :
    Mirrors v l [.role label list es] r l' fun ms =>
      ∃ ms', A ms' ∧ ms = [.role label (ms'.filterMap Member.child?) list] :=
  ⟨h.reading, h.visitor, h.heard, fun hr => ⟨(h.answers hr).1, _, (h.answers hr).2, rfl⟩⟩

theorem labeled {role : (Bool × Body) × Reading}
    {live : (Bool × List α × List Comment) × Live σ Scope} {later : Body × Reading}
    {liveLater : Answered α × Live σ Scope}
    (h : Mirrors v l role.1.2.1 role.2 live.2 fun ms =>
      ms = live.1.2.1.map .child ∧ live.1.1 = role.1.1 ∧ live.1.2.2 = role.1.2.2)
    (h' : Mirrors v live.2 later.1.1 later.2 liveLater.2 fun ms => liveLater.1 = (ms, later.1.2))
    (hreach : role.2.Reaches later.2) (hhalted : role.2.halted = true → later.1.1 = [])
    (label : Token) :
    Mirrors v l (.role label role.1.1 role.1.2.1 :: later.1.1) later.2 liveLater.2 fun ms =>
      (Member.role label live.1.2.1 live.1.1 :: liveLater.1.1, live.1.2.2 ++ liveLater.1.2) =
        (ms, role.1.2.2 ++ later.1.2) := by
  refine (h.role label role.1.1).trans h' hreach hhalted ?_
  rintro _ ms' ⟨ms, ⟨rfl, hlist, hcomments⟩, rfl⟩ hms'
  have hchildren : (live.1.2.1.map Member.child).filterMap Member.child? = live.1.2.1 := by
    rw [filterMap_map]
    exact filterMap_some
  rw [hchildren, hlist, hcomments, hms']
  rfl

theorem abandon (hl : l.reading.halted = false) (h : Mirrors v (Live.enter v word l).2 es r l' A)
    (hr : r.halted = true) (args : List Argument) :
    Mirrors v l [.statement word args es none] r l' B := by
  refine ⟨h.reading, h.visitor, fun s hs => ?_, fun hr' => ?_⟩
  · rcases h.heard s hs with hs | hs
    · exact (mem_cons.mp hs).elim (fun hs => .inr (hs ▸ hl)) .inl
    · exact .inr hs
  · rw [hr] at hr'
    cases hr'

theorem leave {children : List (Member α)} (hl : l.reading.halted = false)
    (h : Mirrors v (Live.enter v word l).2 es r l' (· = children)) (hr : r.halted = false)
    (args : List Argument) (closing : Closing) :
    Mirrors v l [.statement word args es (some closing)] r
      (Live.leave v ⟨word, args, children, closing.comments, closing.note,
        l.scopes.head?.isNone⟩ l').2
      (· = (Live.leave v ⟨word, args, children, closing.comments, closing.note,
        l.scopes.head?.isNone⟩ l').1.toList.map .child) := by
  obtain ⟨hscopes, rfl⟩ := h.answers hr
  have hscopes' : l'.scopes = (v.enter word l.scopes.head? l.visitor).1 :: l.scopes := hscopes
  rw [Live.leave, hscopes']
  refine ⟨h.reading, congrArg (fun st => (v.leave _ _ st).2) h.visitor, fun s hs => ?_,
    fun _ => ⟨rfl, ?_⟩⟩
  · rcases mem_cons.mp hs with rfl | hs
    · exact .inr (h.reading ▸ hr)
    · rcases h.heard s hs with hs | hs
      · exact (mem_cons.mp hs).elim (fun hs => .inr (hs ▸ hl)) .inl
      · exact .inr hs
  · rw [h.visitor]
    exact append_nil _

end Mirrors

/-- Whether the next statement is one on root level. -/
def Rooted (isRoot : Bool) (l : Live σ Scope) : Prop :=
  l.reading.halted = false → isRoot = l.scopes.head?.isNone

theorem Rooted.read {l : Live σ Scope} (h : Rooted isRoot l) (m : ReadM β) [hm : Moves m] :
    Rooted isRoot (read m l).2 :=
  fun hr => h ((hm.reaches l.reading).halted_eq_false hr)

theorem Mirrors.rooted {v : Visitor σ Scope α} {l l' : Live σ Scope} {es : List Entry} {r : Reading}
    {A : List (Member α) → Prop} (h : Mirrors v l es r l' A) (hreach : l.reading.Reaches r)
    (hl : Rooted isRoot l) : Rooted isRoot l' := by
  intro hr
  rw [h.reading] at hr
  rw [(h.answers hr).1]
  exact hl (hreach.halted_eq_false hr)

section Readers

variable {v : Visitor σ Scope α} {L : LiveM σ Scope (Answered α)}

/-- A live reader of members. -/
def MembersMirror (v : Visitor σ Scope α) (L : LiveM σ Scope (Answered α)) (m : ReadM Body) :
    Prop :=
  ∀ l, Rooted false l → Mirrors v l (m l.reading).1.1 (m l.reading).2 (L l).2
    fun ms => (L l).1 = (ms, (m l.reading).1.2)

/-- A live reader of statements. -/
def ItemsMirror (v : Visitor σ Scope α) (isRoot : Bool) (L : LiveM σ Scope (List α))
    (m : ReadM (List Entry)) : Prop :=
  ∀ l, Rooted isRoot l → Mirrors v l (m l.reading).1 (m l.reading).2 (L l).2
    (· = (L l).1.map .child)

/-- A live reader of one statement. -/
def StatementMirrors (v : Visitor σ Scope α) (isRoot : Bool) (L : LiveM σ Scope (Option α))
    (m : ReadM (List Entry)) : Prop :=
  ∀ l, Rooted isRoot l → Mirrors v l (m l.reading).1 (m l.reading).2 (L l).2
    (· = (L l).1.toList.map .child)

theorem mirrors_block [Moves m] (hm : MembersMirror v L m) :
    MembersMirror v (block L) (ReadM.block m) := by
  intro l hl
  have hmembers := hm _ (hl.read (bracketLine .openBrace))
  refine ((hmembers.then_read (discard (ReadM.consume [.punct .closeBrace]))).read_then).mono
    fun ms _ hms => ?_
  exact congrArg (fun b : Answered α => (b.1, _ ++ b.2)) hms

theorem mirrors_ownBlock [Moves m] (hm : MembersMirror v L m) :
    MembersMirror v (ownBlock L) (ReadM.ownBlock m) := by
  intro l hl
  rw [ownBlock, ReadM.ownBlock, read_nextIs_bind, nextIs_bind_apply]
  cases l.reading.nextIs (·.isPunct .openBrace) with
  | true => exact mirrors_block hm l hl
  | false => exact .silent _ rfl

theorem mirrors_elementList {L : LiveM σ Scope (List α)} {m : ReadM (List Entry)} [Moves m]
    (hm : ItemsMirror v false L m) (l : Live σ Scope) (hl : Rooted false l) :
    Mirrors v l (ReadM.elementList m l.reading).1.1 (ReadM.elementList m l.reading).2
      (elementList L l).2 fun ms => ms = (elementList L l).1.1.map .child ∧
        (elementList L l).1.2 = (ReadM.elementList m l.reading).1.2 := by
  have hitems := hm _ (hl.read (bracketLine .openBracket))
  refine (hitems.then_read (bracketLine .closeBracket)).read_then.mono fun ms _ hms => ⟨hms, ?_⟩
  exact congrArg (fun r => _ ++ (bracketLine .closeBracket r).1) hitems.reading

theorem mirrors_roleBody {Li : LiveM σ Scope (List α)} {mi : ReadM (List Entry)} [Moves mi]
    (hi : ItemsMirror v false Li mi) {Ls : LiveM σ Scope (Option α)} {ms : ReadM (List Entry)}
    [Moves ms] (hs : StatementMirrors v false Ls ms) (l : Live σ Scope) (hl : Rooted false l) :
    Mirrors v l (ReadM.roleBody mi ms l.reading).1.2.1 (ReadM.roleBody mi ms l.reading).2
      (roleBody Li Ls l).2 fun answers => answers = (roleBody Li Ls l).1.2.1.map .child ∧
        (roleBody Li Ls l).1.1 = (ReadM.roleBody mi ms l.reading).1.1 ∧
        (roleBody Li Ls l).1.2.2 = (ReadM.roleBody mi ms l.reading).1.2.2 := by
  rw [roleBody, roleBody_eq, read_nextIs_bind, nextIs_bind_apply]
  cases l.reading.nextIs (·.isPunct .openBracket) with
  | true =>
    exact (mirrors_elementList hi l hl).mono fun _ _ h => ⟨h.1, rfl, h.2⟩
  | false =>
    exact (hs _ (hl.read breakLine)).read_then.mono fun _ _ h => ⟨h, rfl, rfl⟩

theorem mirrors_looseLines (comments notes : List Token) (l : Live σ Scope)
    (hl : l.reading.halted = false) :
    Mirrors v l (ReadM.looseLines comments notes l.reading).1
      (ReadM.looseLines comments notes l.reading).2 (looseLines v comments notes l).2
      (· = (looseLines v comments notes l).1.toList.map .child) := by
  rw [looseLines_fst]
  cases comments with
  | nil => exact ⟨rfl, rfl, fun _ hs => .inl hs, fun _ => ⟨rfl, rfl⟩⟩
  | cons t ts =>
    refine ⟨rfl, rfl, fun s hs => ?_, fun _ => ⟨rfl, rfl⟩⟩
    rcases mem_cons.mp hs with rfl | hs
    · exact .inr hl
    · exact .inl hs

theorem mirrors_command [Moves m] (hm : MembersMirror v L m) (isRoot : Bool)
    (above notes : List Token) :
    StatementMirrors v isRoot (command v isRoot L above notes) (ReadM.command m above notes) := by
  intro l hl
  generalize hc : ReadM.consume [.kind .identifier] l.reading = c
  obtain ⟨word, s⟩ := c
  cases word with
  | none =>
    have hread : ReadM.command m above notes l.reading = ([], s.resync) := by
      rw [ReadM.command, bind_apply, hc]
      rfl
    have hlive : command v isRoot L above notes l = (none, { l with reading := s.resync }) := by
      rw [command, read_bind_apply, hc]
      rfl
    rw [hread, hlive]
    exact .silent _ rfl
  | some word =>
    obtain ⟨hhalted, hs⟩ := Reading.halted_of_consume hc
    -- the block is read with the scope of the command on the stack
    let l₁ : Live σ Scope := { l with reading := s }
    let block := ownBlock L (read arguments (enter v word l₁).2).2
    let body := ReadM.ownBlock m (arguments s).2
    have hblock := mirrors_ownBlock hm (read arguments (enter v word l₁).2).2 fun _ => rfl
    have hline : Mirrors v (enter v word l₁).2 _ _ _ _ := (hblock.then_read closeLine).read_then
    have hlive : command v isRoot L above notes l =
        if (read closeLine block.2).2.reading.halted then (none, (read closeLine block.2).2)
        else leave v ⟨word, (arguments s).1, block.1.1, commentOf .above above ++ block.1.2 ++
          (closeLine block.2.reading).1, noteOf notes, isRoot⟩ (read closeLine block.2).2 := by
      rw [command, read_bind_apply, hc]
      exact unlessHalted_apply _ _ _
    have hread : ReadM.command m above notes l.reading =
        ([.statement word (arguments s).1 body.1.1 (if (closeLine body.2).2.halted then none else
          some ⟨commentOf .above above ++ body.1.2 ++ (closeLine body.2).1, noteOf notes⟩)],
        (closeLine body.2).2) := command_of_word hc m above notes
    have hhalt : (read closeLine block.2).2.reading.halted = (closeLine body.2).2.halted :=
      congrArg Reading.halted hline.reading
    cases hend : (closeLine body.2).2.halted with
    | true =>
      rw [hread, hlive, hhalt, hend, if_pos rfl, if_pos rfl]
      exact (Mirrors.abandon (l := l₁) hs hline hend _).read_then
    | false =>
      have hanswers := (hline.answers hend).2
      have hinner : block.1.2 = body.1.2 := congrArg Prod.snd hanswers
      have hfooter : (closeLine block.2.reading).1 = (closeLine body.2).1 :=
        congrArg (fun r => (closeLine r).1) hblock.reading
      rw [hread, hlive, hhalt, hend, if_neg Bool.false_ne_true, if_neg Bool.false_ne_true, hinner,
        hfooter, hl hhalted]
      have hchildren := hline.mono (B := (· = block.1.1)) fun ms _ h => (congrArg Prod.fst h).symm
      exact (Mirrors.leave (l := l₁) hs hchildren hend _ ⟨_, _⟩).read_then

theorem statementMirrors_succ (hm : MembersMirror v (members v bound) (ReadM.members bound))
    (isRoot isLoose : Bool) : StatementMirrors v isRoot (statement v isRoot (bound + 1) isLoose)
      (ReadM.statement (bound + 1) isLoose) := by
  intro l hl
  have hlines := (hl.read (lineBlock .comment)).read (lineBlock .note)
  rw [statement, ReadM.statement, read_bind_apply, read_bind_apply, unlessHalted_apply, bind_apply,
    bind_apply, ReadM.unlessHalted_apply]
  cases hhalted : (lineBlock .note (lineBlock .comment l.reading).2).2.halted with
  | true =>
    rw [if_pos rfl, if_pos rfl]
    exact .silent _ rfl
  | false =>
    rw [if_neg Bool.false_ne_true, if_neg Bool.false_ne_true, read_nextIs_bind, nextIs_bind_apply]
    split
    · exact (mirrors_looseLines _ _ _ hhalted).read_then
    · exact (mirrors_command hm isRoot _ _ _ hlines).read_then.read_then

theorem membersMirror_succ
    (hs : ∀ isLoose, StatementMirrors v false (statement v false bound isLoose)
      (ReadM.statement bound isLoose))
    (hm : MembersMirror v (members v bound) (ReadM.members bound))
    (hi : ItemsMirror v false (items v (some .closeBracket) false bound)
      (ReadM.items (some .closeBracket) bound)) :
    MembersMirror v (members v (bound + 1)) (ReadM.members (bound + 1)) := by
  intro l hl
  rw [members, ReadM.members, read_nextIs_bind, nextIs_bind_apply]
  cases hnext : l.reading.nextIs fun t => !t.isPunct .closeBrace with
  | false => exact .silent _ rfl
  | true =>
    rw [Bool.not_true, if_neg Bool.false_ne_true, if_neg Bool.false_ne_true, read_nextIs_bind,
      nextIs_bind_apply]
    cases hlabel : l.reading.nextIs (·.isKind .label) with
    | true =>
      obtain ⟨t, ht, -⟩ := Reading.exists_next?_of_nextIs hlabel
      have htoken : take l.reading = (some t, l.reading.advance) := Prod.ext ht rfl
      have hrooted : Rooted false { l with reading := l.reading.advance } := hl.read take
      have hrole := mirrors_roleBody hi (hs false) _ hrooted
      have hlater := hm _ (hrole.rooted (Moves.reaches _) hrooted)
      rw [hrole.reading] at hlater
      have hmembers := hrole.labeled hlater (Moves.reaches _)
        (fun h => congrArg (·.1.1) (members_of_halted h bound)) t
      rw [if_pos rfl, if_pos rfl, read_bind_apply, bind_apply take, htoken]
      exact hmembers.read_then
    | false =>
      have hstatement := hs true l hl
      have hlater := hm _ (hstatement.rooted (Moves.reaches _) hl)
      rw [hstatement.reading] at hlater
      refine hstatement.trans hlater (Moves.reaches _) (fun h => ?_) fun ms ms' hms hms' => ?_
      · rw [members_of_halted h]
      · rw [hms]
        exact congrArg (fun b : Answered α => (_ ++ b.1, b.2)) hms'

theorem itemsMirror_succ {stop : Option Punct}
    (hs : StatementMirrors v isRoot (statement v isRoot bound true) (ReadM.statement bound true))
    (hi : ItemsMirror v isRoot (items v stop isRoot bound) (ReadM.items stop bound)) :
    ItemsMirror v isRoot (items v stop isRoot (bound + 1)) (ReadM.items stop (bound + 1)) := by
  intro l hl
  rw [items, ReadM.items, read_nextIs_bind, nextIs_bind_apply]
  cases hnext : l.reading.nextIs fun t => !stop.any t.isPunct with
  | false => exact .silent _ rfl
  | true =>
    rw [Bool.not_true, if_neg Bool.false_ne_true, if_neg Bool.false_ne_true]
    have hstatement := hs l hl
    have hlater := hi _ (hstatement.rooted (Moves.reaches _) hl)
    rw [hstatement.reading] at hlater
    refine hstatement.trans hlater (Moves.reaches _) (fun h => ?_) fun ms ms' hms hms' => ?_
    · rw [items_of_halted h]
    · rw [hms, hms', ← map_append]
      rfl

end Readers

theorem mirrors_recursive (v : Visitor σ Scope α) (bound : Nat) :
    (∀ isRoot isLoose, StatementMirrors v isRoot (statement v isRoot bound isLoose)
      (ReadM.statement bound isLoose)) ∧
    MembersMirror v (members v bound) (ReadM.members bound) ∧
    ∀ stop isRoot, ItemsMirror v isRoot (items v stop isRoot bound) (ReadM.items stop bound) := by
  induction bound with
  | zero =>
    exact ⟨fun _ _ _ _ => .silent _ rfl, fun _ _ => .silent _ rfl, fun _ _ _ _ => .silent _ rfl⟩
  | succ bound ih =>
    obtain ⟨ihs, ihm, ihi⟩ := ih
    exact ⟨statementMirrors_succ ihm, membersMirror_succ (ihs false) ihm (ihi _ false),
      fun stop isRoot => itemsMirror_succ (ihs isRoot true) (ihi stop isRoot)⟩

/-- Calling a visitor on the way is the same as reading a text and visiting its entries then. -/
theorem mirrors_run (v : Visitor σ Scope α) (tokens : List Token) (st : σ) :
    Mirrors v ⟨{ rest := tokens }, [], st, []⟩ (readAll tokens).1 (readAll tokens).2
      (run v tokens st).2 (· = (run v tokens st).1.map .child) :=
  (mirrors_recursive v (2 * tokens.length + 2)).2.2 none true _ fun _ => rfl

end Live

/-- Reading always makes progress. No round of it is cut short; at a token at most four others are
called for in vain before it is passed over; it ends with the last token, or else its last problem
is the one by which it was given up. A visitor that is called on the way is not called after that,
and does what it would do with the entries of the whole text. -/
theorem reading_progresses {σ Scope α : Type} (v : Visitor σ Scope α) (tokens : List Token)
    (st : σ) :
    RoundsEnd tokens ∧
    (∀ unread, 0 < unread → (readAll tokens).2.missesAt unread ≤ 4) ∧
    ((readAll tokens).2.rest = [] ∨ (readAll tokens).2.halted = true ∧
      ∃ p, (parse tokens).problems.getLast? = some p ∧ p.message = "Internal error") ∧
    (Live.run v tokens st).2.reading = (readAll tokens).2 ∧
    (Live.run v tokens st).2.visitor = (visitAll v none (parse tokens).entries st).2 ∧
    ∀ r ∈ (Live.run v tokens st).2.heard, r.halted = false := by
  have hrun := Live.mirrors_run v tokens st
  refine ⟨roundsEnd tokens, fun _ => missesAt_readAll tokens, ?_, hrun.reading, hrun.visitor,
    fun r hr => (hrun.heard r hr).resolve_left not_mem_nil⟩
  refine (readAll_ends tokens).imp_right fun hhalted => ⟨hhalted, ?_⟩
  have hreach : (Reading.quiet tokens 1).Reaches (readAll tokens).2 :=
    (ReadM.Moves.items none (2 * tokens.length + 2)).reaches (Reading.quiet tokens 1)
  obtain ⟨line, hlast⟩ := hreach.getLast?_problems hhalted
  exact ⟨_, hlast, rfl⟩

end CommandText
