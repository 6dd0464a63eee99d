import CommandText.Proofs.BracketedCalls
import CommandText.Proofs.SpoiledArguments

/-!
# A bad token in the arguments of a command

Where a text is read without a problem, a bad token may be put into the arguments of any command,
inside a list of values too. It is told, and nothing else changes: the entries are the same, and so
is each call of a visitor. The one exception is the place right behind a label, which would be left
without its value.

The text with the bad token is read side by side with the one without it. In front of the command
and behind its arguments the two readings go in step, and within the arguments the bad token has
been dealt with.
-/

namespace CommandText

open List Reading Form Token

variable {line : Nat} {r r' : Reading}

namespace ReadM

variable {o : Spot}

/-! ### Blocks and lists -/

instance Along.closeLine : Along o true closeLine := by
  unfold ReadM.closeLine
  infer_instance

instance Along.bracketLine (p : Punct) : Along o true (bracketLine p) := by
  unfold ReadM.bracketLine
  infer_instance

instance Along.breakLine : Along o true breakLine := by
  unfold ReadM.breakLine
  infer_instance

section Body

variable {members : ReadM Body} [Moves members] [Along o true members]

instance Along.block : Along o true (block members) := by
  change Along o true (do
    let header ← ReadM.bracketLine .openBrace
    let (entries, comments) ← members
    discard (ReadM.consume [.punct .closeBrace])
    return (entries, header ++ comments))
  infer_instance

instance Along.ownBlock : Along o true (ownBlock members) := by
  unfold ReadM.ownBlock
  infer_instance

end Body

instance Along.elementList {items : ReadM (List Entry)} [Moves items] [Along o true items] :
    Along o true (elementList items) := by
  change Along o true (do
    let header ← ReadM.bracketLine .openBracket
    let entries ← items
    let footer ← ReadM.bracketLine .closeBracket
    return (entries, header ++ footer))
  infer_instance

instance Along.roleBody {items statement : ReadM (List Entry)} [Moves items] [Moves statement]
    [Along o true items] [Along o true statement] : Along o true (roleBody items statement) := by
  rw [roleBody_eq]
  infer_instance

/-! ### Commands -/

theorem Exact.of_log {α : Type} {m : ReadM α} {input : List Token} {P : α → List Token → Prop}
    (h : Exact m input P) (hreach : (quiet input line).Reaches (m (quiet input line)).2)
    (hlog : (m (quiet input line)).2.log = []) :
    ∃ a rest line', m (quiet input line) = (a, quiet rest line') ∧ P a rest := by
  obtain ⟨rest, line', hquiet, -⟩ := hreach.quiet_of_log_eq_nil hlog
  have hrun : m (quiet input line) = ((m (quiet input line)).1, quiet rest line') :=
    Prod.ext rfl hquiet
  exact ⟨_, rest, line', hrun, (h line _ rest).mp ⟨line', hrun⟩⟩

theorem Along.get_halted {α : Type} {start : Bool} {f : Bool → ReadM α}
    (hf : Along o start (f false)) : Along o start (do f (← MonadState.get).halted) := by
  refine ⟨fun {r r'} h hlog => ?_⟩
  change (f r.halted r).2.log = [] at hlog
  change (f r'.halted r').1 = (f r.halted r).1 ∧ Twin o start (f r.halted r).2 (f r'.halted r').2
  rw [h.not_halted.1] at hlog ⊢
  rw [h.not_halted.2]
  exact hf.twin h hlog

/-- What follows the arguments of a command. -/
def commandTail (members : ReadM Body) (above notes : List Token) (word : Token)
    (args : List Argument) : ReadM (List Entry) := do
  let (body, inner) ← ownBlock members
  let footer ← closeLine
  let closing := Closing.mk (commentOf .above above ++ inner ++ footer) (noteOf notes)
  return [Entry.statement word args body (if (← get).halted then none else some closing)]

theorem command_eq {members : ReadM Body} {above notes : List Token} {word : Token} {s : Reading}
    (h : consume [.kind .identifier] r = (some word, s)) :
    command members above notes r = (arguments >>= commandTail members above notes word) s :=
  command_of_word h members above notes

section Command

variable {members : ReadM Body} [Moves members] (above notes : List Token) (word : Token)
  (args : List Argument)

instance Moves.commandTail : Moves (commandTail members above notes word args) := by
  unfold ReadM.commandTail
  infer_instance

instance Along.commandTail [Along o true members] :
    Along o true (commandTail members above notes word args) := by
  unfold ReadM.commandTail
  refine @Along.bind _ _ _ _ _ _ _ _ fun _ => @Along.bind _ _ _ _ _ _ _ _ fun _ => ?_
  exact .get_halted (f := fun h => Pure.pure [Entry.statement word args _ (if h then none else _)])
    (.pure _)

omit [Moves members] in
theorem startsWith_of_commandTail {mid : List Token}
    (hlog : (commandTail members above notes word args (quiet mid line)).2.log = []) : startsWith
      (fun t => t.isPunct .openBrace || (t.isKind .comment || t.isKind .newline)) mid = true := by
  have hblock : (quiet mid line).nextIs (·.isPunct .openBrace) =
      startsWith (·.isPunct .openBrace) mid := rfl
  cases hbrace : startsWith (·.isPunct .openBrace) mid with
  | true =>
    obtain ⟨t, mid, rfl, ht⟩ := exists_cons_of_startsWith hbrace
    rw [startsWith_cons, ht, Bool.true_or]
  | false =>
    rw [hbrace] at hblock
    have hclose : (closeLine (quiet mid line)).2.log = [] := by
      rw [commandTail, bind_apply, ownBlock, nextIs_bind_apply, hblock,
        if_neg Bool.false_ne_true] at hlog
      exact hlog
    obtain ⟨comments, rest, line', -, hend⟩ :=
      (Exact.closeLine mid).of_log (Moves.closeLine.reaches _) hclose
    obtain ⟨t, mid, rfl, ht⟩ := exists_cons_of_startsWith hend.starts
    rw [startsWith_cons, ht, Bool.or_true]

end Command

/-- The two readings stand in front of the arguments that hold the bad token. -/
def AtSpot (o : Spot) (r r' : Reading) : Prop :=
  r = quiet (o.inside ++ o.behind) o.word.line ∧
    r' = quiet (o.inside ++ o.bad :: o.behind) o.word.line

theorem twin_word (h : Twin o true r r') (hlog : (consume [.kind .identifier] r).2.log = []) :
    ∃ word s s', consume [.kind .identifier] r = (some word, s) ∧
      consume [.kind .identifier] r' = (some word, s') ∧ (Twin o false s s' ∨ AtSpot o s s') := by
  rcases consume_cases [.kind .identifier] r with ⟨t, hnext, hfits, -⟩ | ⟨hhalted, -⟩ |
    ⟨-, -, fault, line, told, hmiss, -⟩
  · refine ⟨t, _, _, consume_of_next? hnext hfits, consume_of_next? (h.next?.trans hnext) hfits, ?_⟩
    have hkind : t.kind = .identifier := by simpa [Expected.fits, isKind_iff] using hfits
    cases h with
    | before pre line hpre =>
      cases pre with
      | nil => exact .inr ⟨rfl, rfl⟩
      | cons u pre =>
        obtain rfl : u = t := Option.some.inj hnext
        -- within the line of this word the other one is still to come
        have hflag : (u.isKind .newline || true && u.isKind .label) = false := by
          simp [isKind_eq_false_iff, hkind]
        rw [beginsBehind, hflag] at hpre
        exact .inl (.before pre u.line hpre)
    | after line hafter =>
      obtain ⟨rest, rfl⟩ := head?_eq_some_iff.mp hnext
      rw [advance_of_rest hafter.halted hafter.rest]
      exact .inl (.after t.line ⟨rfl, hafter.halted, hafter.problems⟩)
  · simp [h.not_halted.1] at hhalted
  · change (r.consume [.kind .identifier]).2.log = [] at hlog
    simp [hlog] at hmiss

theorem exists_behind {args : List Argument} {mid : List Token}
    (h : Arguments true (o.inside ++ o.behind) args mid)
    (hmid : startsWith
      (fun t => t.isPunct .openBrace || (t.isKind .comment || t.isKind .newline)) mid = true) :
    ∃ x, o.behind = x ++ mid := by
  obtain ⟨p, hp, -⟩ := Arguments.move h
  rcases append_eq_append_iff.mp hp with ⟨x, -, hbehind⟩ | ⟨x, hinside, hx⟩
  · exact ⟨x, hbehind⟩
  · cases x with
    | nil => exact ⟨[], hx.symm⟩
    | cons t x =>
      -- no block, comment or line end stands in front of the bad token
      obtain ⟨hbrace, hcomment, hnewline⟩ := o.inLine t (by simp [hinside])
      rw [hx, cons_append, startsWith_cons, hbrace, hcomment, hnewline] at hmid
      cases hmid

section Command

variable {members : ReadM Body} [Moves members] [Along o true members] (above notes : List Token)

omit [Along o true members] in
theorem twin_arguments {word : Token} (h : Twin o false r r' ∨ AtSpot o r r')
    (hlog : ((arguments >>= commandTail members above notes word) r).2.log = []) :
    (arguments r').1 = (arguments r).1 ∧ Twin o true (arguments r).2 (arguments r').2 := by
  rw [bind_apply] at hlog
  have hlogged : (arguments r).2.log = [] := (Moves.reaches _).log_eq_nil hlog
  rcases h with h | ⟨rfl, rfl⟩
  · obtain ⟨hanswer, htwin⟩ := Along.arguments.twin h hlogged
    exact ⟨hanswer, htwin.mono⟩
  · obtain ⟨args, mid, line, hrun, hargs⟩ := (Exact.arguments _).of_log (Moves.reaches _) hlogged
    rw [hrun] at hlog
    obtain ⟨x, hx⟩ := exists_behind hargs (startsWith_of_commandTail above notes word args hlog)
    obtain ⟨r', hrun', hafter⟩ :=
      spoiled_arguments hargs (x := x) o.word.line (by rw [hx]) o.notLabeled
    rw [hrun, hx, hrun']
    exact ⟨rfl, .after line hafter⟩

instance Along.command : Along o true (command members above notes) := by
  refine ⟨fun {r r'} h hlog => ?_⟩
  have hword : (ReadM.consume [.kind .identifier] r).2.log = [] := by
    rw [ReadM.command, bind_apply] at hlog
    refine (@Moves.reaches _ _ ?_ _).log_eq_nil hlog
    split <;> infer_instance
  obtain ⟨word, s, s', hs, hs', htwin⟩ := twin_word h hword
  rw [command_eq hs] at hlog ⊢
  rw [command_eq hs']
  obtain ⟨hargs, htwin⟩ := twin_arguments above notes htwin hlog
  rw [bind_apply] at hlog
  rw [bind_apply, bind_apply, hargs]
  exact (Along.commandTail above notes word _).twin htwin hlog

omit [Moves members] [Along o true members] in
theorem twin_looseLines {comments : List Token} (h : Twin o true r r')
    (hword : r.nextIs (·.isKind .identifier) = false)
    (hlog : (looseLines comments notes r).2.log = []) :
    (looseLines comments notes r').1 = (looseLines comments notes r).1 ∧
      Twin o true (looseLines comments notes r).2 (looseLines comments notes r').2 := by
  obtain ⟨rest, line, rfl⟩ := h.exists_quiet
  obtain ⟨_, _, _, _, rfl, hcomments, -⟩ :=
    (Exact.looseLines comments notes hword).of_log (looseLines_reaches comments notes rfl) hlog
  obtain ⟨t, comments, rfl⟩ := exists_cons_of_ne_nil hcomments
  exact ⟨rfl, h⟩

/-- What follows the lines above a command. -/
instance Along.belowLines (isLoose : Bool) :
    Along o true (do
      if (← MonadState.get).halted then return []
      else if !(← ReadM.nextIs (·.isKind .identifier)) && isLoose then looseLines above notes
      else ReadM.command members above notes) := by
  refine ⟨fun {r r'} h hlog => ?_⟩
  rw [unlessHalted_apply, h.not_halted.1, if_neg Bool.false_ne_true, nextIs_bind_apply] at hlog
  rw [unlessHalted_apply, unlessHalted_apply, h.not_halted.1, h.not_halted.2,
    if_neg Bool.false_ne_true, if_neg Bool.false_ne_true, nextIs_bind_apply, nextIs_bind_apply,
    h.nextIs]
  split
  · rename_i hloose
    rw [if_pos hloose] at hlog
    exact twin_looseLines notes h (by simp_all) hlog
  · rename_i hloose
    rw [if_neg hloose] at hlog
    exact (Along.command above notes).twin h hlog

end Command

theorem along_recursive (bound : Nat) :
    (∀ isLoose, Along o true (statement bound isLoose)) ∧ Along o true (members bound) ∧
      ∀ stop, Along o true (items stop bound) := by
  induction bound with
  | zero => exact ⟨fun _ => .pure _, .pure _, fun _ => .pure _⟩
  | succ bound ih =>
    obtain ⟨ihs, ihm, ihi⟩ := ih
    refine ⟨fun isLoose => ?_, ?_, fun stop => ?_⟩
    · have : Along o true (lineBlock .comment) := .lineBlock (by decide)
      have : Along o true (lineBlock .note) := .lineBlock (by decide)
      rw [ReadM.statement]
      infer_instance
    · rw [ReadM.members]
      refine @Along.bind _ _ _ _ _ _ _ _ fun _ => @Along.ite _ _ _ _ _ _ _ _ ?_
      refine .ifTake (fun t ht => passable_of_isKind .label (by decide) ht) (fun t => ?_) ?_
      · infer_instance
      · infer_instance
    · rw [ReadM.items]
      infer_instance

end ReadM

/-! ### Whole texts -/

theorem commandWords_append (start : Bool) (pre rest : List Token) :
    commandWords start (pre ++ rest) =
      commandWords start pre ++ commandWords (beginsBehind start pre) rest := by
  induction pre generalizing start with
  | nil => rfl
  | cons t pre ih =>
    rw [cons_append, commandWords, commandWords, beginsBehind]
    split
    · rename_i hword
      rw [Bool.and_eq_true, isKind_iff] at hword
      -- a word leaves the line begun
      have hflag : (t.isKind .newline || start && t.isKind .label) = false := by
        simp [isKind_eq_false_iff, hword.2]
      rw [ih, hflag, cons_append]
    · exact ih _

theorem Reading.Twin.after_of_nil {o : Spot} {start : Bool} (h : Twin o start (quiet [] line) r') :
    After o [] r' := by
  generalize hr : quiet [] line = r at h
  cases h with
  | before pre line' =>
    have hnil := (quiet_inj.mp hr).1
    simp [Spot.kept] at hnil
  | after line' h =>
    obtain ⟨rfl, -⟩ := quiet_inj.mp hr
    exact h

theorem parse_spoiled (o : Spot) {pre : List Token} (hpre : beginsBehind true pre = true)
    (h : (parse (pre ++ o.kept)).problems = []) :
    parse (pre ++ o.spoiled) = ⟨(parse (pre ++ o.kept)).entries, [o.problem]⟩ := by
  have hreads : Reads (.items none) (pre ++ o.kept) ((parse (pre ++ o.kept)).entries, []) [] :=
    (parse_eq_iff _ _).mp (congrArg (Parsed.mk _) h)
  obtain ⟨line, hquiet⟩ := (readAll_quiet_iff _ _ _).mpr hreads
  -- the same bound for both texts
  let bound := 2 * (pre ++ o.spoiled).length + 2
  have hkept : ReadM.items none bound (quiet (pre ++ o.kept) 1) = readAll (pre ++ o.kept) := by
    refine readAll_eq ?_
    simp only [bound, Spot.kept, Spot.spoiled, length_append, length_cons]
    omega
  rw [hquiet] at hkept
  obtain ⟨hanswer, htwin⟩ := ((ReadM.along_recursive bound).2.2 none).twin
    (.before pre 1 hpre : Twin o true _ _) (congrArg (·.2.log) hkept)
  rw [hkept] at hanswer htwin
  exact congrArg₂ Parsed.mk hanswer htwin.after_of_nil.problems

/-- A bad token in the arguments of a command is contained. In a text that is read without a
problem, let it be put anywhere between a command word and the block, the comment or the line end
behind the arguments, though not right behind a label. Then it is the one problem that is told, and
a visitor is called just as before. -/
theorem bad_token_contained {σ Scope α : Type} (v : Visitor σ Scope α) (st : σ) (pre : List Token)
    (o : Spot) (hpre : beginsBehind true pre = true) (h : (parse (pre ++ o.kept)).problems = []) :
    ((Entry.statements (parse (pre ++ o.kept)).entries).map (·.command)).Perm
      (commandWords true pre ++ o.word :: commandWords false (o.inside ++ o.behind)) ∧
    (∃ p, (parse (pre ++ o.spoiled)).problems = [p] ∧ p.line = o.bad.line ∧
      p.message = "Parse error on token '" ++ o.bad.text ++ "'") ∧
    (parse (pre ++ o.spoiled)).entries = (parse (pre ++ o.kept)).entries ∧
    (Live.run v.recorded (pre ++ o.spoiled) (st, [])).2.visitor =
      (Live.run v.recorded (pre ++ o.kept) (st, [])).2.visitor := by
  have hspoiled := parse_spoiled o hpre h
  have hentries : (parse (pre ++ o.spoiled)).entries = (parse (pre ++ o.kept)).entries := by
    rw [hspoiled]
  refine ⟨?_, ⟨o.problem, ?_, rfl, rfl⟩, hentries, ?_⟩
  · have hcommands := (recorded_statements h).commands
    rw [commandWords_append, hpre, Spot.kept, commandWords_word o.isWord] at hcommands
    exact hcommands
  · rw [hspoiled]
  · rw [(Live.mirrors_run v.recorded _ _).visitor, (Live.mirrors_run v.recorded _ _).visitor]
    exact congrArg (fun es => (Entry.visitAll v.recorded none es (st, [])).2) hentries

/-- A bad token in a list of values, which is an argument of a command in a block. -/
def listSpot : Spot where
  word := ⟨.identifier "Box", 2, none⟩
  inside := [⟨.identifier "inner", 2, none⟩, ⟨.punct .comma, 2, none⟩, ⟨.label "sizes", 2, none⟩,
    ⟨.punct .openBracket, 2, none⟩, ⟨.integer 1, 2, none⟩]
  behind := [⟨.punct .comma, 2, none⟩, ⟨.integer 2, 2, none⟩, ⟨.punct .closeBracket, 2, none⟩,
    ⟨.newline, 2, none⟩, ⟨.punct .closeBrace, 3, none⟩, ⟨.newline, 3, none⟩]
  bad := ⟨.error "$", 2, none⟩
  isWord := rfl
  isBad := rfl
  inLine := by decide
  notLabeled := by decide

/-- What stands in front of that command: the outer one with its brace, and a role label. -/
def listSpotPre : List Token :=
  [⟨.identifier "Box", 1, none⟩, ⟨.identifier "outer", 1, none⟩, ⟨.punct .openBrace, 1, none⟩,
    ⟨.newline, 1, none⟩, ⟨.label "boxes", 2, none⟩]

theorem bad_token_contained_listSpot :
    beginsBehind true listSpotPre = true ∧ (parse (listSpotPre ++ listSpot.kept)).problems = [] ∧
    (∃ p, (parse (listSpotPre ++ listSpot.spoiled)).problems = [p] ∧ p.line = 2 ∧
      p.message = "Parse error on token '$'") ∧
    (Live.run scribe.recorded (listSpotPre ++ listSpot.spoiled) ([], [])).2.visitor =
      (Live.run scribe.recorded (listSpotPre ++ listSpot.kept) ([], [])).2.visitor := by
  have hpre : beginsBehind true listSpotPre = true := by decide
  have hparse : (parse (listSpotPre ++ listSpot.kept)).problems = [] := by decide +kernel
  obtain ⟨-, ⟨p, hp, hline, hmessage⟩, -, hcalls⟩ :=
    bad_token_contained scribe [] listSpotPre listSpot hpre hparse
  exact ⟨hpre, hparse, ⟨p, hp, hline, hmessage⟩, hcalls⟩

end CommandText
