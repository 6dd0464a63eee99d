import CommandText.Proofs.ExactReaders
import CommandText.Proofs.LaidReading
import Mathlib.Data.List.Forall2

/-!
# Reading what stays open

The headers that are open at a line, followed by a bracket for each of them, are read to entries
that hold nothing but the way down to the line. A lone label at the end of the headers is missed,
since no statement follows it; the brackets behind it are read all the same.
-/

namespace CommandText

open List Token

variable {input : List Token} {c o w : Token} {body : List Entry} {bound : Nat}
variable {comments : List Comment} {args : List Argument}

namespace ReadM

open Reading Form

variable {α β : Type} {P P' Q Q' R : Reading → Prop} {header : List Comment} {n : Token}
variable {after input : List Token}
variable {t : Token}
variable {e : Expected} {rest : List Token} {r : Reading} {a : α} {m : ReadM α}

/-! ### Answers of readers -/

/-- From every state with `P` the reader gives the answer and ends in a state with `Q`. -/
def Leads (P : Reading → Prop) (m : ReadM α) (a : α) (Q : Reading → Prop) : Prop :=
  ∀ r, P r → (m r).1 = a ∧ Q (m r).2

/-- Nothing has been missed, and some tokens come next. -/
def Quiet (input : List Token) (r : Reading) : Prop := ∃ line, r = quiet input line

/-- Some tokens come next, whatever has been missed. -/
def At (input : List Token) (r : Reading) : Prop := r.rest = input ∧ r.halted = false

theorem At.of_quiet (h : Quiet input r) : At input r := by
  obtain ⟨line, rfl⟩ := h
  exact ⟨rfl, rfl⟩

theorem At.nextIs (h : At input r) (p : Token → Bool) : r.nextIs p = startsWith p input := by
  rw [Reading.nextIs, Reading.next?, h.2, if_neg Bool.false_ne_true, h.1, startsWith]

theorem Leads.pure (a : α) (P : Reading → Prop) : Leads P (Pure.pure a) a P := fun _ h => ⟨rfl, h⟩

theorem Leads.bind {f : α → ReadM β} {b : β} (hm : Leads P m a Q) (hf : Leads Q (f a) b R) :
    Leads P (m >>= f) b R := by
  intro r hr
  obtain ⟨hanswer, hend⟩ := hm r hr
  rw [bind_apply, hanswer]
  exact hf _ hend

theorem Leads.mono (h : Leads P m a Q) (hP : ∀ r, P' r → P r) : Leads P' m a Q :=
  fun r hr => h r (hP r hr)

theorem Exact.leads {S : α → List Token → Prop} (h : Exact m input S) (ha : S a rest) :
    Leads (Quiet input) m a (Quiet rest) := by
  rintro r ⟨line, rfl⟩
  obtain ⟨line', hm⟩ := (h line a rest).mpr ha
  rw [hm]
  exact ⟨rfl, line', rfl⟩

theorem Leads.get_bind {f : Reading → ReadM α} (h : ∀ r, P r → Leads (Eq r) (f r) a Q) :
    Leads P (get >>= f) a Q :=
  fun r hr => h r hr r rfl

theorem Leads.nextIs_bind (hP : ∀ r, P r → At input r) {p : Token → Bool} {f : Bool → ReadM α}
    (h : Leads P (f (startsWith p input)) a Q) : Leads P (ReadM.nextIs p >>= f) a Q := by
  intro r hr
  show (f (r.nextIs p) r).1 = a ∧ Q (f (r.nextIs p) r).2
  rw [(hP r hr).nextIs]
  exact h r hr

theorem Leads.unlessHalted (hP : ∀ r, P r → At input r) {n : ReadM α} (h : Leads P n a Q) :
    Leads P (do if (← get).halted then m else n) a Q := by
  intro r hr
  show ((if r.halted then m else n : ReadM α) r).1 = a ∧
    Q ((if r.halted then m else n : ReadM α) r).2
  rw [(hP r hr).2, if_neg Bool.false_ne_true]
  exact h r hr

theorem Leads.consume (h : e.fits t = true) (rest : List Token) :
    Leads (At (t :: rest)) (ReadM.consume [e]) (some t) (At rest) := by
  rintro r ⟨hrest, hhalted⟩
  have hnext : r.next? = some t := by rw [Reading.next?, hhalted, hrest]; rfl
  have hadvance : r.advance = { r with rest := rest, line := t.line } := by
    rw [advance, hnext, hrest]
    rfl
  have hconsume : ReadM.consume [e] r =
      (some t, { r.advance with told := false, failures := 0 }) := by
    show Reading.consume [e] r = _
    rw [Reading.consume, hnext]
    simp [h]
  rw [hconsume, hadvance]
  exact ⟨rfl, rfl, hhalted⟩

theorem Leads.consume_quiet (h : e.fits t = true) (rest : List Token) :
    Leads (Quiet (t :: rest)) (ReadM.consume [e]) (some t) (Quiet rest) := by
  rintro r ⟨line, rfl⟩
  have hconsume : ReadM.consume [e] (quiet (t :: rest) line) = (some t, quiet rest t.line) :=
    consume_quiet_of_fits (by simpa using h) rest line
  rw [hconsume]
  exact ⟨rfl, t.line, rfl⟩

theorem Leads.missed {expected : List Expected} (hfits : expected.any (·.fits t) = false)
    (hkind : t.kind ≠ .error) (rest : List Token) :
    Leads (Quiet (t :: rest)) (ReadM.consume expected) none (At (t :: rest)) := by
  rintro r ⟨line, rfl⟩
  have hconsume : ReadM.consume expected (quiet (t :: rest) line) =
      (none, ((quiet (t :: rest) line).report (.unexpected t.lexeme expected)
        t.line).fail t.line) := by
    show Reading.consume _ _ = _
    rw [Reading.consume, next?_quiet, head?_cons]
    simp only [hfits, Bool.false_eq_true, if_false]
    split
    · next htext => exact absurd (by rw [kind, htext, Lexeme.kind]) hkind
    · rfl
  rw [hconsume]
  exact ⟨rfl, rfl, rfl⟩

theorem Leads.discard (h : Leads P m a Q) : Leads P (discard m) () Q :=
  fun r hr => ⟨rfl, (h r hr).2⟩

theorem Leads.take (t : Token) (rest : List Token) :
    Leads (Quiet (t :: rest)) ReadM.take (some t) (Quiet rest) := by
  rintro r ⟨line, rfl⟩
  exact ⟨rfl, t.line, rfl⟩

theorem Leads.closeLine {n : Token} (hn : n.isKind .newline = true) (rest : List Token)
    {f : List Comment → ReadM α} (h : Leads (At rest) (f []) a Q) :
    Leads (At (n :: rest)) (do let comments ← endComment; ReadM.lineEnd; f comments) a Q := by
  have hcomment : Leads (At (n :: rest)) endComment [] (At (n :: rest)) := by
    refine .nextIs_bind (fun _ hr => hr) ?_
    rw [startsWith_cons, isKind_eq_false_iff.mpr (by simp [isKind_iff.mp hn])]
    exact .pure [] _
  have hend : Leads (At (n :: rest)) ReadM.lineEnd () (At rest) := by
    refine (Leads.consume (e := .kind .newline) hn rest).bind ?_
    exact .pure () _
  exact hcomment.bind (hend.bind h)

theorem Leads.closeLine_quiet (h : LineEnd input comments rest) {f : List Comment → ReadM α}
    (hf : Leads (Quiet rest) (f comments) a Q) :
    Leads (Quiet input) (do let comments ← endComment; ReadM.lineEnd; f comments) a Q :=
  ((Exact.closeLine input).leads h).bind hf

/-! ### Commands with blocks -/

section Command

variable {members : ReadM Body}
variable {mid₁ : List Token} {mid₂ : List Token} {inner : List Comment}

theorem Leads.block (ho : o.isPunct .openBrace = true) (hh : LineEnd mid₁ header mid₂)
    (hm : Leads (Quiet mid₂) members (body, inner) (At (c :: after)))
    (hc : c.isPunct .closeBrace = true) :
    Leads (Quiet (o :: mid₁)) (ReadM.block members) (body, header ++ inner) (At after) := by
  refine (Leads.consume_quiet (e := .punct .openBrace) ho mid₁).discard.bind ?_
  refine .closeLine_quiet hh (hm.bind ?_)
  refine (Leads.consume (e := .punct .closeBrace) hc after).discard.bind ?_
  exact .pure _ _

theorem Leads.command (hw : w.isKind .identifier = true)
    (ha : Arguments true input args (o :: mid₁)) (ho : o.isPunct .openBrace = true)
    (hh : LineEnd mid₁ header mid₂)
    (hm : Leads (Quiet mid₂) members (body, inner) (At (c :: n :: after)))
    (hc : c.isPunct .closeBrace = true) (hn : n.isKind .newline = true) (above notes : List Token) :
    Leads (Quiet (w :: input)) (ReadM.command members above notes)
      [.statement w args body (closing above notes (header ++ inner) [])] (At after) := by
  refine (Leads.consume_quiet (e := .kind .identifier) hw input).bind ?_
  refine ((Exact.arguments input).leads ha).bind ?_
  refine .nextIs_bind (fun _ => At.of_quiet) ?_
  rw [startsWith_cons, ho]
  refine (Leads.block ho hh hm hc).bind ?_
  refine .closeLine hn after fun r hr => ?_
  show [Entry.statement w args body (if r.halted then none else _)] = _ ∧ At after r
  rw [hr.2]
  exact ⟨rfl, hr⟩

theorem Leads.statement {es : List Entry} (isLoose : Bool) (hw : w.isKind .identifier = true)
    (h : Leads (Quiet (w :: input)) (ReadM.command (ReadM.members bound) [] []) es Q) :
    Leads (Quiet (w :: input)) (statement (bound + 1) isLoose) es Q := by
  have hother {kind : TokenKind} (hkind : kind ≠ .identifier) :
      Lines kind (w :: input) [] (w :: input) := by
    refine .stop ?_
    rw [startsWith_cons, isKind_eq_false_iff, isKind_iff.mp hw]
    exact hkind.symm
  rw [ReadM.statement]
  refine ((Exact.lineBlock .comment _).leads (hother (by decide))).bind ?_
  refine ((Exact.lineBlock .note _).leads (hother (by decide))).bind ?_
  refine .unlessHalted (fun _ => At.of_quiet) (.nextIs_bind (fun _ => At.of_quiet) ?_)
  rw [startsWith_cons, hw]
  exact h

theorem Leads.statement_missed (hc : c.isPunct .closeBrace = true) (bound : Nat) :
    Leads (Quiet (c :: after)) (ReadM.statement bound false) [] (At (c :: after)) := by
  cases bound with
  | zero => exact (Leads.pure [] (At (c :: after))).mono fun _ => At.of_quiet
  | succ bound =>
    have hother (kind : TokenKind) (hkind : kind ≠ .punctuation) :
        Lines kind (c :: after) [] (c :: after) := by
      refine .stop ?_
      rw [startsWith_cons, isKind_eq_false_iff, kind_of_isPunct hc]
      exact hkind.symm
    rw [ReadM.statement]
    refine ((Exact.lineBlock .comment _).leads (hother _ (by decide))).bind ?_
    refine ((Exact.lineBlock .note _).leads (hother _ (by decide))).bind ?_
    refine .unlessHalted (fun _ => At.of_quiet) (.nextIs_bind (fun _ => At.of_quiet) ?_)
    rw [Bool.and_false, if_neg Bool.false_ne_true]
    have hmissed : Leads (Quiet (c :: after)) (ReadM.consume [.kind .identifier]) none
        (At (c :: after)) :=
      .missed (by simp [Expected.fits, isKind, kind_of_isPunct hc])
        (by simp [kind_of_isPunct hc]) after
    have hresync : Leads (At (c :: after)) (modify Reading.resync) () (At (c :: after)) := by
      intro r hr
      refine ⟨rfl, ?_⟩
      show At (c :: after) r.resync
      rw [Reading.resync, hr.nextIs, startsWith_cons, hc, Bool.true_or, if_pos rfl]
      exact hr
    exact hmissed.bind (hresync.bind (.pure _ _))

end Command

/-! ### Members and items -/

section Members

variable {mid : List Token} {l : Token} {es : List Entry}
variable {stop : Option Punct} {items statement : ReadM (List Entry)}

theorem Leads.members_stop (hc : c.isPunct .closeBrace = true) (bound : Nat) :
    Leads (At (c :: after)) (ReadM.members bound) ([], []) (At (c :: after)) := by
  cases bound with
  | zero => exact .pure _ _
  | succ bound =>
    rw [ReadM.members]
    refine .nextIs_bind (fun _ hr => hr) ?_
    rw [startsWith_cons, hc]
    exact .pure _ _

theorem Leads.items_stop (h : startsWith (fun t => !stop.any t.isPunct) after = false)
    (bound : Nat) : Leads (At after) (ReadM.items stop bound) [] (At after) := by
  cases bound with
  | zero => exact .pure _ _
  | succ bound =>
    rw [ReadM.items]
    refine .nextIs_bind (fun _ hr => hr) ?_
    rw [h]
    exact .pure _ _

theorem Leads.members_statement (hi : startsWith (·.isKind .identifier) input = true)
    (hs : Leads (Quiet input) (ReadM.statement bound true) es (At (c :: after)))
    (hc : c.isPunct .closeBrace = true) :
    Leads (Quiet input) (ReadM.members (bound + 1)) (es, []) (At (c :: after)) := by
  obtain ⟨w, input, rfl, hw⟩ := exists_cons_of_startsWith hi
  have hkind := isKind_iff.mp hw
  rw [ReadM.members]
  refine .nextIs_bind (fun _ => At.of_quiet) ?_
  rw [startsWith_cons, isPunct_eq_false (by simp [hkind])]
  refine .nextIs_bind (fun _ => At.of_quiet) ?_
  rw [startsWith_cons, isKind_eq_false_iff.mpr (by simp [hkind])]
  refine hs.bind ((Leads.members_stop hc bound).bind ?_)
  simp only [append_nil]
  exact .pure _ _

theorem Leads.items_statement (hi : startsWith (·.isKind .identifier) input = true)
    (hs : Leads (Quiet input) (ReadM.statement bound true) es (At after))
    (hstop : startsWith (fun t => !stop.any t.isPunct) after = false) :
    Leads (Quiet input) (ReadM.items stop (bound + 1)) es (At after) := by
  have hopens : startsWith opensStatement input = true := by
    obtain ⟨w, input, rfl, hw⟩ := exists_cons_of_startsWith hi
    rw [startsWith_cons, opensStatement, hw, Bool.or_true]
  rw [ReadM.items]
  refine .nextIs_bind (fun _ => At.of_quiet) ?_
  rw [startsWith_not_stop hopens]
  refine hs.bind ((Leads.items_stop hstop bound).bind ?_)
  rw [append_nil]
  exact .pure _ _

theorem Leads.members_label {list : Bool} (hl : l.isKind .label = true)
    (hr : Leads (Quiet input) (roleBody (ReadM.items (some .closeBracket) bound)
      (ReadM.statement bound false)) (list, es, header) (At (c :: after)))
    (hc : c.isPunct .closeBrace = true) :
    Leads (Quiet (l :: input)) (ReadM.members (bound + 1)) ([.role l list es], header)
      (At (c :: after)) := by
  rw [ReadM.members]
  refine .nextIs_bind (fun _ => At.of_quiet) ?_
  rw [startsWith_cons, isPunct_eq_false (by simp [isKind_iff.mp hl])]
  refine .nextIs_bind (fun _ => At.of_quiet) ?_
  rw [startsWith_cons, hl]
  refine (Leads.take l input).bind (hr.bind ((Leads.members_stop hc bound).bind ?_))
  simp only [append_nil]
  exact .pure _ _

theorem Leads.roleBody_statement (ho : startsWith (·.isPunct .openBracket) input = false)
    (hb : Break input header mid) (hs : Leads (Quiet mid) statement es Q) :
    Leads (Quiet input) (roleBody items statement) (false, es, header) Q := by
  refine .nextIs_bind (fun _ => At.of_quiet) ?_
  rw [ho]
  have hend (header : List Comment) :
      Leads (Quiet mid) (do return (false, ← statement, header)) (false, es, header) Q :=
    hs.bind (.pure _ _)
  refine .nextIs_bind (fun _ => At.of_quiet) ?_
  cases hb with
  | none h =>
    rw [h]
    exact hend []
  | some h =>
    rw [h.starts]
    exact .closeLine_quiet h (hend header)

theorem Leads.roleBody_list (ho : o.isPunct .openBracket = true) (hh : LineEnd input header mid)
    (hi : Leads (Quiet mid) items es (At (c :: n :: after))) (hc : c.isPunct .closeBracket = true)
    (hn : n.isKind .newline = true) :
    Leads (Quiet (o :: input)) (roleBody items statement) (true, es, header) (At after) := by
  refine .nextIs_bind (fun _ => At.of_quiet) ?_
  rw [startsWith_cons, ho]
  have hlist : Leads (Quiet (o :: input)) (elementList items) (es, header) (At after) := by
    refine (Leads.consume_quiet (e := .punct .openBracket) ho input).discard.bind ?_
    refine .closeLine_quiet hh (hi.bind ?_)
    refine (Leads.consume (e := .punct .closeBracket) hc (n :: after)).discard.bind ?_
    refine .closeLine hn after ?_
    rw [append_nil]
    exact .pure _ _
  exact hlist.bind (.pure _ _)

end Members

/-- A reader of members, or of items, takes some tokens and stops where it has to. -/
def Finishes (inBlock : Bool) (bound : Nat) (input : List Token) (b : Body) : Prop :=
  match inBlock with
  | true => ∀ c after, c.isPunct .closeBrace = true →
    Leads (Quiet (input ++ c :: after)) (members bound) b (At (c :: after))
  | false => ∀ stop after, startsWith (fun t => !stop.any t.isPunct) after = false →
    Leads (Quiet (input ++ after)) (items stop bound) b.1 (At after)

end ReadM

/-! ### Thin entries -/

/-- Entries in a role that hold nothing but a way down. -/
inductive Thin : Option Token → List Entry → List Stage → Prop
  | here {role : Option Token} : Thin role [] []
  | label {role : Option Token} (l : Token) : Thin role [.role l false []] []
  | statement {role : Option Token} {w : Token} {args : List Argument} {body : List Entry}
      (closing : Closing) {stages : List Stage} (h : Thin none body stages) :
      Thin role [.statement w args body (some closing)] (⟨role, w, args⟩ :: stages)
  | role {l : Token} (list : Bool) {items : List Entry} {stages : List Stage}
      (h : Thin (some l) items stages) : Thin none [.role l list items] stages

/-- A command of the same name in the same role. -/
structure Stage.Kin (stage stage' : Stage) : Prop where
  role : stage'.role.map Token.text = stage.role.map Token.text
  word : stage'.word.text = stage.word.text

/-- The same command in the same role, on another line. -/
structure Stage.Alike (stage stage' : Stage) : Prop extends stage.Kin stage' where
  arguments : ∃ line, stage'.arguments = stage.arguments.map (Argument.onLine line)

/-- A command on another line, in a role of the same name. -/
def Stage.move (line : Nat) (role : Option Token) (stage : Stage) : Stage :=
  ⟨role, stage.word.onLine line, stage.arguments.map (Argument.onLine line)⟩

theorem Stage.alike_move (line : Nat) {role : Option Token} {stage : Stage}
    (h : role.map text = stage.role.map text) : stage.Alike (stage.move line role) :=
  ⟨⟨h, rfl⟩, line, rfl⟩

/-! ### Open rows -/

/-- The rows that are open at a place, from the top down. -/
def openRows (frames : List Frame) (label : Option Row) : List Row :=
  frames.flatMap (fun f => f.label.toList ++ [f.header]) ++ label.toList

theorem openRows_cons (f : Frame) (frames : List Frame) (label : Option Row) :
    openRows (f :: frames) label = f.label.toList ++ f.header :: openRows frames label := by
  simp [openRows]

theorem openRows_eq_append (frames : List Frame) (label : Option Row) :
    openRows frames label = openRows frames none ++ label.toList := by
  simp [openRows]

/-- Where the innermost of some frames leads: whether into a block, and the role of the list if it
is one. Without a frame nothing changes. -/
def innermost (inBlock : Bool) (role : Option Token) : List Frame → Bool × Option Token
  | [] => (inBlock, role)
  | f :: frames =>
    match f.enclosure with
    | .block => innermost true none frames
    | .list => innermost false f.header.code.head? frames

theorem Framed.pending {inBlock : Bool} {role : Option Token} {frames : List Frame}
    {label : Option Row} {stages : List Stage} (h : Framed inBlock role frames label stages) :
    Pending (innermost inBlock role frames).1 label := by
  induction h with
  | here hpending => exact hpending
  | block _ _ _ _ _ _ ih => exact ih
  | list hcode _ _ _ ih =>
    rw [innermost, hcode]
    exact ih

/-- A row with the same code on another line. A comment may stand behind it. -/
structure Row.Copy (r r' : Row) : Prop where
  code : r'.code = r.code.map (Token.onLine r'.number)
  tail : ∃ y, r'.tokens = r'.code ++ y ∧ IsTail y

/-- A row that holds the closing bracket of a frame. -/
def Frame.ClosedBy (f : Frame) (r : Row) : Prop :=
  ∃ c, r.tokens = [c] ∧ c.isPunct f.enclosure.closer = true

section Framed

open ReadM Reading Form

variable {inBlock : Bool} {inside rows shut : List Row} {front : List Token} {label : Option Row}
  {role role' : Option Token} {k : Row}
variable {frames : List Frame} {stages : List Stage} {tokens : List Token} {row : Option Row}
  {header' header : Row}

theorem Row.IsTail.lineEnd {y : List Token} (h : Row.IsTail y) (r : Row) :
    ∃ comments, ∀ rest, LineEnd (y ++ r.newline :: rest) comments rest := by
  rcases h with rfl | ⟨t, rfl, ht⟩
  · exact ⟨[], fun _ => .bare rfl⟩
  · exact ⟨endOf t, fun _ => .comment ht rfl⟩

theorem Row.Copy.exists_lineEnd {r r' : Row} (h : r.Copy r') : ∃ y comments, ∀ rows rest,
    Row.stream (r' :: rows) ++ rest = r.code.map (onLine r'.number) ++
      (y ++ r'.newline :: (Row.stream rows ++ rest)) ∧
    LineEnd (y ++ r'.newline :: (Row.stream rows ++ rest)) comments (Row.stream rows ++ rest) := by
  obtain ⟨y, htokens, hy⟩ := h.tail
  obtain ⟨comments, hend⟩ := hy.lineEnd r'
  refine ⟨y, comments, fun rows rest => ⟨?_, hend _⟩⟩
  rw [Row.stream_cons, htokens, h.code]
  simp

theorem stream_reverse_cons (hk : k.tokens = [c]) (shut : List Row) :
    Row.stream (k :: shut).reverse = Row.stream shut.reverse ++ [c, k.newline] := by
  rw [reverse_cons, Row.stream_append, Row.stream_cons, hk]
  rfl

theorem Form.LineEnd.not_openBracket {rest : List Token} (h : LineEnd input comments rest) :
    startsWith (·.isPunct .openBracket) input = false := by
  cases h with
  | bare hn => exact isPunct_eq_false (by simp [isKind_iff.mp hn]) _
  | comment ht => exact isPunct_eq_false (by simp [isKind_iff.mp ht]) _

theorem leads_header (hcopy : header.Copy header')
    (hcode : header.code = front ++ w :: (tokens ++ [o])) (hw : w.isKind .identifier = true)
    (ha : Writes tokens args) (ho : o.isPunct .openBrace = true) (hk : k.tokens = [c])
    (hc : c.isPunct .closeBrace = true) {inner : List Comment}
    (h : Finishes true bound (Row.stream rows ++ Row.stream shut.reverse) (body, inner)) :
    ∃ closing, ∀ after, ∃ mid,
      Row.stream (header' :: rows) ++ Row.stream (k :: shut).reverse ++ after =
        front.map (onLine header'.number) ++ w.onLine header'.number :: mid ∧
      ∀ isLoose, Leads (Quiet (w.onLine header'.number :: mid)) (statement (bound + 1) isLoose)
        [.statement (w.onLine header'.number) (args.map (Argument.onLine header'.number)) body
          (some closing)] (At after) := by
  obtain ⟨y, comments, hline⟩ := hcopy.exists_lineEnd
  refine ⟨⟨comments ++ inner, none⟩, fun after => ?_⟩
  obtain ⟨hstream, hend⟩ := hline rows (Row.stream shut.reverse ++ c :: k.newline :: after)
  have hbrace : startsArgument o = false := by
    simp [startsArgument, isValue, isKind, kind_of_isPunct ho,
      isPunct_of_isPunct ho, TokenKind.isValue, TokenKind.values]
  have hargs := ha header'.number (o.onLine header'.number :: (y ++ header'.newline ::
    (Row.stream rows ++ (Row.stream shut.reverse ++ c :: k.newline :: after)))) hbrace
  have hm := h c (k.newline :: after) hc
  rw [append_assoc] at hm
  have hcommand := Leads.command (w := w.onLine header'.number) hw hargs ho hend hm hc rfl [] []
  rw [closing, append_nil] at hcommand
  refine ⟨_, ?_, fun isLoose => .statement isLoose hw hcommand⟩
  rw [stream_reverse_cons hk, append_assoc, append_assoc]
  refine hstream.trans ?_
  simp [hcode]

theorem break_identifier (hw : w.isKind .identifier = true) (mid : List Token) :
    Break (w :: mid) [] (w :: mid) := by
  refine .none ?_
  rw [startsWith_cons, isKind_eq_false_iff.mpr (by simp [isKind_iff.mp hw]),
    isKind_eq_false_iff.mpr (by simp [isKind_iff.mp hw])]
  rfl

theorem exists_append_of_forall₂ {α β : Type} {R : α → β → Prop} {l l' : List α} {u : List β}
    (h : List.Forall₂ R (l ++ l') u) :
    ∃ v v', u = v ++ v' ∧ List.Forall₂ R l v ∧ List.Forall₂ R l' v' :=
  ⟨u.take l.length, u.drop l.length, (take_append_drop _ _).symm,
    (List.forall₂_take_append u l l' h.flip).flip, (List.forall₂_drop_append u l l' h.flip).flip⟩

theorem finishes_lead (hrole : role'.map text = role.map text) {l : Option Token}
    (hlead : Lead inBlock role row front l) (hrows : List.Forall₂ Row.Copy row.toList rows)
    (hw : w.isKind .identifier = true) {number : Nat} {closing : Closing} (hs : ∀ after, ∃ mid,
      input ++ after = front.map (onLine number) ++ w.onLine number :: mid ∧
      ∀ isLoose, Leads (Quiet (w.onLine number :: mid)) (statement (bound + 1) isLoose)
        [.statement (w.onLine number) args body (some closing)] (At after)) :
    ∃ es comments, ∃ role'' : Option Token,
      role''.map text = (l.or role).map text ∧
      (∀ {stages}, Thin none body stages →
        Thin role' es (⟨role'', w.onLine number, args⟩ :: stages)) ∧
      Finishes inBlock (bound + 2) (Row.stream rows ++ input) (es, comments) := by
  have hpunct (p : Punct) : (w.onLine number).isPunct p = false :=
    isPunct_eq_false (by simp [isKind_iff.mp hw]) p
  cases hlead with
  | plain =>
    obtain rfl := List.forall₂_nil_left_iff.mp hrows
    refine ⟨_, [], role', hrole, Thin.statement closing, ?_⟩
    cases inBlock with
    | true =>
      intro c after hc
      obtain ⟨mid, heq, hleads⟩ := hs (c :: after)
      exact heq ▸ .members_statement hw (hleads true) hc
    | false =>
      intro stop after hstop
      obtain ⟨mid, heq, hleads⟩ := hs after
      exact heq ▸ .items_statement hw (hleads true) hstop
  | @beside l hl =>
    obtain rfl := Option.map_eq_none_iff.mp hrole
    obtain rfl := List.forall₂_nil_left_iff.mp hrows
    refine ⟨_, [], some (l.onLine number), rfl, fun ht => .role false (.statement closing ht), ?_⟩
    intro c after hc
    obtain ⟨mid, heq, hleads⟩ := hs (c :: after)
    exact heq ▸ .members_label hl (.roleBody_statement (hpunct _)
      (break_identifier (w := w.onLine number) hw mid) (hleads false)) hc
  | @below r l hr =>
    obtain rfl := Option.map_eq_none_iff.mp hrole
    obtain ⟨row', rest, hrow, hnil, rfl⟩ := List.forall₂_cons_left_iff.mp hrows
    obtain rfl := List.forall₂_nil_left_iff.mp hnil
    obtain ⟨y, comments, hline⟩ := hrow.exists_lineEnd
    refine ⟨_, comments, some (l.onLine row'.number), rfl,
      fun ht => .role false (.statement closing ht), ?_⟩
    intro c after hc
    obtain ⟨mid, heq, hleads⟩ := hs (c :: after)
    obtain ⟨hstream, hend⟩ := hline [] (input ++ c :: after)
    rw [heq] at hend
    rw [← append_assoc, heq, hr.1] at hstream
    exact hstream ▸ .members_label hr.2
      (.roleBody_statement hend.not_openBracket (.some hend) (hleads false)) hc

theorem finishes_header (hrole : role'.map text = role.map text) {l : Option Token}
    (hlead : Lead inBlock role row front l)
    (hrows : List.Forall₂ Row.Copy (row.toList ++ [header]) rows)
    (hcode : header.code = front ++ w :: (tokens ++ [o])) (hw : w.isKind .identifier = true)
    (ha : Writes tokens args) (ho : o.isPunct .openBrace = true) (hk : k.tokens = [c])
    (hc : c.isPunct .closeBrace = true) {inner : List Comment}
    (h : Finishes true bound (Row.stream inside ++ Row.stream shut.reverse) (body, inner)) :
    ∃ es comments stage, Stage.Alike ⟨l.or role, w, args⟩ stage ∧
      (∀ {stages}, Thin none body stages → Thin role' es (stage :: stages)) ∧
      Finishes inBlock (bound + 2)
        (Row.stream (rows ++ inside) ++ Row.stream (k :: shut).reverse) (es, comments) := by
  obtain ⟨labels, headers, rfl, hlabels, hheaders⟩ := exists_append_of_forall₂ hrows
  obtain ⟨header', rest, hheader, hnil, rfl⟩ := List.forall₂_cons_left_iff.mp hheaders
  obtain rfl := List.forall₂_nil_left_iff.mp hnil
  obtain ⟨closing, hs⟩ := leads_header hheader hcode hw ha ho hk hc h
  obtain ⟨es, comments, role'', hrole'', hthin, hfinishes⟩ :=
    finishes_lead hrole hlead hlabels hw hs
  refine ⟨es, comments, _, Stage.alike_move header'.number hrole'', hthin, ?_⟩
  rw [append_assoc, Row.stream_append, append_assoc]
  exact hfinishes

theorem finishes_list (hcopy : header.Copy header') {l : Token} (hcode : header.code = [l, o])
    (hl : l.isKind .label = true) (ho : o.isPunct .openBracket = true) (hk : k.tokens = [c])
    (hc : c.isPunct .closeBracket = true) {b : Body}
    (h : Finishes false bound (Row.stream inside ++ Row.stream shut.reverse) b) :
    ∃ comments, Finishes true (bound + 1)
      (Row.stream (header' :: inside) ++ Row.stream (k :: shut).reverse)
      ([.role (l.onLine header'.number) true b.1], comments) := by
  obtain ⟨y, comments, hline⟩ := hcopy.exists_lineEnd
  refine ⟨comments, fun c' after hc' => ?_⟩
  obtain ⟨hstream, hend⟩ := hline inside (Row.stream shut.reverse ++ c :: k.newline :: c' :: after)
  have hitems := h (some .closeBracket) (c :: k.newline :: c' :: after)
    (by rw [startsWith_cons, Option.any_some, hc, Bool.not_true])
  rw [append_assoc] at hitems
  have hlist := Leads.members_label (l := l.onLine header'.number) hl
    (.roleBody_list (o := o.onLine header'.number) ho hend hitems hc rfl) hc'
  rw [stream_reverse_cons hk, append_assoc, append_assoc]
  rw [hcode] at hstream
  exact hstream ▸ hlist

theorem finishes_label (hpending : Pending inBlock label)
    (hrows : List.Forall₂ Row.Copy label.toList rows) (bound : Nat) (role : Option Token) :
    ∃ es comments, Thin role es [] ∧
      Finishes inBlock (bound + 1) (Row.stream rows) (es, comments) := by
  cases label with
  | none =>
    obtain rfl := List.forall₂_nil_left_iff.mp hrows
    refine ⟨[], [], .here, ?_⟩
    cases inBlock with
    | true => exact fun c after hc => (Leads.members_stop hc _).mono fun _ => At.of_quiet
    | false => exact fun stop after hstop => (Leads.items_stop hstop _).mono fun _ => At.of_quiet
  | some r =>
    obtain ⟨rfl, l, hcode, hl⟩ := hpending r rfl
    obtain ⟨r', rest, hcopy, hnil, rfl⟩ := List.forall₂_cons_left_iff.mp hrows
    obtain rfl := List.forall₂_nil_left_iff.mp hnil
    obtain ⟨y, comments, hline⟩ := hcopy.exists_lineEnd
    refine ⟨[.role (l.onLine r'.number) false []], comments, .label _, ?_⟩
    intro c after hc
    obtain ⟨hstream, hend⟩ := hline [] (c :: after)
    rw [hcode] at hstream
    exact hstream ▸ .members_label hl
      (.roleBody_statement hend.not_openBracket (.some hend) (.statement_missed hc bound)) hc

theorem Framed.finishes_around (h : Framed inBlock role frames label stages) {P : List Stage → Prop}
    {least : Nat} (hinside : ∀ role' bound, role'.map text =
        (innermost inBlock role frames).2.map text → least < bound →
      ∃ es comments inner, P inner ∧ Thin role' es inner ∧
        Finishes (innermost inBlock role frames).1 bound (Row.stream inside) (es, comments))
    (hrole : role'.map text = role.map text)
    (hrows : List.Forall₂ Row.Copy (openRows frames none) rows)
    (hshut : List.Forall₂ Frame.ClosedBy frames shut) (hbound : least + 2 * frames.length < bound) :
    ∃ es comments stages' inner, List.Forall₂ Stage.Alike stages stages' ∧ P inner ∧
      Thin role' es (stages' ++ inner) ∧
      Finishes inBlock bound (Row.stream (rows ++ inside) ++ Row.stream shut.reverse)
        (es, comments) := by
  induction h generalizing role' rows shut bound with
  | here =>
    obtain rfl := List.forall₂_nil_left_iff.mp hshut
    obtain rfl := List.forall₂_nil_left_iff.mp hrows
    obtain ⟨es, comments, inner, hinner, hthin, hfinishes⟩ := hinside role' bound hrole hbound
    have hnil : Row.stream ([] ++ inside) ++ Row.stream [].reverse = Row.stream inside :=
      append_nil _
    exact ⟨es, comments, [], inner, .nil, hinner, hthin, hnil.symm ▸ hfinishes⟩
  | block hlead hcode hw ha ho _ ih =>
    rw [length_cons] at hbound
    obtain ⟨bound, rfl⟩ : ∃ b, bound = b + 2 := ⟨bound - 2, by omega⟩
    obtain ⟨k, shut, ⟨c, hk, hc⟩, hclosers, rfl⟩ := List.forall₂_cons_left_iff.mp hshut
    rw [openRows_cons, ← singleton_append, ← append_assoc] at hrows
    obtain ⟨rows, deeper, rfl, hrows, hdeeper⟩ := exists_append_of_forall₂ hrows
    obtain ⟨body, comments, stages', inner, halike, hinner, hthin, hfinishes⟩ :=
      ih hinside rfl hdeeper hclosers (show least + 2 * _ < bound by omega)
    obtain ⟨es, comments, stage, hstage, hes, hheader⟩ :=
      finishes_header hrole hlead hrows hcode hw ha ho hk hc hfinishes
    rw [← append_assoc] at hheader
    exact ⟨es, comments, stage :: stages', inner, .cons hstage halike, hinner, hes hthin, hheader⟩
  | list hcode hl ho _ ih =>
    obtain rfl := Option.map_eq_none_iff.mp hrole
    rw [length_cons] at hbound
    obtain ⟨bound, rfl⟩ : ∃ b, bound = b + 1 := ⟨bound - 1, by omega⟩
    obtain ⟨k, shut, ⟨c, hk, hc⟩, hclosers, rfl⟩ := List.forall₂_cons_left_iff.mp hshut
    obtain ⟨header', deeper, hcopy, hdeeper, rfl⟩ := List.forall₂_cons_left_iff.mp hrows
    rw [innermost, hcode] at hinside
    obtain ⟨es, comments, stages', inner, halike, hinner, hthin, hfinishes⟩ :=
      ih hinside (Option.map_some (f := text) (a := onLine header'.number _)) hdeeper
        hclosers (show least + 2 * _ < bound by omega)
    obtain ⟨comments, hlist⟩ := finishes_list hcopy hcode hl ho hk hc hfinishes
    exact ⟨_, comments, stages', inner, halike, hinner, .role true hthin, hlist⟩

theorem Framed.finishes (h : Framed inBlock role frames label stages)
    (hrole : role'.map text = role.map text)
    (hrows : List.Forall₂ Row.Copy (openRows frames label) rows)
    (hshut : List.Forall₂ Frame.ClosedBy frames shut) (hbound : 2 * frames.length < bound) :
    ∃ es comments stages', List.Forall₂ Stage.Alike stages stages' ∧ Thin role' es stages' ∧
      Finishes inBlock bound (Row.stream rows ++ Row.stream shut.reverse) (es, comments) := by
  rw [openRows_eq_append] at hrows
  obtain ⟨rows, labels, rfl, hrows, hlabels⟩ := exists_append_of_forall₂ hrows
  have hinside (role' : Option Token) (bound : Nat)
      (_ : role'.map text = (innermost inBlock role frames).2.map text)
      (hbound : 0 < bound) : ∃ es comments inner, inner = [] ∧ Thin role' es inner ∧
        Finishes (innermost inBlock role frames).1 bound (Row.stream labels) (es, comments) := by
    obtain ⟨bound, rfl⟩ := Nat.exists_eq_add_one_of_ne_zero (Nat.ne_zero_of_lt hbound)
    obtain ⟨es, comments, hthin, hfinishes⟩ := finishes_label h.pending hlabels bound role'
    exact ⟨es, comments, [], rfl, hthin, hfinishes⟩
  obtain ⟨es, comments, stages', inner, halike, rfl, hthin, hfinishes⟩ :=
    h.finishes_around hinside hrole hrows hshut
      (show 0 + 2 * frames.length < bound by omega)
  rw [append_nil] at hthin
  exact ⟨es, comments, stages', halike, hthin, hfinishes⟩

end Framed

end CommandText
