import CommandText.Proofs.OpenRows

/-!
# The blocks around a line

A text that is read without a miss can be cut behind any of its lines. What is open there is a stack
of headers, and it shows the way from the outermost entry of the text down to the block in which
the cut is made: each header of a block is a command on that way, with its arguments and its role.
-/

namespace CommandText

open Token List Standing Row

variable {entries : List Entry} {stages : List Stage} {l t : Token} {r : Row}
variable {tokens front : List Token}

/-! ### Open braces -/

/-- What a token does to the open braces. -/
def openBlock (outer : List Nat) (t : Token) : List Nat :=
  if t.isPunct .openBrace then t.line :: outer
  else if t.isPunct .closeBrace then outer.tail
  else outer

/-- The lines of the braces that are open behind some tokens, the innermost first, given those that
are open in front of them. -/
def openBlocks (outer : List Nat) (tokens : List Token) : List Nat := tokens.foldl openBlock outer

theorem openBlocks_append (outer : List Nat) (tokens tokens' : List Token) :
    openBlocks outer (tokens ++ tokens') = openBlocks (openBlocks outer tokens) tokens' :=
  foldl_append

/-- An opening or a closing brace. -/
def Token.isBrace (t : Token) : Bool := t.isPunct .openBrace || t.isPunct .closeBrace

theorem openBlocks_eq_self (h : ∀ t ∈ tokens, t.isBrace = false) (outer : List Nat) :
    openBlocks outer tokens = outer := by
  induction tokens with
  | nil => rfl
  | cons t tokens ih =>
    obtain ⟨ht, htokens⟩ := forall_mem_cons.mp h
    obtain ⟨hopen, hclose⟩ := Bool.or_eq_false_iff.mp ht
    rw [openBlocks, foldl_cons, openBlock, hopen, hclose]
    exact ih htokens

theorem Token.isBrace_of_kind (h : t.kind ≠ .punctuation) : t.isBrace = false := by
  simp [isBrace, isPunct_eq_false h]

theorem Form.isBrace_of_inArguments (h : inArguments t = true) : t.isBrace = false := by
  rcases inArguments_iff.mp h with h | h | h | h | h
  · exact t.isBrace_of_kind (kind_ne_punctuation_of_isValue h)
  · exact t.isBrace_of_kind (by simp [h])
  all_goals simp [isBrace, isPunct, h]

/-! ### Rows of tokens -/

namespace Row

variable {x y : List Token}

/-- The token at the end of the line. -/
def newline (r : Row) : Token := ⟨.newline, r.number, none⟩

/-- A line with tokens as scanning gives them. -/
structure Sound (r : Row) : Prop where
  ne_nil : r.tokens ≠ []
  line : ∀ t ∈ r.tokens, t.line = r.number
  newline : ∀ t ∈ r.tokens, t.isKind .newline = false
  /-- A note takes its whole line. -/
  note : ∀ t ∈ r.tokens, t.isKind .note = true → r.tokens = [t]

/-- The tokens of some lines. -/
def stream (rows : List Row) : List Token := rows.flatMap fun r => r.tokens ++ [r.newline]

theorem stream_cons (r : Row) (rows : List Row) :
    stream (r :: rows) = r.tokens ++ r.newline :: stream rows := by
  simp [stream]

theorem stream_append (rows rows' : List Row) :
    stream (rows ++ rows') = stream rows ++ stream rows' := flatMap_append

theorem length_le_stream (rows : List Row) : rows.length ≤ (stream rows).length := by
  induction rows with
  | nil => exact Nat.le_refl 0
  | cons r rows ih =>
    rw [stream_cons, length_cons, length_append, length_cons]
    omega

theorem exists_cons_of_stream {rows : List Row} (hrows : ∀ r ∈ rows, r.Sound) {input : List Token}
    (h : stream rows = t :: input) :
    ∃ r rows' x, rows = r :: rows' ∧ r.tokens = t :: x ∧
      input = x ++ r.newline :: stream rows' := by
  cases rows with
  | nil => cases h
  | cons r rows =>
    rw [stream_cons] at h
    obtain ⟨u, x, hx⟩ := exists_cons_of_ne_nil (hrows r mem_cons_self).ne_nil
    rw [hx, cons_append] at h
    obtain ⟨rfl, rfl⟩ := cons.inj h
    exact ⟨r, rows, x, rfl, hx, rfl⟩

theorem split_line {w mid tail : List Token} {n : Token} (hn : n.isKind .newline = true)
    (hw : ∀ t ∈ w, t.isKind .newline = false) (h : w ++ mid = y ++ n :: tail) :
    ∃ y', y = w ++ y' ∧ mid = y' ++ n :: tail := by
  rcases append_eq_append_iff.mp h with ⟨y', rfl, hmid⟩ | ⟨w', rfl, htail⟩
  · exact ⟨y', rfl, hmid⟩
  · cases w' with
    | nil => exact ⟨[], by simp, htail.symm⟩
    | cons n' w' =>
      obtain ⟨rfl, -⟩ := cons.inj htail
      have := hw n (by simp)
      rw [hn] at this
      cases this

/-- Nothing, or the comment at the end of a line. -/
def IsTail (x : List Token) : Prop := x = [] ∨ ∃ t : Token, x = [t] ∧ t.isKind .comment = true

theorem tail_of_lineEnd {tail rest : List Token} {comments : List Comment} {n : Token}
    (hn : n.isKind .newline = true) (hy : ∀ t ∈ y, t.isKind .newline = false)
    (h : Form.LineEnd (y ++ n :: tail) comments rest) : IsTail y ∧ rest = tail := by
  have absurd_newline {t : Token} (ht : t ∈ y) (ht' : t.isKind .newline = true) : False := by
    rw [hy t ht] at ht'
    cases ht'
  generalize hinput : y ++ n :: tail = input at h
  cases h with
  | bare hn' =>
    cases y with
    | nil => exact ⟨.inl rfl, (cons.inj hinput).2.symm⟩
    | cons t y =>
      obtain ⟨rfl, -⟩ := cons.inj hinput
      exact (absurd_newline mem_cons_self hn').elim
  | comment ht hn' =>
    rcases y with _ | ⟨t, _ | ⟨u, y⟩⟩
    · obtain ⟨rfl, -⟩ := cons.inj hinput
      rw [isKind_iff] at hn ht
      rw [hn] at ht
      cases ht
    · obtain ⟨rfl, hrest⟩ := cons.inj hinput
      exact ⟨.inr ⟨t, rfl, ht⟩, (cons.inj hrest).2.symm⟩
    · obtain ⟨rfl, hrest⟩ := cons.inj hinput
      obtain ⟨rfl, -⟩ := cons.inj hrest
      exact (absurd_newline (by simp) hn').elim

theorem isBrace_tail (h : IsTail x) : ∀ t ∈ x, t.isBrace = false := by
  rcases h with rfl | ⟨t, rfl, ht⟩
  · simp
  · simpa using t.isBrace_of_kind (by simp [isKind_iff.mp ht])

theorem code_eq (h : r.tokens = x ++ y)
    (hx : ∀ t ∈ x, t.isKind .comment = false ∧ t.isKind .note = false) (hy : IsTail y) :
    r.code = x := by
  have hfilter : x.filter (fun t => !(t.isKind .comment || t.isKind .note)) = x := by
    rw [filter_eq_self]
    intro t ht
    simp [hx t ht]
  rw [code, codeOf, h, filter_append, hfilter]
  rcases hy with rfl | ⟨t, rfl, ht⟩
  · simp
  · simp [ht]

theorem openBlocks_stream (h : r.tokens = x ++ y) (hy : IsTail y) (outer : List Nat) :
    openBlocks outer (stream [r]) = openBlocks outer x := by
  have hline : ∀ t ∈ y ++ [r.newline], t.isBrace = false := by
    intro t ht
    rcases mem_append.mp ht with ht | ht
    · exact isBrace_tail hy t ht
    · obtain rfl := mem_singleton.mp ht
      rfl
  rw [stream_cons, h, append_assoc, openBlocks_append]
  exact openBlocks_eq_self hline _

end Row

/-! ### Ways down through entries -/

/-- A command on the way down, with the role that its element has in the one around it. -/
structure Stage where
  role : Option Token
  word : Token
  arguments : List Argument

/-- A way down through entries that stand in a role, from block to block. It may end in any block.
Roles are not nested. -/
inductive Entry.Path : Option Token → List Entry → List Stage → Prop
  | here {role : Option Token} {entries : List Entry} : Path role entries []
  | statement {role : Option Token} (before after : List Entry) {w : Token} {args : List Argument}
      {body : List Entry} {closing : Closing} {stages : List Stage} (h : Path none body stages) :
      Path role (before ++ .statement w args body (some closing) :: after)
        (⟨role, w, args⟩ :: stages)
  | role (before after : List Entry) {l : Token} {list : Bool} {items : List Entry}
      {stages : List Stage} (h : Path (some l) items stages) :
      Path none (before ++ .role l list items :: after) stages

namespace Entry.Path

theorem append_left {role : Option Token} (h : Path role entries stages) (before : List Entry) :
    Path role (before ++ entries) stages := by
  cases h with
  | here => exact .here
  | statement _ _ h =>
    rw [← append_assoc]
    exact .statement _ _ h
  | role _ _ h =>
    rw [← append_assoc]
    exact .role _ _ h

theorem append_right {role : Option Token} (h : Path role entries stages) (after : List Entry) :
    Path role (entries ++ after) stages := by
  cases h with
  | here => exact .here
  | statement _ _ h =>
    rw [append_assoc, cons_append]
    exact .statement _ _ h
  | role _ _ h =>
    rw [append_assoc, cons_append]
    exact .role _ _ h

end Entry.Path

/-- Entries under a label, if there is one. -/
def underLabel (label : Option Token) (entries : List Entry) : List Entry :=
  match label with
  | none => entries
  | some l => [.role l false entries]

/-! ### Open headers -/

/-- A line that holds a label and no other code. -/
def Row.IsLabel (r : Row) (l : Token) : Prop := r.code = [l] ∧ l.isKind .label = true

/-- What stands in front of a command in a role: nothing, a label on its line, or one on a line
above. Labels stand in blocks only, where no list gives a role. -/
inductive Lead : Bool → Option Token → Option Row → List Token → Option Token → Prop
  | plain {inBlock : Bool} {role : Option Token} : Lead inBlock role none [] none
  | beside {l : Token} (hl : l.isKind .label = true) : Lead true none none [l] (some l)
  | below {r : Row} {l : Token} (hr : r.IsLabel l) : Lead true none (some r) [] (some l)

/-- A lone label that a statement is still to follow. -/
def Pending (inBlock : Bool) (label : Option Row) : Prop :=
  ∀ r ∈ label, inBlock = true ∧ ∃ l, r.IsLabel l

theorem pending_none (inBlock : Bool) : Pending inBlock none := by simp [Pending]

section Lead

variable {inBlock : Bool} {role label : Option Token} {row : Option Row}

theorem Lead.pending (h : Lead inBlock role row front label) : Pending inBlock row := by
  cases h with
  | plain => exact pending_none _
  | beside => exact pending_none _
  | below hr =>
    rintro r ⟨⟩
    exact ⟨rfl, _, hr⟩

theorem Lead.path (hlead : Lead inBlock role row front label)
    (h : Entry.Path (label.or role) entries stages) :
    Entry.Path role (underLabel label entries) stages := by
  cases hlead with
  | plain => exact h
  | beside => exact .role [] [] h
  | below => exact .role [] [] h

theorem Lead.eq_nil_or_singleton (h : Lead inBlock role row front label) :
    front = [] ∨ ∃ l : Token, front = [l] ∧ l.isKind .label = true := by
  cases h with
  | plain => exact .inl rfl
  | beside hl => exact .inr ⟨_, rfl, hl⟩
  | below => exact .inl rfl

theorem Lead.isLabel (h : Lead inBlock role row front label) :
    ∀ t ∈ front, t.isKind .label = true := by
  rcases h.eq_nil_or_singleton with rfl | ⟨l, rfl, hl⟩
  · simp
  · simpa using hl

end Lead

/-- The tokens of some arguments, on any line and in front of anything that does not go on with
them. -/
def Writes (tokens : List Token) (args : List Argument) : Prop :=
  ∀ line rest, Form.startsWith ReadM.startsArgument rest = false →
    Form.Arguments true (tokens.map (Token.onLine line) ++ rest)
      (args.map (Argument.onLine line)) rest

section Arguments

variable {args : List Argument}

theorem Form.Arguments.argumentTokens (h : Arguments true tokens args []) :
    ArgumentTokens tokens := by
  obtain ⟨w, rfl, hw, -⟩ := h.move
  rwa [append_nil]

theorem Form.Arguments.writes (h : Arguments true tokens args []) : Writes tokens args := by
  obtain ⟨w, rfl, -, -, hmove⟩ := h.move
  rwa [append_nil]

end Arguments

/-- The headers that are open at a place, from the outermost on, with the commands they stand for
and the lone label in front of the place. The flag says that the headers stand in a block, and the
role is the one of the list they stand in. -/
inductive Framed : Bool → Option Token → List Frame → Option Row → List Stage → Prop
  | here {inBlock : Bool} {role : Option Token} {label : Option Row}
      (h : Pending inBlock label) : Framed inBlock role [] label []
  | block {inBlock : Bool} {role : Option Token} {row : Option Row} {front : List Token}
      {l : Option Token} {header : Row} {w : Token} {tokens : List Token} {args : List Argument}
      {o : Token} {frames : List Frame} {label : Option Row} {stages : List Stage}
      (hlead : Lead inBlock role row front l) (hcode : header.code = front ++ w :: (tokens ++ [o]))
      (hw : w.isKind .identifier = true) (ha : Writes tokens args)
      (ho : o.isPunct .openBrace = true) (h : Framed true none frames label stages) :
      Framed inBlock role (⟨.block, header, row⟩ :: frames) label
        (⟨l.or role, w, args⟩ :: stages)
  | list {header : Row} {l o : Token} {frames : List Frame} {label : Option Row}
      {stages : List Stage} (hcode : header.code = [l, o]) (hl : l.isKind .label = true)
      (ho : o.isPunct .openBracket = true)
      (h : Framed false (some l) frames label stages) :
      Framed true none (⟨.list, header, none⟩ :: frames) label stages

/-! ### What headers do to brackets -/

section Bearing

open Form

variable {w : Token}

theorem foldl_step_labels (h : ∀ t ∈ front, t.isKind .label = true) (u : Unbalanced) :
    front.foldl Unbalanced.step u = u := by
  induction front with
  | nil => rfl
  | cons t front ih =>
    obtain ⟨ht, hfront⟩ := forall_mem_cons.mp h
    rw [foldl_cons, u.step_of_kind (by simp [isKind_iff.mp ht])]
    exact ih hfront

theorem isLoneLabel_command (hw : w.isKind .identifier = true) (rest : List Token) :
    isLoneLabel (front ++ w :: rest) = false := by
  have hlabel : w.isKind .label = false := by
    rw [isKind_eq_false_iff, isKind_iff.mp hw]
    decide
  rcases front with _ | ⟨t, _ | ⟨u, front⟩⟩
  · cases rest with
    | nil => exact hlabel
    | cons => rfl
  · rfl
  · rfl

section

variable (hfront : ∀ t ∈ front, t.isKind .label = true) (hw : w.isKind .identifier = true)
  (htokens : ArgumentTokens tokens)
include hfront hw htokens

theorem unbalanced_command (rest : List Token) :
    unbalanced (front ++ w :: (tokens ++ rest)) = unbalanced rest := by
  rw [unbalanced, foldl_append, foldl_step_labels hfront, foldl_cons,
    Unbalanced.step_of_kind (by simp [isKind_iff.mp hw]), foldl_append,
    htokens.balanced]
  rfl

theorem bearing_leaf : bearing (front ++ w :: tokens) = .flat := by
  have hu := unbalanced_command hfront hw htokens []
  rw [append_nil] at hu
  rw [bearing_eq_of_unbalanced (by simp) (isLoneLabel_command hw _), hu]
  rfl

theorem bearing_header {o : Token} (ho : o.isPunct .openBrace = true) :
    bearing (front ++ w :: (tokens ++ [o])) = .opens .block := by
  rw [bearing_eq_of_unbalanced (by simp) (isLoneLabel_command hw _),
    unbalanced_command hfront hw htokens]
  simp [unbalanced, Unbalanced.step, opens?, isPunct_iff.mp ho]

end

theorem bearing_list {o : Token} (hl : l.isKind .label = true)
    (ho : o.isPunct .openBracket = true) : bearing [l, o] = .opens .list := by
  have hu : unbalanced [l, o] = { opened := [.list] } := by
    rw [unbalanced, foldl_cons, Unbalanced.step_of_kind (by simp [isKind_iff.mp hl])]
    simp [Unbalanced.step, opens?, isPunct_iff.mp ho]
  rw [bearing_eq_of_unbalanced (by simp) rfl, hu]

theorem bearing_closer {c : Token} {e : Enclosure} (hc : c.isPunct e.closer = true) :
    bearing [c] = .closes e := by
  have hlone : isLoneLabel [c] = false := by
    rw [isLoneLabel, isKind_eq_false_iff, kind_of_isPunct hc]
    decide
  have hu : unbalanced [c] = { closed := [e] } := by
    cases e <;> simp [unbalanced, Unbalanced.step, Unbalanced.close, opens?, closes?,
      isPunct_iff.mp hc, Enclosure.closer]
  rw [bearing_eq_of_unbalanced (by simp) hlone, hu]

theorem Row.IsLabel.bearing (h : r.IsLabel l) : bearing r.code = .label := by
  rw [h.1, CommandText.bearing]
  simp [isLoneLabel, h.2]

end Bearing

/-! ### Cuts -/

/-- What is open behind some lines, and the way that leads there. -/
def Cut (inBlock : Bool) (role : Option Token) (row : Option Row) (above : List Row)
    (entries : List Entry) : Prop :=
  ∃ frames label stages,
    (∀ outer, above.foldlM Standing.pass? ⟨outer, row⟩ = some ⟨frames.reverse ++ outer, label⟩) ∧
    (∀ outer, openBlocks outer (Row.stream above) =
      (stages.map fun stage => stage.word.line).reverse ++ outer) ∧
    Framed inBlock role frames label stages ∧ Entry.Path role entries stages

/-- The lines of some entries. Behind all of them nothing is open, and they can be cut behind any of
them. A lone label may stand in front of them. -/
structure Laid (inBlock : Bool) (role : Option Token) (row : Option Row) (rows : List Row)
    (entries : List Entry) : Prop where
  pending : Pending inBlock row
  rows_closed : ∀ outer, rows.foldlM Standing.pass? ⟨outer, row⟩ = some ⟨outer, none⟩
  braces_closed : ∀ outer, openBlocks outer (Row.stream rows) = outer
  cut : ∀ above below, rows = above ++ below → Cut inBlock role row above entries

section Laid

variable {inBlock inBlock' : Bool} {role role' : Option Token} {row row' : Option Row}
  {rows rows' : List Row} {entries entries' : List Entry}

theorem Pending.cut_nil (h : Pending inBlock row) : Cut inBlock role row [] entries :=
  ⟨[], row, [], fun _ => rfl, fun _ => rfl, .here h, .here⟩

theorem Cut.of_closed
    (hrows : ∀ outer, rows.foldlM Standing.pass? ⟨outer, row⟩ = some ⟨outer, none⟩)
    (hbraces : ∀ outer, openBlocks outer (Row.stream rows) = outer) :
    Cut inBlock role row rows entries :=
  ⟨[], none, [], hrows, hbraces, .here (pending_none _), .here⟩

theorem openBlocks_stream_cons (outer : List Nat) (r : Row) (rows : List Row) :
    openBlocks outer (Row.stream (r :: rows)) =
      openBlocks (openBlocks outer (Row.stream [r])) (Row.stream rows) := by
  rw [← singleton_append, stream_append, openBlocks_append]

theorem Cut.cons (frames₀ : List Frame) (own : List Stage)
    (hpass : ∀ outer, Standing.pass? ⟨outer, row⟩ r = some ⟨frames₀.reverse ++ outer, row'⟩)
    (hbraces : ∀ outer, openBlocks outer (Row.stream [r]) =
      (own.map fun stage => stage.word.line).reverse ++ outer)
    (hframed : ∀ {frames label stages}, Framed inBlock' role' frames label stages →
      Framed inBlock role (frames₀ ++ frames) label (own ++ stages))
    (hpath : ∀ {stages}, Entry.Path role' entries' stages → Entry.Path role entries (own ++ stages))
    (h : Cut inBlock' role' row' rows entries') : Cut inBlock role row (r :: rows) entries := by
  obtain ⟨frames, label, stages, hrows, hblocks, hf, hp⟩ := h
  refine ⟨frames₀ ++ frames, label, own ++ stages, fun outer => ?_, fun outer => ?_, hframed hf,
    hpath hp⟩
  · rw [foldlM_cons, hpass]
    refine (hrows _).trans ?_
    rw [reverse_append, append_assoc]
  · rw [openBlocks_stream_cons, hbraces, hblocks, map_append, reverse_append,
      append_assoc]

theorem Laid.nil : Laid inBlock role none [] entries where
  pending := pending_none _
  rows_closed _ := rfl
  braces_closed _ := rfl
  cut above below h := by
    obtain ⟨rfl, -⟩ := append_eq_nil_iff.mp h.symm
    exact (pending_none _).cut_nil

theorem Laid.append (h : Laid inBlock role row rows entries)
    (h' : Laid inBlock role none rows' entries') :
    Laid inBlock role row (rows ++ rows') (entries ++ entries') where
  pending := h.pending
  rows_closed outer := by
    rw [foldlM_append, h.rows_closed]
    exact h'.rows_closed outer
  braces_closed outer := by
    rw [stream_append, openBlocks_append, h.braces_closed, h'.braces_closed]
  cut above below heq := by
    rcases append_eq_append_iff.mp heq with ⟨above', rfl, hrows'⟩ | ⟨below', rfl, -⟩
    · obtain ⟨frames, label, stages, hpass, hbraces, hframed, hpath⟩ := h'.cut above' below hrows'
      refine ⟨frames, label, stages, fun outer => ?_, fun outer => ?_, hframed,
        hpath.append_left entries⟩
      · rw [foldlM_append, h.rows_closed]
        exact hpass outer
      · rw [stream_append, openBlocks_append, h.braces_closed, hbraces]
    · obtain ⟨frames, label, stages, hpass, hbraces, hframed, hpath⟩ := h.cut above below' rfl
      exact ⟨frames, label, stages, hpass, hbraces, hframed, hpath.append_right entries'⟩

theorem Laid.cons (hrow : Pending inBlock row)
    (hpass : ∀ outer, Standing.pass? ⟨outer, row⟩ r = some ⟨outer, row'⟩)
    (hbraces : ∀ t ∈ r.tokens, t.isBrace = false) (h : Laid inBlock role row' rows entries) :
    Laid inBlock role row (r :: rows) entries := by
  have hopen (outer : List Nat) : openBlocks outer (Row.stream [r]) = outer := by
    rw [openBlocks_stream (x := r.tokens) (y := []) (by simp) (.inl rfl),
      openBlocks_eq_self hbraces]
  refine ⟨hrow, fun outer => ?_, fun outer => ?_, fun above below heq => ?_⟩
  · rw [foldlM_cons, hpass]
    exact h.rows_closed outer
  · rw [openBlocks_stream_cons, hopen]
    exact h.braces_closed outer
  · cases above with
    | nil => exact hrow.cut_nil
    | cons r' above =>
      obtain ⟨rfl, htail⟩ := cons.inj heq
      exact (h.cut above below htail).cons [] [] hpass hopen id id

theorem Laid.silent {lead : List Row} (hlead : ∀ r ∈ lead, r.code = [])
    (hbraces : ∀ r ∈ lead, ∀ t ∈ r.tokens, t.isBrace = false)
    (h : Laid inBlock role row rows entries) : Laid inBlock role row (lead ++ rows) entries := by
  induction lead with
  | nil => exact h
  | cons r lead ih =>
    obtain ⟨hr, hlead⟩ := forall_mem_cons.mp hlead
    obtain ⟨hrbraces, hbraces⟩ := forall_mem_cons.mp hbraces
    refine .cons h.pending (fun outer => pass?_of_silent ?_) hrbraces (ih hlead hbraces)
    rw [hr]
    rfl

theorem Laid.label (hr : r.IsLabel l) (hbraces : ∀ t ∈ r.tokens, t.isBrace = false)
    (h : Laid inBlock role (some r) rows entries) : Laid inBlock role none (r :: rows) entries :=
  .cons (pending_none _) (fun _ => pass?_of_label hr.bearing) hbraces h

theorem Laid.flat (hrow : Pending inBlock row) (hr : bearing r.code = .flat)
    (hbraces : ∀ t ∈ r.tokens, t.isBrace = false) : Laid inBlock role row [r] entries :=
  .cons hrow (fun _ => pass?_of_flat hr) hbraces .nil

theorem Laid.enclose {header closer : Row} {e : Enclosure} (own : List Stage)
    (hrow : Pending inBlock row) (hheader : bearing header.code = .opens e)
    (hcloser : bearing closer.code = .closes e)
    (hopen : ∀ outer, openBlocks outer (Row.stream [header]) =
      (own.map fun stage => stage.word.line).reverse ++ outer)
    (hclose : ∀ outer, openBlocks ((own.map fun stage => stage.word.line).reverse ++ outer)
      (Row.stream [closer]) = outer)
    (hframed : ∀ {frames label stages}, Framed inBlock' role' frames label stages →
      Framed inBlock role (⟨e, header, row⟩ :: frames) label (own ++ stages))
    (hpath : ∀ {stages}, Entry.Path role' entries' stages → Entry.Path role entries (own ++ stages))
    (h : Laid inBlock' role' none rows entries') :
    Laid inBlock role row (header :: (rows ++ [closer])) entries := by
  have hpass (outer : List Frame) : Standing.pass? ⟨outer, row⟩ header =
      some ⟨⟨e, header, row⟩ :: outer, none⟩ := pass?_of_opens hheader
  have hrows (outer : List Frame) :
      (header :: (rows ++ [closer])).foldlM Standing.pass? ⟨outer, row⟩ = some ⟨outer, none⟩ := by
    rw [foldlM_cons, hpass]
    simp only [Option.bind_eq_bind, Option.bind_some, foldlM_append, h.rows_closed]
    have hpassed := pass?_of_closes ⟨e, header, row⟩ outer none hcloser
    simp only [foldlM_cons, foldlM_nil, hpassed]
    rfl
  have hbraces (outer : List Nat) :
      openBlocks outer (Row.stream (header :: (rows ++ [closer]))) = outer := by
    rw [openBlocks_stream_cons, hopen, stream_append, openBlocks_append, h.braces_closed, hclose]
  refine ⟨hrow, hrows, hbraces, fun above below heq => ?_⟩
  cases above with
  | nil => exact hrow.cut_nil
  | cons r above =>
    obtain ⟨rfl, htail⟩ := cons.inj heq
    rcases append_eq_append_iff.mp htail with ⟨above', rfl, hcut⟩ | ⟨below', hrows', hcut⟩
    · -- the cut is made at one of the ends of the closing line
      cases above' with
      | nil =>
        rw [append_nil]
        exact (h.cut rows [] (by simp)).cons [⟨e, header, row⟩] own hpass hopen hframed
          hpath
      | cons c above' =>
        obtain ⟨rfl, hnil⟩ := cons.inj hcut
        obtain ⟨rfl, -⟩ := append_eq_nil_iff.mp hnil.symm
        exact .of_closed hrows hbraces
    · exact (h.cut above below' hrows').cons [⟨e, header, row⟩] own hpass hopen hframed
        hpath

end Laid

end CommandText
