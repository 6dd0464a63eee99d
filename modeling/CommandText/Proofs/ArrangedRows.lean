import CommandText.Proofs.OpenBlocks

/-!
# Entries arranged on lines

How the entries of a text stand on its lines. A command takes a line, behind a label or below one
that is alone on its line; a block or list has a line for its header and one for its closing
bracket; comments and notes have lines of their own. Everything that is said of the lines of a text
that is read without a miss follows from this.
-/

namespace CommandText

open List Token Entry

/-! ### The code of a line -/

namespace Row

/-- A line that holds some code, and a comment behind it perhaps. -/
structure Holds (r : Row) (code : List Token) : Prop where
  sound : r.Sound
  tokens : ∃ tail, r.tokens = code ++ tail ∧ IsTail tail
  plain : ∀ t ∈ code, t.isKind .comment = false ∧ t.isKind .note = false

namespace Holds

variable {r : Row} {code : List Token}

theorem code_eq (h : r.Holds code) : r.code = code := by
  obtain ⟨tail, htokens, htail⟩ := h.tokens
  exact Row.code_eq htokens h.plain htail

theorem line (h : r.Holds code) {t : Token} (ht : t ∈ code) : t.line = r.number := by
  obtain ⟨tail, htokens, -⟩ := h.tokens
  exact h.sound.line t (by simp [htokens, ht])

theorem isBrace (h : r.Holds code) (hcode : ∀ t ∈ code, t.isBrace = false) :
    ∀ t ∈ r.tokens, t.isBrace = false := by
  obtain ⟨tail, htokens, htail⟩ := h.tokens
  intro t ht
  rw [htokens] at ht
  rcases mem_append.mp ht with ht | ht
  · exact hcode t ht
  · exact isBrace_tail htail t ht

theorem openBlocks (h : r.Holds code) (outer : List Nat) :
    openBlocks outer (stream [r]) = CommandText.openBlocks outer code := by
  obtain ⟨tail, htokens, htail⟩ := h.tokens
  exact openBlocks_stream htokens htail outer

end Holds

end Row

/-! ### The lines of commands -/

mutual

/-- The lines of the command words in an entry. -/
def Entry.lines : Entry → List Nat
  | comment _ => []
  | role _ _ items => linesAll items
  | statement w _ body _ => w.line :: linesAll body

/-- The lines of the command words in some entries. -/
def Entry.linesAll : List Entry → List Nat
  | [] => []
  | e :: es => e.lines ++ linesAll es

end

namespace Entry

theorem linesAll_append (es es' : List Entry) :
    linesAll (es ++ es') = linesAll es ++ linesAll es' := by
  induction es with
  | nil => rfl
  | cons e es ih => rw [cons_append, linesAll, linesAll, ih, append_assoc]

theorem linesAll_comments (cs : List Comment) : linesAll (cs.map .comment) = [] := by
  induction cs with
  | nil => rfl
  | cons c cs ih => rw [map_cons, linesAll, lines, ih, append_nil]

theorem linesAll_singleton (e : Entry) : linesAll [e] = e.lines := append_nil _

theorem linesAll_underLabel (label : Option Token) (es : List Entry) :
    linesAll (underLabel label es) = linesAll es := by
  cases label with
  | none => rfl
  | some l => rw [underLabel, linesAll_singleton, lines]

/-- Each command word of some entries stands on a row of its own. -/
def StandOn (es : List Entry) (rows : List Row) : Prop :=
  (linesAll es).Sublist (rows.map Row.number)

end Entry

/-! ### Arranged entries -/

/-- The lines of some entries in a block or not and in the role of a list, with the lone label that
stands above them. -/
inductive Arranged : Bool → Option Token → Option Row → List Row → List Entry → Prop
  | comments {inBlock : Bool} {role : Option Token} (cs : List Comment) :
      Arranged inBlock role none [] (cs.map .comment)
  | append {inBlock : Bool} {role : Option Token} {row : Option Row} {rows rows' : List Row}
      {entries entries' : List Entry} (h : Arranged inBlock role row rows entries)
      (h' : Arranged inBlock role none rows' entries') :
      Arranged inBlock role row (rows ++ rows') (entries ++ entries')
  /-- A comment or a note. -/
  | silent {inBlock : Bool} {role : Option Token} {row : Option Row} {r : Row} {rows : List Row}
      {entries : List Entry} (hr : r.Sound) (hcode : r.code = [])
      (hbraces : ∀ t ∈ r.tokens, t.isBrace = false) (h : Arranged inBlock role row rows entries) :
      Arranged inBlock role row (r :: rows) entries
  /-- A lone label above what it belongs to. -/
  | label {inBlock : Bool} {role : Option Token} {r : Row} {l : Token} {rows : List Row}
      {entries : List Entry} (hr : r.Holds [l]) (hl : l.isKind .label = true)
      (h : Arranged inBlock role (some r) rows entries) :
      Arranged inBlock role none (r :: rows) entries
  /-- A command without a block. -/
  | leaf {inBlock : Bool} {role : Option Token} {row : Option Row} {front : List Token}
      {label : Option Token} {r : Row} {w : Token} {tokens : List Token} {args : List Argument}
      {closing : Closing} (hlead : Lead inBlock role row front label)
      (hr : r.Holds (front ++ w :: tokens)) (hw : w.isKind .identifier = true)
      (ha : Form.Arguments true tokens args []) :
      Arranged inBlock role row [r] (underLabel label [.statement w args [] (some closing)])
  /-- A command with a block. -/
  | block {inBlock : Bool} {role : Option Token} {row : Option Row} {front : List Token}
      {label : Option Token} {header closer : Row} {w o c : Token} {tokens : List Token}
      {args : List Argument} {rows : List Row} {body : List Entry} {closing : Closing}
      (hlead : Lead inBlock role row front label)
      (hheader : header.Holds (front ++ w :: (tokens ++ [o]))) (hw : w.isKind .identifier = true)
      (ha : Form.Arguments true tokens args [])
      (ho : o.isPunct .openBrace = true) (h : Arranged true none none rows body)
      (hcloser : closer.Holds [c]) (hc : c.isPunct .closeBrace = true) :
      Arranged inBlock role row (header :: (rows ++ [closer]))
        (underLabel label [.statement w args body (some closing)])
  /-- A list of commands in a role. -/
  | list {header closer : Row} {l o c : Token} {rows : List Row} {items : List Entry}
      (hheader : header.Holds [l, o]) (hl : l.isKind .label = true)
      (ho : o.isPunct .openBracket = true) (h : Arranged false (some l) none rows items)
      (hcloser : closer.Holds [c]) (hc : c.isPunct .closeBracket = true) :
      Arranged true none none (header :: (rows ++ [closer])) [.role l true items]

namespace Arranged

variable {inBlock : Bool} {role : Option Token} {row : Option Row} {rows : List Row}
  {entries : List Entry}

theorem standOn (h : Arranged inBlock role row rows entries) : Entry.StandOn entries rows := by
  induction h with
  | comments cs =>
    rw [Entry.StandOn, linesAll_comments]
    exact nil_sublist _
  | append _ _ ih ih' =>
    rw [Entry.StandOn, linesAll_append, map_append]
    exact List.Sublist.append ih ih'
  | silent _ _ _ _ ih => exact List.Sublist.cons _ ih
  | label _ _ _ ih => exact List.Sublist.cons _ ih
  | leaf _ hr _ _ =>
    rw [Entry.StandOn, linesAll_underLabel, linesAll_singleton, Entry.lines,
      hr.line (by simp)]
    exact List.Sublist.refl _
  | block _ hheader _ _ _ _ _ _ ih =>
    rw [Entry.StandOn, linesAll_underLabel, linesAll_singleton, Entry.lines,
      hheader.line (by simp), map_cons, map_append]
    exact (List.Sublist.trans ih (sublist_append_left _ _)).cons_cons _
  | list _ _ _ _ _ _ ih =>
    rw [Entry.StandOn, linesAll_singleton, Entry.lines, map_cons, map_append]
    exact (List.Sublist.trans ih (sublist_append_left _ _)).cons _

section Command

variable {front : List Token} {w : Token} {tokens : List Token}

theorem isBrace_command (hfront : ∀ t ∈ front, t.isKind .label = true)
    (hw : w.isKind .identifier = true) (htokens : Form.ArgumentTokens tokens) :
    ∀ t ∈ front ++ w :: tokens, t.isBrace = false := by
  intro t ht
  rcases mem_append.mp ht with ht | ht
  · exact t.isBrace_of_kind (by simp [isKind_iff.mp (hfront t ht)])
  · rcases mem_cons.mp ht with rfl | ht
    · exact t.isBrace_of_kind (by simp [isKind_iff.mp hw])
    · exact Form.isBrace_of_inArguments (htokens.all t ht)

end Command

theorem laid (h : Arranged inBlock role row rows entries) : Laid inBlock role row rows entries := by
  induction h with
  | comments cs => exact .nil
  | append _ _ ih ih' => exact ih.append ih'
  | silent _ hcode hbraces _ ih =>
    exact .silent (forall_mem_singleton.mpr hcode) (forall_mem_singleton.mpr hbraces) ih
  | label hr hl _ ih =>
    refine .label ⟨hr.code_eq, hl⟩ (hr.isBrace ?_) ih
    simpa using isBrace_of_kind (by simp [isKind_iff.mp hl])
  | leaf hlead hr hw ha =>
    exact .flat hlead.pending (hr.code_eq ▸ bearing_leaf hlead.isLabel hw ha.argumentTokens)
      (hr.isBrace (isBrace_command hlead.isLabel hw ha.argumentTokens))
  | @block _ role _ front label _ _ w o _ _ args _ _ _ hlead hheader hw ha ho _ hcloser hc ih =>
    have htokens := ha.argumentTokens
    -- the brace stands on the line of the command word
    have hline : o.line = w.line := (hheader.line (by simp)).trans (hheader.line (by simp)).symm
    have hcloses := bearing_closer (e := .block) hc
    refine .enclose [⟨label.or role, w, args⟩] hlead.pending
      (hheader.code_eq ▸ bearing_header hlead.isLabel hw htokens ho) (hcloser.code_eq ▸ hcloses)
      (fun outer => ?_) (fun outer => ?_)
      (fun hframed => .block hlead hheader.code_eq hw ha.writes ho hframed)
      (fun hpath => hlead.path (.statement [] [] hpath)) ih
    · rw [hheader.openBlocks, ← cons_append, ← append_assoc, openBlocks_append,
        openBlocks_eq_self (isBrace_command hlead.isLabel hw htokens)]
      simp [CommandText.openBlocks, openBlock, ho, hline]
    · rw [hcloser.openBlocks]
      simp [CommandText.openBlocks, openBlock, hc, isPunct_of_isPunct hc]
  | @list _ _ l _ _ _ _ hheader hl ho _ hcloser hc ih =>
    have hcloses := bearing_closer (e := .list) hc
    refine .enclose [] (pending_none _) (hheader.code_eq ▸ bearing_list hl ho)
      (hcloser.code_eq ▸ hcloses) (fun outer => ?_) (fun outer => ?_)
      (fun hframed => .list hheader.code_eq hl ho hframed) (fun hpath => .role [] [] hpath) ih
    · rw [hheader.openBlocks]
      refine openBlocks_eq_self (forall_mem_cons.mpr ⟨?_, forall_mem_singleton.mpr ?_⟩) _
      · exact l.isBrace_of_kind (by simp [isKind_iff.mp hl])
      · simp [Token.isBrace, isPunct_of_isPunct ho]
    · rw [hcloser.openBlocks]
      refine openBlocks_eq_self (forall_mem_singleton.mpr ?_) _
      simp [Token.isBrace, isPunct_of_isPunct hc]

end Arranged

end CommandText
