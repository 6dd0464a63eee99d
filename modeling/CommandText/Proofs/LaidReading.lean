import CommandText.Proofs.ArrangedRows

/-!
# The lines of a text without a miss

Statements stand on lines of their own. So the tokens that a part of a text takes are those of whole
lines, apart from a label that may stand in front of a command, and the entries of a text that is
read without a miss are arranged on its lines.
-/

namespace CommandText

open Token List

namespace Form

open Row

variable {args : List Argument} {footer header : List Comment} {es : List Entry} {rows : List Row}
  {above input mid mid₁ mid₂ notes rest : List Token} {b : ReadM.Body} {c : Token}

/-! ### The lines of small parts -/

theorem Lines.exists_rows {kind : TokenKind} (hkind : kind = .comment ∨ kind = .note)
    (hrows : ∀ r ∈ rows, r.Sound) {ts : List Token} (h : Lines kind (stream rows) ts mid) :
    ∃ lead rows', rows = lead ++ rows' ∧ mid = stream rows' ∧
      ∀ {inBlock role row entries} (below : List Row), Arranged inBlock role row below entries →
        Arranged inBlock role row (lead ++ below) entries := by
  generalize hinput : stream rows = input at h
  induction h generalizing rows with
  | stop => exact ⟨[], rows, rfl, hinput.symm, fun _ h => h⟩
  | @line t n input ts rest ht hn _ ih =>
    obtain ⟨r, rows, x, rfl, htokens, hx⟩ := exists_cons_of_stream hrows hinput
    obtain ⟨hr, hrows⟩ := forall_mem_cons.mp hrows
    obtain rfl : x = [] := by
      cases x with
      | nil => rfl
      | cons u x =>
        obtain ⟨rfl, -⟩ := cons.inj hx
        have := hr.newline n (by simp [htokens])
        rw [hn] at this
        cases this
    obtain ⟨lead, rows', rfl, rfl, hlead⟩ := ih hrows (cons.inj hx).2.symm
    refine ⟨r :: lead, rows', rfl, rfl, fun below h => .silent hr ?_ ?_ (hlead below h)⟩
    · rw [code, codeOf, htokens]
      rcases hkind with rfl | rfl <;> simp [ht]
    · rw [htokens, forall_mem_singleton]
      refine t.isBrace_of_kind ?_
      rw [isKind_iff.mp ht]
      rcases hkind with rfl | rfl <;> decide

theorem newline_of_inArguments {t : Token} (h : inArguments t = true) :
    t.isKind .newline = false ∧ t.isKind .comment = false ∧ t.isKind .note = false := by
  simp only [isKind_eq_false_iff]
  rcases inArguments_iff.mp h with h | h | h | h | h
  · rw [isValue_iff] at h
    refine ⟨?_, ?_, ?_⟩ <;> intro hk <;> rw [hk] at h <;> exact absurd h (by decide)
  · simp [h]
  all_goals simp [kind, h, Lexeme.kind]

theorem Arguments.exists_line {y rows : List Token} {n : Token} (hn : n.isKind .newline = true)
    (h : Arguments true (y ++ n :: rows) args mid) :
    ∃ tokens y', y = tokens ++ y' ∧ mid = y' ++ n :: rows ∧ Arguments true tokens args [] := by
  obtain ⟨tokens, hinput, htokens, hkeep, -⟩ := h.move
  obtain ⟨y', rfl, rfl⟩ := split_line hn
    (fun t ht => (newline_of_inArguments (htokens.all t ht)).1) hinput.symm
  have hargs := hkeep [] rfl
  rw [append_nil] at hargs
  exact ⟨tokens, y', rfl, rfl, hargs⟩

/-! ### The lines of all parts -/

/-- The lines of a command: it starts within a line, behind a label or not. -/
def SpreadCommand (input : List Token) (b : ReadM.Body) (rest : List Token) : Prop :=
  ∀ (r : Row) (rows : List Row) (front x : List Token), r.Sound → (∀ r ∈ rows, r.Sound) →
    r.tokens = front ++ x → input = x ++ r.newline :: stream rows →
    ∃ rows₁ rows₂, rows = rows₁ ++ rows₂ ∧ rest = stream rows₂ ∧
      ∀ inBlock role row label, Lead inBlock role row front label →
        Arranged inBlock role row (r :: rows₁) (underLabel label b.1)

/-- The lines of statements: they start with a line. -/
def SpreadRows (inBlock : Bool) (role : Option Token) (input : List Token) (b : ReadM.Body)
    (rest : List Token) : Prop :=
  ∀ rows : List Row, (∀ r ∈ rows, r.Sound) → input = stream rows →
    ∃ rows₁ rows₂, rows = rows₁ ++ rows₂ ∧ rest = stream rows₂ ∧
      Arranged inBlock role none rows₁ b.1

/-- The lines of a part. -/
def Spread : Part → List Token → ReadM.Body → List Token → Prop
  | .command _ _, input, b, rest => SpreadCommand input b rest
  | .statement isLoose, input, b, rest =>
    (∃ above mid₁ notes mid₂, Lines .comment input above mid₁ ∧ Lines .note mid₁ notes mid₂ ∧
      startsWith (·.isKind .identifier) mid₂ = true ∧ SpreadCommand mid₂ b rest) ∨
    (isLoose = true ∧ (∃ cs : List Comment, b.1 = cs.map .comment) ∧
      ∃ above, Lines .comment input above rest)
  | .members, input, b, rest => SpreadRows true none input b rest
  | .items _, input, b, rest => ∀ role, SpreadRows false role input b rest

theorem exists_closer {p : Punct} (hc : c.isPunct p = true) (he : LineEnd mid footer rest)
    (hrows : ∀ r ∈ rows, r.Sound) (hinput : c :: mid = stream rows) :
    ∃ closer rows', rows = closer :: rows' ∧ rest = stream rows' ∧ closer.Holds [c] := by
  obtain ⟨closer, rows, x, rfl, htokens, rfl⟩ := exists_cons_of_stream hrows hinput.symm
  obtain ⟨hcloser, -⟩ := forall_mem_cons.mp hrows
  obtain ⟨hx, rfl⟩ := tail_of_lineEnd (n := closer.newline) rfl
    (fun t ht => hcloser.newline t (by simp [htokens, ht])) he
  refine ⟨closer, rows, rfl, rfl, hcloser, ⟨x, htokens, hx⟩, ?_⟩
  have hkind := kind_of_isPunct hc
  simp [isKind, hkind]

/-! ### Commands -/

section Command

variable {front : List Token} {w : Token} {tokens : List Token}

theorem holds_command (hfront : ∀ t ∈ front, t.isKind .label = true)
    (hw : w.isKind .identifier = true) (htokens : ArgumentTokens tokens) {r : Row} (hr : r.Sound)
    {brace y : List Token}
    (hbrace : ∀ t ∈ brace, t.isKind .comment = false ∧ t.isKind .note = false) (hy : IsTail y)
    (h : r.tokens = (front ++ w :: (tokens ++ brace)) ++ y) :
    r.Holds (front ++ w :: (tokens ++ brace)) := by
  refine ⟨hr, ⟨y, h, hy⟩, fun t ht => ?_⟩
  rcases mem_append.mp ht with ht | ht
  · simp [isKind, isKind_iff.mp (hfront t ht)]
  · rcases mem_cons.mp ht with rfl | ht
    · simp [isKind, isKind_iff.mp hw]
    · rcases mem_append.mp ht with ht | ht
      · exact (newline_of_inArguments (htokens.all t ht)).2
      · exact hbrace t ht

theorem exists_cons_of_ne {t n : Token} {x input rest : List Token}
    (h : t :: input = x ++ n :: rest) (hne : t ≠ n) : ∃ y, x = t :: y ∧ input = y ++ n :: rest := by
  cases x with
  | nil => exact absurd (cons.inj h).1 hne
  | cons u x =>
    obtain ⟨rfl, rfl⟩ := cons.inj h
    exact ⟨x, rfl, rfl⟩

theorem exists_command {r : Row} {x rows input : List Token} {args : List Argument}
    {mid : List Token} (hw : w.isKind .identifier = true)
    (hinput : w :: input = x ++ r.newline :: rows) (ha : Arguments true input args mid) :
    ∃ tokens y, x = w :: (tokens ++ y) ∧ mid = y ++ r.newline :: rows ∧
      Arguments true tokens args [] := by
  obtain ⟨x, rfl, rfl⟩ := exists_cons_of_ne hinput (by rintro rfl; cases hw)
  obtain ⟨tokens, y, rfl, rfl, hargs⟩ := ha.exists_line rfl
  exact ⟨tokens, y, rfl, rfl, hargs⟩

end Command

theorem spreadCommand_leaf {w : Token} (hw : w.isKind .identifier = true)
    (ha : Arguments true input args mid) (he : LineEnd mid footer rest) :
    SpreadCommand (w :: input)
      ([.statement w args [] (closing above notes [] footer)], []) rest := by
  intro r rows front x hr hrows hx hinput
  obtain ⟨tokens, y, rfl, rfl, hargs⟩ := exists_command hw hinput ha
  obtain ⟨hy, rfl⟩ := tail_of_lineEnd rfl (fun t ht => hr.newline t (by simp [hx, ht])) he
  refine ⟨[], rows, rfl, rfl, fun inBlock role row label hlead => ?_⟩
  have hholds := holds_command hlead.isLabel hw hargs.argumentTokens hr (forall_mem_nil _) hy
    (by simpa using hx)
  rw [append_nil] at hholds
  exact .leaf hlead hholds hw hargs

theorem spreadCommand_branch {w : Token} {o : Token} {body : List Entry} {inner : List Comment}
    {mid₃ : List Token} (hw : w.isKind .identifier = true)
    (ha : Arguments true input args (o :: mid₁)) (ho : o.isPunct .openBrace = true)
    (hh : LineEnd mid₁ header mid₂) (hm : SpreadRows true none mid₂ (body, inner) (c :: mid₃))
    (hc : c.isPunct .closeBrace = true) (he : LineEnd mid₃ footer rest) :
    SpreadCommand (w :: input)
      ([.statement w args body (closing above notes (header ++ inner) footer)], []) rest := by
  intro r rows front x hr hrows hx hinput
  obtain ⟨tokens, y, rfl, hmid, hargs⟩ := exists_command hw hinput ha
  obtain ⟨y, rfl, rfl⟩ := exists_cons_of_ne hmid (by rintro rfl; cases ho)
  obtain ⟨hy, rfl⟩ := tail_of_lineEnd rfl (fun t ht => hr.newline t (by simp [hx, ht])) hh
  obtain ⟨rows₁, rows₂, rfl, hrest, hbody⟩ := hm rows hrows rfl
  have hrows₂ : ∀ r ∈ rows₂, r.Sound := fun r hr => hrows r (mem_append_right _ hr)
  obtain ⟨closer, rows₂, rfl, rfl, hcloser⟩ := exists_closer hc he hrows₂ hrest
  refine ⟨rows₁ ++ [closer], rows₂, by simp, rfl, fun inBlock role row label hlead => ?_⟩
  have hbrace : o.isKind .comment = false ∧ o.isKind .note = false := by
    simp [isKind, kind_of_isPunct ho]
  have hholds := holds_command hlead.isLabel hw hargs.argumentTokens hr
    (forall_mem_singleton.mpr hbrace) hy
    (by simpa using hx)
  exact .block hlead hholds hw hargs ho hbody hcloser hc

/-! ### Statements -/

theorem SpreadCommand.of_lines (hc : Lines .comment input above mid₁)
    (hn : Lines .note mid₁ notes mid₂) (hstart : startsWith (·.isKind .identifier) mid₂ = true)
    (h : SpreadCommand mid₂ b rest) (hrows : ∀ r ∈ rows, r.Sound) (hinput : input = stream rows) :
    ∃ rows₁ rows₂, rows = rows₁ ++ rows₂ ∧ rest = stream rows₂ ∧
      ∀ inBlock role row label, Lead inBlock role row [] label →
        Arranged inBlock role row rows₁ (underLabel label b.1) := by
  subst hinput
  obtain ⟨lead, rows, rfl, rfl, hlead⟩ := hc.exists_rows (.inl rfl) hrows
  have hrows := fun r hr => hrows r (mem_append_right lead hr)
  obtain ⟨lead', rows, rfl, rfl, hlead'⟩ := hn.exists_rows (.inr rfl) hrows
  have hrows := fun r hr => hrows r (mem_append_right lead' hr)
  cases rows with
  | nil => cases hstart
  | cons r rows =>
    obtain ⟨hr, hrows⟩ := forall_mem_cons.mp hrows
    obtain ⟨rows₁, rows₂, rfl, rfl, harranged⟩ :=
      h r rows [] r.tokens hr hrows rfl (stream_cons r rows)
    refine ⟨lead ++ (lead' ++ r :: rows₁), rows₂, by simp, rfl,
      fun inBlock role row label hl => ?_⟩
    exact hlead _ (hlead' _ (harranged inBlock role row label hl))

theorem Spread.statement {isLoose : Bool} (h : Spread (.statement isLoose) input b rest)
    (inBlock : Bool) (role : Option Token) : SpreadRows inBlock role input b rest := by
  intro rows hrows hinput
  rcases h with ⟨above, mid₁, notes, mid₂, hc, hn, hstart, h⟩ | ⟨-, ⟨cs, hcs⟩, above, hc⟩
  · obtain ⟨rows₁, rows₂, rfl, rfl, harranged⟩ := h.of_lines hc hn hstart hrows hinput
    exact ⟨rows₁, rows₂, rfl, rfl, harranged inBlock role none none .plain⟩
  · subst hinput
    obtain ⟨lead, rows, rfl, rfl, hlead⟩ := hc.exists_rows (.inl rfl) hrows
    refine ⟨lead, rows, rfl, rfl, ?_⟩
    have harranged := hlead [] (@Arranged.comments inBlock role cs)
    rwa [append_nil, ← hcs] at harranged

theorem SpreadRows.append {inBlock : Bool} {role : Option Token} {comments : List Comment}
    {later : List Entry} {comments' : List Comment}
    (h : SpreadRows inBlock role input (es, comments) mid)
    (h' : SpreadRows inBlock role mid (later, comments') rest) (comments'' : List Comment) :
    SpreadRows inBlock role input (es ++ later, comments'') rest := by
  intro rows hrows hinput
  obtain ⟨rows₁, rows₂, rfl, rfl, harranged⟩ := h rows hrows hinput
  obtain ⟨rows₃, rows₄, rfl, rfl, harranged'⟩ :=
    h' rows₂ (fun r hr => hrows r (mem_append_right _ hr)) rfl
  exact ⟨rows₁ ++ rows₃, rows₄, by simp, rfl, harranged.append harranged'⟩

theorem SpreadRows.nil (inBlock : Bool) (role : Option Token) (rest : List Token) :
    SpreadRows inBlock role rest ([], []) rest :=
  fun rows _ hinput => ⟨[], rows, rfl, hinput, .comments []⟩

/-! ### Members with a role -/

theorem spreadRows_list {l o : Token} {items : List Entry} {mid₃ : List Token}
    (hl : l.isKind .label = true) (ho : o.isPunct .openBracket = true)
    (hh : LineEnd input header mid₁) (hi : SpreadRows false (some l) mid₁ (items, []) (c :: mid₂))
    (hc : c.isPunct .closeBracket = true) (hf : LineEnd mid₂ footer mid₃) :
    SpreadRows true none (l :: o :: input) ([.role l true items], header ++ footer) mid₃ := by
  intro rows hrows hinput
  obtain ⟨r, rows, x, rfl, htokens, hx⟩ := exists_cons_of_stream hrows hinput.symm
  obtain ⟨hr, hrows⟩ := forall_mem_cons.mp hrows
  obtain ⟨y, rfl, rfl⟩ := exists_cons_of_ne hx (by rintro rfl; cases ho)
  obtain ⟨hy, rfl⟩ := tail_of_lineEnd rfl (fun t ht => hr.newline t (by simp [htokens, ht])) hh
  obtain ⟨rows₁, rows₂, rfl, hrest, hitems⟩ := hi rows hrows rfl
  have hrows₂ : ∀ r ∈ rows₂, r.Sound := fun r hr => hrows r (mem_append_right _ hr)
  obtain ⟨closer, rows₂, rfl, rfl, hcloser⟩ := exists_closer hc hf hrows₂ hrest
  have hholds : r.Holds [l, o] := by
    refine ⟨hr, ⟨y, htokens, hy⟩, ?_⟩
    simp [isKind, isKind_iff.mp hl, kind_of_isPunct ho]
  exact ⟨r :: (rows₁ ++ [closer]), rows₂, by simp, rfl, .list hholds hl ho hitems hcloser hc⟩

theorem spreadRows_role {l : Token} {child : List Entry} (hl : l.isKind .label = true)
    (hb : Break input header mid₁) (hs : Spread (.statement false) mid₁ (child, []) mid₂) :
    SpreadRows true none (l :: input) ([.role l false child], header) mid₂ := by
  obtain ⟨above, mid₃, notes, mid₄, hc, hn, hstart, h⟩ : ∃ above mid₃ notes mid₄,
      Lines .comment mid₁ above mid₃ ∧ Lines .note mid₃ notes mid₄ ∧
      startsWith (·.isKind .identifier) mid₄ = true ∧ SpreadCommand mid₄ (child, []) mid₂ := by
    rcases hs with h | ⟨h, -⟩
    · exact h
    · cases h
  intro rows hrows hinput
  obtain ⟨r, rows, x, rfl, htokens, rfl⟩ := exists_cons_of_stream hrows hinput.symm
  obtain ⟨hr, hrows⟩ := forall_mem_cons.mp hrows
  have hx : ∀ t ∈ x, t.isKind .newline = false := fun t ht => hr.newline t (by simp [htokens, ht])
  cases hb with
  | none hnone =>
    -- the command stands on the line of the label, where no comment or note is in front of it
    have hne : x ≠ [] := by
      rintro rfl
      cases hnone
    obtain ⟨u, x, rfl⟩ := exists_cons_of_ne_nil hne
    have hcomment : u.isKind .comment = false := (Bool.or_eq_false_iff.mp hnone).1
    have hnote : u.isKind .note = false := by
      cases hnote : u.isKind .note with
      | false => rfl
      | true =>
        have := hr.note u (by simp [htokens]) hnote
        rw [htokens] at this
        simp at this
    rcases hc.starts with ⟨-, rfl⟩ | hstarts
    · rcases hn.starts with ⟨-, rfl⟩ | hstarts
      · obtain ⟨rows₁, rows₂, rfl, rfl, harranged⟩ :=
          h r rows [l] (u :: x) hr hrows htokens rfl
        exact ⟨r :: rows₁, rows₂, rfl, rfl, harranged true none none (some l) (.beside hl)⟩
      · exact absurd (hstarts.symm.trans hnote) (by simp)
    · exact absurd (hstarts.symm.trans hcomment) (by simp)
  | some hend =>
    obtain ⟨hy, rfl⟩ := tail_of_lineEnd rfl hx hend
    have hholds : r.Holds [l] := by
      refine ⟨hr, ⟨x, htokens, hy⟩, ?_⟩
      simp [isKind, isKind_iff.mp hl]
    obtain ⟨rows₁, rows₂, rfl, rfl, harranged⟩ := h.of_lines hc hn hstart hrows rfl
    exact ⟨r :: rows₁, rows₂, rfl, rfl, .label hholds hl
      (harranged true none (some r) (some l) (.below ⟨hholds.code_eq, hl⟩))⟩

theorem Reads.spread {part : Part} (h : Reads part input b rest) : Spread part input b rest := by
  induction h with
  | leaf hw ha he => exact spreadCommand_leaf hw ha he
  | branch hw ha ho hh _ hc he ih => exact spreadCommand_branch hw ha ho hh ih hc he
  | lead hc hn h ih => exact .inl ⟨_, _, _, _, hc, hn, h.starts_command, ih⟩
  | loose hc => exact .inr ⟨rfl, ⟨_, rfl⟩, _, hc⟩
  | noMember => exact .nil true none _
  | listMember hl ho hh _ hc hf _ ihi ih =>
    exact (spreadRows_list hl ho hh (ihi _) hc hf).append ih _
  | roleMember hl _ hb _ _ ihs ih => exact (spreadRows_role hl hb ihs).append ih _
  | member _ _ ihs ih => exact (ihs.statement true none).append ih _
  | noItem => exact fun role => .nil false role _
  | item _ _ ihs ih => exact fun role => (ihs.statement false role).append (ih role) _

theorem Reads.arranged (hrows : ∀ r ∈ rows, r.Sound)
    (h : Reads (.items none) (stream rows) (es, []) []) : Arranged false none none rows es := by
  obtain ⟨rows₁, rows₂, rfl, hrest, harranged⟩ := h.spread none rows hrows rfl
  cases rows₂ with
  | nil => rwa [append_nil]
  | cons r rows₂ =>
    rw [stream_cons] at hrest
    simp at hrest

theorem Reads.laid (hrows : ∀ r ∈ rows, r.Sound)
    (h : Reads (.items none) (stream rows) (es, []) []) :
    Entry.StandOn es rows ∧ Laid false none none rows es :=
  ⟨(h.arranged hrows).standOn, (h.arranged hrows).laid⟩

end Form

end CommandText
