import CommandText.Proofs.BlankCursor
import CommandText.Proofs.DeliveredStatements

/-!
# The sites of commands

Each statement of a text that is read without a miss has a line for its command. Above the line some
blocks and lists are open, and they show the way down to the statement.
-/

namespace CommandText

open List Entry Standing

/-- The site of a command: the row that holds it, what is open above the row, and the way down to
the command. -/
structure Site (inBlock : Bool) (role : Option Token) (row : Option Row) (rows : List Row)
    (entries : List Entry) (w : Token) (args : List Argument) where
  above : List Row
  line : Row
  below : List Row
  frames : List Frame
  /-- The lone label in front of the row. -/
  label : Option Row
  stages : List Stage
  /-- What stands in front of the command on its row. -/
  front : List Token
  /-- The label of the command, on its row or above. -/
  own : Option Token
  tokens : List Token
  brace : Option Token
  rows_eq : rows = above ++ line :: below
  pass : ∀ outer, above.foldlM Standing.pass? ⟨outer, row⟩ = some ⟨frames.reverse ++ outer, label⟩
  framed : Framed inBlock role frames label stages
  lead : Lead (innermost inBlock role frames).1 (innermost inBlock role frames).2 label front own
  holds : line.Holds (front ++ w :: (tokens ++ brace.toList))
  isIdentifier : w.isKind .identifier = true
  arguments : Form.Arguments true tokens args []
  isBrace : ∀ o ∈ brace, o.isPunct .openBrace = true
  path : Entry.Path role entries (stages ++ [⟨own.or (innermost inBlock role frames).2, w, args⟩])

section Site

variable {inBlock inBlock' : Bool} {role role' : Option Token} {row row' : Option Row}
  {rows rows' : List Row} {entries entries' : List Entry} {w : Token} {args : List Argument}

/-- The way down to the command. -/
def Site.way (p : Site inBlock role row rows entries w args) : List Stage :=
  p.stages ++ [⟨p.own.or (innermost inBlock role p.frames).2, w, args⟩]

/-- The lines that are open above the row of the command. -/
def Site.openLines (p : Site inBlock role row rows entries w args) : List Line :=
  (openRows p.frames p.label).map Row.text

/-- The same site with other rows around, which open some frames. -/
def Site.within (p : Site inBlock' role' row' rows' entries' w args) (above below : List Row)
    (frames : List Frame) (stages : List Stage)
    (hpass : ∀ outer, above.foldlM Standing.pass? ⟨outer, row⟩ =
      some ⟨frames.reverse ++ outer, row'⟩)
    (hinner : innermost inBlock role (frames ++ p.frames) = innermost inBlock' role' p.frames)
    (hframed : Framed inBlock' role' p.frames p.label p.stages →
      Framed inBlock role (frames ++ p.frames) p.label (stages ++ p.stages))
    (hpath : ∀ {inner}, Entry.Path role' entries' inner →
      Entry.Path role entries (stages ++ inner)) :
    Site inBlock role row (above ++ (rows' ++ below)) entries w args where
  above := above ++ p.above
  line := p.line
  below := p.below ++ below
  frames := frames ++ p.frames
  label := p.label
  stages := stages ++ p.stages
  front := p.front
  own := p.own
  tokens := p.tokens
  brace := p.brace
  rows_eq := by simp [p.rows_eq]
  pass outer := by
    rw [foldlM_append, hpass, reverse_append, append_assoc]
    exact p.pass _
  framed := hframed p.framed
  lead := hinner ▸ p.lead
  holds := p.holds
  isIdentifier := p.isIdentifier
  arguments := p.arguments
  isBrace := p.isBrace
  path := by
    rw [append_assoc, hinner]
    exact hpath p.path

/-- The same site below a row that opens nothing. -/
def Site.cons (p : Site inBlock role row' rows entries w args) (r : Row)
    (hpass : ∀ outer, Standing.pass? ⟨outer, row⟩ r = some ⟨outer, row'⟩) :
    Site inBlock role row (r :: rows) entries w args where
  __ := p.within [r] [] [] [] (fun outer => by simp [hpass]) rfl id id
  rows_eq := by simp [Site.within, p.rows_eq]

theorem visitAll_underLabel (enclosing : Option Unit) (label : Option Token) (es : List Entry)
    (told : List (Statement Nat)) :
    (visitAll scribe enclosing (underLabel label es) told).2 =
      (visitAll scribe enclosing es told).2 := by
  cases label <;> rfl

theorem visitAll_comments (enclosing : Option Unit) (cs : List Comment)
    (told : List (Statement Nat)) :
    (visitAll scribe enclosing (cs.map .comment) told).2 = told := by
  induction cs with
  | nil => rfl
  | cons c cs ih => exact ih

theorem Arranged.exists_site (h : Arranged inBlock role row rows entries) (enclosing : Option Unit)
    (told : List (Statement Nat)) :
    ∀ statement ∈ (visitAll scribe enclosing entries told).2, statement ∈ told ∨
      Nonempty (Site inBlock role row rows entries statement.command statement.arguments) := by
  induction h generalizing enclosing told with
  | comments cs =>
    intro statement hstatement
    rw [visitAll_comments] at hstatement
    exact .inl hstatement
  | @append inBlock role row rows rows' entries entries' h h' ih ih' =>
    intro statement hstatement
    rw [visitAll_append] at hstatement
    rcases ih' enclosing _ statement hstatement with hstatement | ⟨⟨p⟩⟩
    · rcases ih enclosing told statement hstatement with hstatement | ⟨⟨p⟩⟩
      · exact .inl hstatement
      · exact .inr ⟨p.within [] rows' [] [] (fun _ => rfl) rfl id
          fun hpath => hpath.append_right entries'⟩
    · have q := p.within rows [] [] [] h.laid.rows_closed rfl id
        fun hpath => hpath.append_left entries
      rw [append_nil] at q
      exact .inr ⟨q⟩
  | silent _ hcode _ _ ih =>
    intro statement hstatement
    refine (ih enclosing told statement hstatement).imp_right fun ⟨p⟩ => ⟨p.cons _ fun outer => ?_⟩
    exact pass?_of_silent (by rw [hcode]; rfl)
  | label hr hl _ ih =>
    intro statement hstatement
    refine (ih enclosing told statement hstatement).imp_right fun ⟨p⟩ => ⟨p.cons _ fun outer => ?_⟩
    exact pass?_of_label (Row.IsLabel.bearing ⟨hr.code_eq, hl⟩)
  | @leaf inBlock role row front label r w tokens args closing hlead hr hw ha =>
    intro statement hstatement
    rw [visitAll_underLabel] at hstatement
    rcases mem_append.mp hstatement with hstatement | hstatement
    · exact .inl hstatement
    · obtain rfl := mem_singleton.mp hstatement
      exact .inr ⟨[], r, [], [], row, [], front, label, tokens, none, rfl, fun _ => rfl,
        .here hlead.pending, hlead, by simpa using hr, hw, ha, by simp,
        hlead.path (.statement [] [] .here)⟩
  | @block inBlock role row front label header closer w o c tokens args rows body closing hlead
      hheader hw ha ho h hcloser hc ih =>
    intro statement hstatement
    rw [visitAll_underLabel] at hstatement
    rcases mem_append.mp hstatement with hstatement | hstatement
    · refine (ih (some ()) told statement hstatement).imp_right fun ⟨p⟩ => ?_
      have hopens : bearing header.code = .opens .block :=
        hheader.code_eq ▸ bearing_header hlead.isLabel hw ha.argumentTokens ho
      exact ⟨p.within [header] [closer] [⟨.block, header, row⟩] [⟨label.or role, w, args⟩]
        (fun outer => by simp [pass?_of_opens hopens]) rfl
        (fun hframed => .block hlead hheader.code_eq hw ha.writes ho hframed)
        fun hpath => hlead.path (.statement [] [] hpath)⟩
    · obtain rfl := mem_singleton.mp hstatement
      exact .inr ⟨[], header, rows ++ [closer], [], row, [], front, label, tokens, some o, rfl,
        fun _ => rfl, .here hlead.pending, hlead, hheader, hw, ha, by simpa using ho,
        hlead.path (.statement [] [] .here)⟩
  | @list header closer l o c rows items hheader hl ho h hcloser hc ih =>
    intro statement hstatement
    refine (ih enclosing told statement hstatement).imp_right fun ⟨p⟩ => ?_
    have hopens : bearing header.code = .opens .list := hheader.code_eq ▸ bearing_list hl ho
    exact ⟨p.within [header] [closer] [⟨.list, header, none⟩] []
      (fun outer => by simp [pass?_of_opens hopens])
      (by rw [singleton_append, innermost, hheader.code_eq]; rfl)
      (fun hframed => .list hheader.code_eq hl ho hframed) fun hpath => .role [] [] hpath⟩

end Site

/-! ### Sites in a text -/

section Text

variable {text : List Char} {es : List Entry}

theorem exists_site (hmark : Unmarked text)
    (hcontinues : ∀ l ∈ scanLines .stock 0 false (linesOf text), l.continues = false)
    (hreads : Form.Reads (.items none) (tokenize .stock text) (es, []) [])
    {statement : Statement Nat} (h : statement ∈ statements es) :
    Nonempty (Site false none none (Row.laden (textRows .stock text)) es statement.command
      statement.arguments) := by
  have harranged : Arranged false none none (Row.laden (textRows .stock text)) es :=
    Form.Reads.arranged (fun _ hr => sound_of_mem_laden hr)
      (tokenize_eq_stream hmark hcontinues ▸ hreads)
  exact (harranged.exists_site none [] statement h).resolve_left not_mem_nil

theorem of_textRows_eq_append {above below : List Row} {r : Row}
    (h : textRows .stock text = above ++ r :: below) :
    r.number = above.length + 1 ∧ (documentLines text)[above.length]? = some r.text ∧
      above.map Row.text = (documentLines text).take above.length := by
  have hnumbers := congrArg (List.map Row.number) h
  have htexts := congrArg (List.map Row.text) h
  rw [textRows, map_number_rowsFrom, map_append, map_cons] at hnumbers
  rw [textRows, map_text_rowsFrom, map_append, map_cons] at htexts
  refine ⟨?_, ?_, ?_⟩
  · have hnumber := congrArg (·[above.length]?) hnumbers
    simp only [getElem?_append_right, length_map, Nat.le_refl, Nat.sub_self,
      getElem?_cons_zero] at hnumber
    obtain ⟨hlt, hnumber⟩ := List.getElem?_eq_some_iff.mp hnumber
    rw [getElem_range'] at hnumber
    omega
  · rw [htexts, getElem?_append_right (by simp), length_map, Nat.sub_self,
      getElem?_cons_zero]
  · rw [htexts, take_append_of_le_length (by simp), take_of_length_le (by simp)]

theorem Site.exists_above {w : Token} {args : List Argument}
    (p : Site false none none (Row.laden (textRows .stock text)) es w args) :
    ∃ above below, textRows .stock text = above ++ p.line :: below ∧
      above.foldlM Standing.pass? {} = some ⟨p.frames.reverse, p.label⟩ := by
  obtain ⟨rows₁, rows₂, hrows, habove, hbelow⟩ := filter_eq_append_iff.mp p.rows_eq
  obtain ⟨silent, below, rfl, hsilent, -, -⟩ := filter_eq_cons_iff.mp hbelow
  refine ⟨rows₁ ++ silent, below, by simp [hrows], ?_⟩
  have hladen : Row.laden (rows₁ ++ silent) = p.above := by
    rw [Row.laden_append, ← habove, show Row.laden silent = [] from filter_eq_nil_iff.mpr hsilent,
      append_nil]
    rfl
  rw [← foldlM_laden, hladen, p.pass, append_nil]

end Text

end CommandText
