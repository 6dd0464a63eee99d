import CommandText.Proofs.BoundArguments
import CommandText.Proofs.CommandSites
import CommandText.Proofs.CursorContext
import CommandText.Proofs.CutRows
import CommandText.Proofs.OpenArguments
import CommandText.Proofs.RealizedStatements

/-!
# The context on the line of a command

On the line of a command, the outline ends with the command and the arguments that stand in front of
the cursor. It is rebuilt to an element of the same class as the one that the command has in the
model of the text.
-/

namespace CommandText

open List Model ReadM

/-! ### Reading the outline -/

/-- A line that holds a command, with what stands in front of it, and arguments that are read up to
its end. -/
structure CommandLine (front : List Token) (w : Token) (line : Line) : Prop where
  portable : Portable line
  tokens : ∀ number, ∃ tokens, EndsArguments tokens ∧
    (scanBare .stock number (dropReturn line)).1 =
      (front ++ [w]).map (Token.onLine number) ++ tokens

theorem CommandLine.exists_thin {front : List Token} {w : Token} {line : Line}
    (h : CommandLine front w line) (hw : w.isKind .identifier = true) {frames : List Frame}
    {row : Option Row} {stages : List Stage} (hframed : Framed false none frames row stages)
    {own : Option Token}
    (hlead : Lead (innermost false none frames).1 (innermost false none frames).2 row front own)
    (hrows : ∀ r ∈ openRows frames row, r.Genuine ∧ r.code ≠ []) (args : List Argument) :
    ∃ stages', List.Forall₂ Stage.Kin
        (stages ++ [⟨own.or (innermost false none frames).2, w, args⟩]) stages' ∧
      Thin none (parse (tokenize .stock (List.intercalate ['\n']
        (outlineLines frames row line)))).entries stages' := by
  obtain ⟨rows, number, shut, hcopies, hshut, htokens⟩ := tokenize_outlineLines hrows h.portable
  obtain ⟨tokens, hargs, hscan⟩ := h.tokens number
  let r := rowAt .stock number (dropReturn line)
  have hr : r.tokens = (front ++ [w]).map (Token.onLine r.number) ++ tokens := hscan
  rw [Row.laden_cons_of_ne_nil (show r.tokens ≠ [] by simp [hr])] at htokens
  have hlength : frames.length ≤ (Row.stream (rows ++ [r]) ++ Row.stream shut.reverse).length := by
    have hle := Row.length_le_stream shut.reverse
    rw [length_reverse, ← hshut.length_eq] at hle
    rw [length_append]
    omega
  obtain ⟨es, comments, stages', hkin, hthin, hfinishes⟩ :=
    hframed.finishes_line hlead rfl hcopies hshut hw hargs hr
      (show 1 + 2 * frames.length <
        2 * (Row.stream (rows ++ [r]) ++ Row.stream shut.reverse).length + 2 by omega) args
  refine ⟨stages', hkin, ?_⟩
  rw [htokens]
  show Thin none (parse (Row.stream (rows ++ [r]) ++ Row.stream shut.reverse)).entries stages'
  rw [parse_of_finishes hfinishes]
  exact hthin

/-! ### The last of a way down -/

theorem Model.Descends.exists_last {s : Schema} {m : Model} {outer : Option ClassId}
    {stages : List Stage} {stage : Stage} {ids : List ElementId}
    (h : m.Descends s outer (stages ++ [stage]) ids) :
    ∃ ids' id outer', ids = ids' ++ [id] ∧ m.Made s outer' stage id := by
  induction stages generalizing outer ids with
  | nil =>
    cases h with
    | cons made _ rest =>
      cases rest
      exact ⟨[], _, outer, rfl, made⟩
  | cons first stages ih =>
    cases h with
    | @cons _ _ id _ ids made _ rest =>
      obtain ⟨ids', last, outer', rfl, hlast⟩ := ih rest
      exact ⟨id :: ids', last, outer', rfl, hlast⟩

theorem forall₂_last {α β : Type} {R : α → β → Prop} {as : List α} {bs : List β} {a : α} {b : β}
    (h : List.Forall₂ R (as ++ [a]) (bs ++ [b])) : R a b := by
  rw [← List.forall₂_reverse_iff, reverse_concat, reverse_concat, List.forall₂_cons] at h
  exact h.1

/-! ### The element of a command -/

/-- A text that is turned into elements without a problem, and in which no line is continued. -/
structure Flawless (s : Schema) (text : List Char) : Prop where
  accepted : s.Accepted
  pattern : s.pattern = .stock
  mark : '\ufeff' ∉ text
  continues : ∀ l ∈ scanLines s.pattern 0 false (linesOf text), l.continues = false
  problems : (instantiate s text).problems = []

/-- The site of a statement in a text. -/
abbrev Statement.Site (s : Schema) (text : List Char) (statement : Statement Nat) :=
  CommandText.Site false none none (Row.laden (textRows .stock text))
    (parse (tokenize s.pattern text)).entries statement.command statement.arguments

section Flawless

variable {s : Schema} {text : List Char} (h : Flawless s text) {k : Nat} {statement : Statement Nat}
include h

theorem Flawless.reads : Form.Reads (.items none) (tokenize .stock text)
    ((parse (tokenize s.pattern text)).entries, []) [] := by
  have hparse := (problems_eq_nil_of_instantiate h.problems).2
  rw [h.pattern] at hparse ⊢
  exact (parse_eq_iff _ _).mp (congrArg (Parsed.mk _) hparse)

theorem Flawless.stock_continues :
    ∀ l ∈ scanLines .stock 0 false (linesOf text), l.continues = false :=
  h.pattern ▸ h.continues

theorem Flawless.genuine {r : Row} (hr : r ∈ textRows .stock text) : r.Genuine :=
  genuine_of_mem_rowsFrom (fun _ hline => unmarked_of_not_mem fun hc =>
    h.mark (mem_of_mem_documentLines hline hc).1) h.stock_continues hr

theorem Flawless.realizes : (instantiate s text).model.Realizes s
    (Entry.statements (parse (tokenize s.pattern text)).entries) :=
  (kept_text (P := fun _ _ => True) h.accepted (fun _ _ _ _ _ _ _ => trivial) trivial h.problems).1

variable (hk : (Entry.statements (parse (tokenize s.pattern text)).entries)[k]? = some statement)
include hk

theorem Flawless.exists_site : Nonempty (statement.Site s text) :=
  CommandText.exists_site (unmarked_of_not_mem h.mark) h.stock_continues h.reads
    (mem_of_getElem? hk)

variable (p : statement.Site s text)

theorem Flawless.exists_descends : ∃ ids outer,
    (instantiate s text).model.Descends s none p.way (ids ++ [k]) ∧
    (instantiate s text).model.Made s outer
      ⟨p.own.or (innermost false none p.frames).2, statement.command, statement.arguments⟩ k := by
  have hbuild := (problems_eq_nil_of_instantiate h.problems).1
  obtain ⟨ids, hdescends, -⟩ := p.path.finds h.accepted none hbuild
  obtain ⟨ids, id, outer, rfl, hmade⟩ := hdescends.exists_last
  -- both stand on the line of the command, and no other element does
  have hnodup : (instantiate s text).model.lines.Nodup :=
    (numbers_visitAll h.accepted none _ .blank).nodup rfl
      (nodup_linesAll h.mark h.stock_continues h.reads)
  have hlt : k < (instantiate s text).model.size :=
    h.realizes.size ▸ (List.getElem?_eq_some_iff.mp hk).1
  have hline := hmade.line.trans (h.realizes.line k statement hk).symm
  obtain rfl := Model.eq_of_line_eq hnodup hmade.lt_size hlt hline
  exact ⟨ids, outer, hdescends, hmade⟩

theorem Flawless.exists_binds {before : List Argument} {a : Argument} {after : List Argument}
    (hargs : statement.arguments = before ++ a :: after) {j : Nat} {v : Token}
    (hv : a.value.tokens[j]? = some v) :
    ∃ f, (instantiate s text).model.Binds s k before a j f := by
  obtain ⟨p⟩ := h.exists_site hk
  obtain ⟨ids, outer, hdescends, hmade⟩ := h.exists_descends hk p
  have htakes := p.path.takes (problems_eq_nil_of_instantiate h.problems).1 hdescends
  have htake := forall₂_last htakes
  exact hmade.exists_binds h.accepted htake hargs hv

/-! ### The context on the line of a command -/

omit hk in
theorem Flawless.exists_rows : p.line.Genuine ∧
    (documentLines text)[p.line.number - 1]? = some p.line.text ∧
    openPath (documentLines text) (p.line.number - 1) = p.openLines ++ [p.line.text] ∧
    ∃ above, (∀ r ∈ above, r.Genuine) ∧ Standing.Drawn above ⟨p.frames.reverse, p.label⟩ := by
  obtain ⟨above, below, hrows, hst⟩ := p.exists_above
  obtain ⟨hnumber, hline, htexts⟩ := of_textRows_eq_append hrows
  have hgenuine : ∀ r ∈ above, r.Genuine := fun r hr => h.genuine (by simp [hrows, hr])
  rw [hnumber, Nat.add_sub_cancel]
  exact ⟨h.genuine (by simp [hrows]), hline,
    openPath_eq hline htexts (fun r hr => (hgenuine r hr).faithful) hst, above, hgenuine,
    Standing.drawn_of_foldlM ⟨by simp, by simp, by simp⟩ (fun r hr => hr) hst⟩

theorem Flawless.exists_context {last : Line} {column : Option Nat} {o : Outline}
    (ho : outline? .stock (p.openLines ++ [last]) column = some o) {line : Line}
    (hline : CommandLine p.front statement.command line)
    (hlines : o.lines = (Outline.close .stock p.openLines line 1).lines)
    (hdepth : o.depth = (Outline.close .stock p.openLines line 1).depth) :
    ∃ ctx e, context? s (p.openLines ++ [last]) column = some ctx ∧ ctx.element = some e ∧
      ctx.model.classOf e = (instantiate s text).model.classOf k ∧ ctx.typed = o.typed ∧
      ctx.flags.inArray = o.flags.inArray ∧
      ctx.feature = o.role.bind (·.feature? s ((instantiate s text).model.classOf k)) := by
  obtain ⟨-, -, -, above, hgenuine, hdrawn⟩ := h.exists_rows p
  have hbrackets : openBrackets .stock p.openLines = (p.frames.map Frame.enclosure).reverse :=
    hdrawn.openBrackets fun r hr => (hgenuine r hr).faithful
  obtain ⟨stages', hkin, hthin⟩ := hline.exists_thin p.isIdentifier p.framed p.lead
    (fun r hr => (hdrawn.of_mem hr).imp_left (hgenuine r)) statement.arguments
  have hdepth' : o.depth = stages'.length := by
    rw [← hkin.length_eq, length_append, length_singleton, hdepth, Outline.close, hbrackets]
    show (p.frames.map Frame.enclosure).reverse.count .block + 1 = p.stages.length + 1
    rw [count_reverse, p.framed.count_block]
  have hthin' : Thin none (parse (tokenize s.pattern (List.intercalate ['\n'] o.lines))).entries
      stages' := by
    rw [h.pattern, hlines, Outline.close, hbrackets]
    exact hthin
  obtain ⟨ids, outer, hdescends, -⟩ := h.exists_descends hk p
  obtain ⟨ids', hancestry, hdescends'⟩ :=
    exists_descends_rebuild h.accepted hthin' hdepth' hdescends hkin
  have hclasses := Model.Descends.forall₂ (fun made made' hkin =>
    and_self_iff.mpr (made.classOf_eq made' hkin)) hdescends hdescends' hkin
  obtain ⟨others, lasts, rfl, -, hlasts⟩ := exists_append_of_forall₂ hclasses
  obtain ⟨e, rest, hclass, hrest, rfl⟩ := List.forall₂_cons_left_iff.mp hlasts
  obtain rfl := List.forall₂_nil_left_iff.mp hrest
  rw [reverse_concat] at hancestry
  have helement : (o.rebuild s).2 = some e := by
    generalize (o.rebuild s).2 = element at hancestry
    cases hancestry
    rfl
  have ho' : outline? s.pattern (p.openLines ++ [last]) column = some o := by
    generalize p.openLines ++ [last] = lines at ho
    rwa [h.pattern]
  rw [context?, ho', Option.map_some]
  refine ⟨_, e, rfl, helement, hclass, rfl, rfl, ?_⟩
  show (do (← o.role).feature? s ((o.rebuild s).1.classOf (← (o.rebuild s).2))) = _
  rw [helement, ← hclass]
  rfl

end Flawless

end CommandText
