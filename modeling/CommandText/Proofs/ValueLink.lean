import CommandText.Proofs.UnitColumns
import CommandText.Proofs.ValueContext

/-!
# The link at a value

Where a value starts, there is a link. Its element is rebuilt from the whole line of the command, so
that all arguments are read there, and its feature is the one of the context in front of the value.

Both contexts have to be there, and the second one has to know the feature. So there is no link on a
line with a comment, no feature for a value that stands unlabeled behind a labeled one, and not the
right one for a value that touches its command word.
-/

namespace CommandText

open List Model ReadM Form Token Outline Entry

variable {line : Line} {us : List Token} {a : Span} {t v : Token} {gap text : List Char}
  {s : Schema}

/-! ### Whole arguments -/

theorem Form.Arguments.endsArguments {tokens : List Token} {args : List Argument}
    (h : Arguments true tokens args []) (number : Nat) :
    EndsArguments (tokens.map (Token.onLine number)) := by
  refine ⟨args.map (Argument.onLine number), fun n rest hn r hr => ?_⟩
  obtain ⟨hargs, hend⟩ :=
    (Exact.arguments _).leads (h.writes number (n :: rest) (startsArgument_newline hn)) r hr
  exact ⟨hargs, At.of_quiet hend⟩

theorem Outline.inArguments_of_closed {arguments : List Token} {typed : List Char}
    {before : List Token} (hsplit : splitTyped line arguments = (typed, before))
    (hlists : (argumentPlace before).lists = 0) (above : List Line) (problem : Option CursorProblem)
    (flags : CursorFlags) :
    (inArguments .stock above line arguments problem flags).lines =
        (Outline.close .stock above (line.take (line.length - typed.length)) 1).lines ∧
      (inArguments .stock above line arguments problem flags).depth =
        (Outline.close .stock above (line.take (line.length - typed.length)) 1).depth := by
  rw [inArguments, hsplit]
  simp [hlists]

theorem splitTyped_concat (line : Line) (hclean : ∀ u ∈ us ++ [t], u.kind ≠ .error)
    (ha : t.span = some a) :
    splitTyped line (us ++ [t]) =
      if endsBlank line = false ∧ t.isPartial = true then (line.drop (a.first - 1), us)
      else ([], us ++ [t]) := by
  have hglued : firstGlued t us.reverse = (t, us.reverse) := by
    cases hus : us.reverse with
    | nil => rfl
    | cons u rest =>
      have hu : u ∈ us := mem_reverse.mp (hus ▸ mem_cons_self)
      have hkinds : (u.isKind .error || t.isKind .error) = false := by
        rw [isKind_eq_false_iff.mpr (hclean u (by simp [hu])),
          isKind_eq_false_iff.mpr (hclean t (by simp)), Bool.or_false]
      simp [firstGlued, isGluedTo, hkinds]
  rw [splitTyped, reverse_concat]
  simp only [hglued, ha, reverse_reverse, Option.map_some, Option.getD_some,
    Bool.and_eq_true, Bool.not_eq_true']

/-! ### The context at the end of a line -/

theorem dropOpenBrace?_append (hgap : ∀ c ∈ gap, isBlank c = true) (pre : Line) :
    dropOpenBrace? (pre ++ '\x7b' :: gap) = some pre := by
  have hskip : skipBlanks (pre ++ '\x7b' :: gap).reverse = '\x7b' :: pre.reverse := by
    rw [reverse_append, reverse_cons, append_assoc, skipBlanks,
      dropWhile_append_of_pos (by simpa using hgap)]
    rfl
  rw [dropOpenBrace?, hskip]
  simp

theorem outline?_end (above : List Line) (last : Line) : ∃ problem flags,
    outline? .stock (above ++ [last]) none =
      outlineAtEnd? .stock above ((dropOpenBrace? last).getD last) problem flags := by
  rw [outline?, getLast?_concat]
  simp only [cutAt, take_length, dropLast_concat]
  cases dropOpenBrace? last with
  | none => exact ⟨_, _, rfl⟩
  | some line => exact ⟨_, _, rfl⟩

section Outer

variable {s : Schema} {text : List Char} (h : Flawless s text) {statement : Statement Nat}
  (p : statement.Site s text) (hargs : statement.arguments ≠ [])
  (htouches : ∀ v, p.tokens = [v] → ¬v.Touches statement.command)
include h hargs htouches

theorem Flawless.exists_commandLine {pre rest : List Char} (htext : p.line.text = pre ++ rest)
    (hlast : ∀ t ∈ p.tokens.getLast?, ∃ a, t.span = some a ∧ a.first ≤ pre.length)
    (hcut : CommandFront p.front statement.command p.tokens pre gap) :
    ∃ line, CommandLine p.front statement.command line ∧ ∀ above problem flags,
      let o := inArguments .stock above (pre ++ gap) (p.tokens.map (Token.onLine 1)) problem
        flags
      o.lines = (Outline.close .stock above line 1).lines ∧
        o.depth = (Outline.close .stock above line 1).depth := by
  obtain ⟨us, t, htokens, ht⟩ := p.arguments.exists_last hargs
  obtain ⟨a, hspan, hle⟩ := hlast t (by simp [htokens])
  have hclean : ∀ u ∈ us.map (Token.onLine 1) ++ [t.onLine 1], u.kind ≠ .error := by
    rw [← map_singleton, ← map_append, ← htokens, forall_mem_map]
    exact fun u hu => (isClean_of_inArguments (p.arguments.argumentTokens.all u hu)).1
  have hsplit := splitTyped_concat (pre ++ gap) hclean hspan
  rw [← map_singleton, ← map_append, ← htokens] at hsplit
  split at hsplit
  · -- the last value stands at the end of the line
    next htyped =>
    rcases ht with ht | ⟨-, before, last, -, -, hfront⟩
    · have hpartial : t.isPartial = false :=
        isPartial_eq_false (.inl (kind_of_isPunct ht))
      rw [show (t.onLine 1).isPartial = t.isPartial from rfl, hpartial] at htyped
      cases htyped.2
    · obtain ⟨pre', gap', rest', last, htext', hspan', hcut'⟩ :=
        h.exists_valueCut p htokens hfront fun hus => htouches t (by simp [htokens, hus])
      obtain rfl := Option.some.inj (hspan.symm.trans hspan')
      have hle' : pre'.length + gap'.length ≤ pre.length := by
        simp only at hle
        omega
      -- in front of the value, the line is the same as the whole one
      have htake : (pre ++ gap).take (pre'.length + gap'.length) = pre' ++ gap' := by
        rw [take_append_of_le_length hle', ← take_append_of_le_length hle', ← htext,
          htext', ← append_assoc]
        exact take_left' (length_append ..)
      have hline : (pre ++ gap).take ((pre ++ gap).length - ((pre ++ gap).drop
          (pre'.length + gap'.length + 1 - 1)).length) =
          pre' ++ (gap' ++ List.replicate 0 ']') := by
        rw [Nat.add_sub_cancel, length_drop, replicate_zero, append_nil, ← htake]
        congr 1
        simp only [length_append]
        omega
      refine ⟨_, hcut'.commandLine fun number closers hlength hclosers =>
        (hfront.onLine number).endsArguments hlength hclosers, fun above problem flags => ?_⟩
      rw [← hline]
      refine inArguments_of_closed hsplit ?_ above problem flags
      rw [(hfront.onLine 1).argumentPlace_eq]
      rfl
  · have hline : (pre ++ gap).take ((pre ++ gap).length - ([] : List Char).length) =
        pre ++ (gap ++ List.replicate 0 ']') := by
      rw [length_nil, Nat.sub_zero, take_length, replicate_zero, append_nil]
    refine ⟨pre ++ (gap ++ List.replicate 0 ']'),
      hcut.commandLine fun number closers hlength _ => ?_, fun above problem flags => ?_⟩
    · rw [length_eq_zero_iff.mp hlength, append_nil]
      exact p.arguments.endsArguments number
    · rw [← hline]
      have hwhole := p.arguments.writes 1 [] rfl
      rw [append_nil] at hwhole
      exact inArguments_of_closed hsplit (ArgumentPlace.lists_argumentPlace hwhole) above
        problem flags

theorem Flawless.exists_outer {k : Nat}
    (hk : (statements (parse (tokenize s.pattern text)).entries)[k]? = some statement)
    (htokens : p.line.tokens = p.front ++ statement.command :: (p.tokens ++ p.brace.toList)) :
    ∃ ctx e, context? s (p.openLines ++ [p.line.text ++ [' ']]) none = some ctx ∧
      ctx.element = some e ∧ ctx.model.classOf e = (instantiate s text).model.classOf k := by
  have hgenuine := (h.exists_rows p).1
  have hsplit : p.line.tokens = (p.front ++ statement.command :: p.tokens) ++ p.brace.toList := by
    rw [htokens]
    simp
  obtain ⟨pre, rest, htext, hrest, ⟨u, hu, hends⟩, htrimmed⟩ :=
    hgenuine.exists_cut (by simp [p.holds.code_eq]) hsplit (by simp) p.isClean
  have hne : p.tokens ≠ [] := by
    obtain ⟨us, t, htokens, -⟩ := p.arguments.exists_last hargs
    simp [htokens]
  have hlast : ∀ t ∈ p.tokens.getLast?, ∃ a, t.span = some a ∧ a.first ≤ pre.length := by
    intro t ht
    obtain rfl : t = u := by
      simpa [getLast?_append, getLast?_cons, Option.mem_def.mp ht] using hu
    obtain ⟨front, w, rfl, hw, -, -, hspan⟩ := hends
    have hpos := length_pos_iff.mpr hw
    refine ⟨_, hspan, ?_⟩
    simp only [length_append]
    omega
  -- up to the brace, the line is cut behind its arguments
  obtain ⟨gap, hend, hcut⟩ : ∃ gap,
      (dropOpenBrace? (p.line.text ++ [' '])).getD (p.line.text ++ [' ']) = pre ++ gap ∧
      CommandFront p.front statement.command p.tokens pre gap := by
    cases hbrace : p.brace with
    | none =>
      rw [hbrace] at hrest
      have hblank := hrest.blank_of_nil
      have hgap : ∀ c ∈ rest ++ [' '], isBlank c = true := by
        simpa [or_imp, forall_and] using ⟨hblank, show isBlank ' ' = true by decide⟩
      have hcut : CommandFront p.front statement.command p.tokens pre (rest ++ [' ']) := by
        refine ⟨htrimmed (.inl ?_), hgap, ?_, fun _ => by simp⟩
        · simpa using (stops_shut hblank 0).detached
        · have hfeed := hgenuine.feed
          rw [htext] at hfeed
          simpa using fun hmem => hfeed (mem_append_right pre hmem)
      refine ⟨_, ?_, hcut⟩
      rw [htext, append_assoc,
        hcut.dropOpenBrace?_eq_none p.isIdentifier p.arguments.argumentTokens.all]
      rfl
    | some o =>
      rw [hbrace] at hrest
      obtain ⟨gap, w, rest, rfl, hgap, hw, hscan, -, -, hblank⟩ := hrest.exists_gap
      have hlexeme := isPunct_iff.mp (p.isBrace o hbrace)
      rw [hlexeme] at hscan
      have hplaced := placed_scan (by simp [hw]) hscan
      obtain ⟨c, rfl⟩ := length_eq_one_iff.mp (hplaced.single rfl)
      obtain rfl : c = '\x7b' := hplaced.ends c rfl
      have hdetached : Detached (gap ++ (['\x7b'] ++ rest)) := by
        cases gap with
        | nil => simp [Detached, isStop, Punct.ofChar?]
        | cons c gap => exact detached_of_blank (hgap c mem_cons_self) _
      have hgap' : ∀ c ∈ rest ++ [' '], isBlank c = true := by
        simpa [or_imp, forall_and] using ⟨hblank.blank_of_nil, show isBlank ' ' = true by decide⟩
      refine ⟨gap, ?_, htrimmed (.inl hdetached), hgap, fun hmem => ?_, fun hnil => absurd hnil hne⟩
      · have hline : p.line.text ++ [' '] = (pre ++ gap) ++ '\x7b' :: (rest ++ [' ']) := by
          simp [htext]
        rw [hline, dropOpenBrace?_append hgap']
        rfl
      · exact hgenuine.feed (by simp [htext, hmem])
  obtain ⟨line, hline, hclose⟩ := h.exists_commandLine p hargs htouches htext hlast hcut
  obtain ⟨problem, flags, houtline⟩ := outline?_end p.openLines (p.line.text ++ [' '])
  rw [hend, hcut.outlineAtEnd?_eq p.lead p.isIdentifier p.arguments.argumentTokens.all] at houtline
  obtain ⟨hlines, hdepth⟩ := hclose p.openLines problem flags
  obtain ⟨ctx, e, hctx, helement, hclass, -⟩ := h.exists_context hk p houtline hline hlines hdepth
  exact ⟨ctx, e, hctx, helement, hclass⟩

end Outer

/-! ### The link -/

theorem link?_eq (hs : s.pattern = .stock) {above : List Line} {column index : Nat}
    {outer : Context} {e : ElementId}
    (houter : context? s (above ++ [line ++ [' ']]) none = some outer) (he : outer.element = some e)
    (hcolumn : column < columnLimit)
    (hindex : (tokenize .stock (line ++ [' '])).findIdx? (·.covers column) = some index)
    (ht : (tokenize .stock (line ++ [' ']))[index]? = some t) (ha : t.span = some a)
    (hkind : t.kind.isLinkable = true)
    (hword : isCommandWord ((line ++ [' ']).take (a.first - 1)) = false) :
    ∃ backward, link? s (above ++ [line]) column = some {
      model := outer.model
      element := e
      feature := (context? s (above ++ [line ++ [' ']]) (some a.first)).bind (·.feature)
      index := listIndex ((tokenize .stock (line ++ [' '])).take index)
      backward
      value := t.text
      span := a } := by
  refine ⟨isBackward s (outer.model.classOf e)
    ((context? s (above ++ [line ++ [' ']]) (some a.first)).bind (·.feature)) t
    ((line ++ [' ']).take (a.first - 1)), ?_⟩
  simp [link?, hs, houter, he, Nat.mod_eq_of_lt hcolumn, hindex, ht, ha, hkind, hword]

theorem Row.Genuine.findIdx?_covers {r : Row} (hr : r.Genuine) (hcode : r.code ≠ [])
    (hclean : ∀ u ∈ r.tokens, u.IsClean) {vs : List Token} (htokens : r.tokens = us ++ v :: vs)
    (ha : v.span = some a) :
    (tokenize .stock (r.text ++ [' '])).findIdx? (·.covers a.first) = some us.length ∧
      (tokenize .stock (r.text ++ [' ']))[us.length]? = some (v.onLine 1) ∧
      (tokenize .stock (r.text ++ [' '])).take us.length = us.map (Token.onLine 1) := by
  obtain ⟨tail, htokenize⟩ := hr.exists_tokenize hcode hclean
  have hindex := (htokens ▸ (hr.scans hcode).2).findIdx?_covers ha 1 tail
  rw [htokens] at htokenize
  rw [htokenize]
  refine ⟨hindex, ?_, ?_⟩
  · simp
  · rw [map_append, append_assoc, take_left' (length_map _)]

theorem CommandFront.isCommandWord_eq_false {front : List Token} {w : Token} {pre : List Char}
    (h : CommandFront front w us pre gap) {before : List Argument} {label : Option Token}
    {list : Option (List Token)} (hfront : Front us before label list) :
    isCommandWord (pre ++ gap) = false := by
  obtain ⟨c, hlast, hblank⟩ := h.trimmed.exists_last
  have hmem := mem_of_getLast? hlast
  have hskip : skipBlanks (pre ++ gap) = skipBlanks pre ++ gap := skipBlanks_append hmem hblank gap
  rw [isCommandWord, hskip, all_eq_false]
  cases hus : us.getLast? with
  | none =>
    -- the blank behind the command word
    obtain ⟨d, hd⟩ := exists_mem_of_ne_nil _ (h.apart (getLast?_eq_none_iff.mp hus))
    have hstop : isStop d = true := by rw [isStop, h.blank d hd, Bool.true_or]
    exact ⟨d, mem_append_right _ hd, by simp [isWord_eq_false_of_isStop hstop]⟩
  | some u =>
    -- the stop at the end of the token in front of the value
    obtain ⟨u', hu', -, c', hc', hends⟩ := h.trimmed.ends
    obtain rfl : c = c' := Option.some.inj (hlast.symm.trans hc')
    obtain rfl : u = u' := by
      simpa [getLast?_append, getLast?_cons, hus] using hu'
    have hkind : u.kind = .label ∨ u.kind = .punctuation := by
      rcases hfront.getLast? u hus with h | h | ⟨-, h⟩
      · exact .inr (kind_of_isPunct h)
      · exact .inr (kind_of_isPunct h)
      · exact .inl (isKind_iff.mp h)
    refine ⟨c, mem_append_left _ (mem_skipBlanks hmem hblank), ?_⟩
    simp [isWord_eq_false_of_isStop (hends.isStop_of_kind hkind)]

/-- Where a token of a text starts, as editors count. -/
def Token.place (t : Token) (text : List Char) (a : Span) : Position :=
  ⟨t.line - 1, unitOffset ((documentLines text).getD (t.line - 1) []) (a.first - 1)⟩

theorem linkAt_place {number : Nat} {above : List Line} (ht : t.line = number)
    (hline : (documentLines text)[number - 1]? = some line)
    (hpath : openPath (documentLines text) (number - 1) = above ++ [line])
    (ha : a.first ≤ line.length + 1) (hpos : 0 < a.first) :
    linkAt s text (t.place text a) = link? s (above ++ [line]) a.first := by
  have hcolumn : charColumn line (unitOffset line (a.first - 1)) = a.first := by
    rw [charColumn_unitOffset (by omega)]
    omega
  rw [linkAt, pathTo?, Token.place, ht]
  simp only [getD_eq_getElem?_getD, hline, hpath, getLast?_concat, Option.getD_some]
  rw [Option.map_some, hcolumn]
  rfl

/-- The place of a value in its list; zero outside of lists. -/
def ArgumentValue.placeOf (j : Nat) : ArgumentValue → Nat
  | single _ => 0
  | list _ => j

/-- A link tells of a value with the element, the place and the text of it. -/
structure Link.TellsOf (link : Link) (m : Model) (k : ElementId) (a : Argument) (j : Nat)
    (v : Token) :
    Prop where
  class_eq : link.model.classOf link.element = m.classOf k
  index : link.index = a.value.placeOf j
  value : link.value = v.text

theorem ArgumentValue.length_listFront {value : ArgumentValue} {j : Nat}
    (hv : value.tokens[j]? = some v) :
    ((value.listFront j).map List.length).getD 0 = value.placeOf j := by
  cases value with
  | single => rfl
  | list vs =>
    have hj : j < vs.length := (List.getElem?_eq_some_iff.mp hv).1
    simp [listFront, placeOf, Nat.le_of_lt hj]

theorem Flawless.tokens_eq (h : Flawless s text) {statement : Statement Nat}
    (p : statement.Site s text)
    (hcomment : ∀ t ∈ tokenize s.pattern text, t.line = p.line.number → t.kind ≠ .comment) :
    p.line.tokens = p.front ++ statement.command :: (p.tokens ++ p.brace.toList) ∧
      ∀ u ∈ p.line.tokens, u.IsClean := by
  obtain ⟨tail, hrow, rfl | ⟨t, rfl, ht⟩⟩ := p.holds.tokens
  · rw [append_nil] at hrow
    refine ⟨hrow, fun u hu => ?_⟩
    rw [hrow, ← cons_append, ← append_assoc, mem_append] at hu
    rcases hu with hu | hu
    · exact p.isClean u hu
    · simp [Token.IsClean, kind_of_isPunct (p.isBrace u (Option.mem_toList.mp hu))]
  · have hmem : t ∈ p.line.tokens := by simp [hrow]
    have hstream : t ∈ tokenize s.pattern text := by
      rw [h.pattern, tokenize_eq_stream (unmarked_of_not_mem h.mark) h.stock_continues, p.rows_eq]
      simp [Row.stream, hmem]
    exact absurd (isKind_iff.mp ht) (hcomment t hstream (p.holds.sound.line t hmem))

/-- Where a value starts that does not touch the command, on a line without a comment, there is a
link that tells of the value. Its feature is the one that the value is bound to, unless the value
has no label and stands behind a labeled one: then it has none. -/
theorem linkAt_of_value {s : Schema} {text : List Char} (h : Flawless s text) {k : Nat}
    {statement : Statement Nat}
    (hstatement : (statements (parse (tokenize s.pattern text)).entries)[k]? = some statement)
    {before : List Argument} {a : Argument} {after : List Argument}
    (hargs : statement.arguments = before ++ a :: after) {j : Nat} {v : Token}
    (hv : a.value.tokens[j]? = some v) (hkind : v.kind.isLinkable = true)
    (htouches : ¬ v.Touches statement.command)
    (hcomment : ∀ t ∈ tokenize s.pattern text, t.line = v.line → t.kind ≠ .comment) {span : Span}
    (hspan : v.span = some span) (hcolumn : span.first < columnLimit) :
    ∃ link f, linkAt s text (v.place text span) = some link ∧
      link.TellsOf (instantiate s text).model k a j v ∧ link.span = span ∧
      (instantiate s text).model.Binds s k before a j f ∧
      link.feature = if a.label = none ∧ ∃ b ∈ before, b.label ≠ none then none else some f := by
  obtain ⟨p⟩ := h.exists_site hstatement
  obtain ⟨hgenuine, hnumber, hpath, -⟩ := h.exists_rows p
  obtain ⟨f, hbinds⟩ := h.exists_binds hstatement hargs hv
  obtain ⟨us, vs, htokens, hfront⟩ := p.arguments.exists_front hargs hv
  obtain ⟨pre, gap, rest, last, htext, hspan', hcut⟩ :=
    h.exists_valueCut p htokens hfront fun _ => htouches
  obtain rfl := Option.some.inj (hspan.symm.trans hspan')
  have hline : v.line = p.line.number := p.holds.line (by simp [htokens])
  obtain ⟨hrow, hclean⟩ := h.tokens_eq p fun t ht htl => hcomment t ht (htl.trans hline.symm)
  obtain ⟨outer, e, houter, helement, hclass⟩ :=
    h.exists_outer p (by simp [hargs]) (fun v' hv' => by
      have hmem : v ∈ p.tokens := by simp [htokens]
      rw [hv', mem_singleton] at hmem
      exact hmem ▸ htouches) hstatement hrow
  obtain ⟨ctx, -, hctx, -, -, -, -, hfeature⟩ :=
    h.exists_context_of_front hstatement p hbinds hfront hcut (rest ++ [' '])
  -- the value among the tokens of the line
  have hsplit : p.line.tokens =
      (p.front ++ statement.command :: us) ++ v :: (vs ++ p.brace.toList) := by
    rw [hrow, htokens]
    simp
  obtain ⟨hindex, hget, htake⟩ :=
    hgenuine.findIdx?_covers (by simp [p.holds.code_eq]) hclean hsplit hspan
  have hplace : listIndex ((p.front ++ statement.command :: us).map (Token.onLine 1)) =
      a.value.placeOf j := by
    rw [append_cons, map_append, (hfront.onLine 1).listIndex_eq,
      ← ArgumentValue.length_listFront hv]
    · cases a.value.listFront j <;> simp
    · simp only [forall_mem_map, kind_onLine, forall_mem_append,
        forall_mem_singleton]
      refine ⟨fun l hl => ?_, ?_⟩
      · simp [isKind_iff.mp (p.lead.isLabel l hl)]
      · simp [isKind_iff.mp p.isIdentifier]
  have hfirst : (p.line.text ++ [' ']).take (pre.length + gap.length + 1 - 1) = pre ++ gap := by
    rw [htext, Nat.add_sub_cancel, ← append_assoc, append_assoc]
    exact take_left' (length_append ..)
  obtain ⟨backward, hlink⟩ := link?_eq h.pattern houter helement hcolumn hindex hget hspan hkind
    (hfirst ▸ hcut.isCommandWord_eq_false hfront)
  rw [htake, hplace] at hlink
  refine ⟨_, f, (linkAt_place hline hnumber hpath ?_ ?_).trans hlink, ⟨hclass, rfl, rfl⟩,
    rfl, hbinds, ?_⟩
  · simp [htext]
  · simp
  · rw [htext, append_assoc, append_assoc, hctx]
    exact hfeature

/-- In the crate, the link at the second tag. -/
theorem linkAt_crateText : ∃ s, crates.build = .ok s ∧ Flawless s crateText ∧
    ∃ statement after,
      (statements (parse (tokenize s.pattern crateText)).entries)[0]? = some statement ∧
      statement.arguments = jarFront ++ jarTags :: after ∧
    ∃ link f, linkAt s crateText ⟨1, 24⟩ = some link ∧ link.feature = some f ∧ link.index = 1 ∧
      link.value = "blue" ∧ link.span = ⟨25, 28⟩ ∧
      (instantiate s crateText).model.Binds s 0 jarFront jarTags 1 f := by
  obtain ⟨s, hs, h, hcomment, statement, after, hstatement, hargs, htouches⟩ := exists_jar
  have hv : jarTags.value.tokens[1]? = some ⟨.identifier "blue", 2, some ⟨25, 28⟩⟩ := rfl
  obtain ⟨link, f, hlink, htells, hspan, hbinds, hfeature⟩ :=
    linkAt_of_value h hstatement hargs hv rfl htouches hcomment rfl (by decide)
  have hplace : Token.place ⟨.identifier "blue", 2, some ⟨25, 28⟩⟩ crateText ⟨25, 28⟩ =
      ⟨1, 24⟩ := by
    decide +kernel
  rw [hplace] at hlink
  exact ⟨s, hs, h, statement, _, hstatement, hargs, link, f, hlink, hfeature, htells.index,
    htells.value, hspan, hbinds⟩

/-! ### Values without such a link -/

/-- Where a value starts that can be a link, there is a link that tells of the value and of the
feature that it is bound to. -/
def LinksValues (s : Schema) (text : List Char) : Prop :=
  ∀ (k : Nat) (statement : Statement Nat),
    (statements (parse (tokenize s.pattern text)).entries)[k]? = some statement →
    ∀ before a after, statement.arguments = before ++ a :: after →
    ∀ j v, a.value.tokens[j]? = some v → v.kind.isLinkable = true → ∀ span ∈ v.span,
    ∃ link f, linkAt s text (v.place text span) = some link ∧
      link.TellsOf (instantiate s text).model k a j v ∧
      (instantiate s text).model.Binds s k before a j f ∧ link.feature = some f

theorem not_linksValues_of (before : List Argument) (a : Argument)
    (hargs : ((statements (parse (tokenize s.pattern text)).entries).map
      (·.arguments))[0]? = some (before ++ [a])) (hv : a.value = .single v)
    (hkind : v.kind.isLinkable = true) {span : Span} (hspan : v.span = some span)
    (hnone : (linkAt s text (v.place text span)).all (·.feature.isNone) = true) :
    ¬ LinksValues s text := by
  intro h
  rw [getElem?_map] at hargs
  obtain ⟨statement, hstatement, hargs⟩ := Option.map_eq_some_iff.mp hargs
  obtain ⟨link, f, hlink, -, -, hfeature⟩ :=
    h 0 statement hstatement before a [] hargs 0 v (by rw [hv]; rfl) hkind span hspan
  rw [hlink, Option.all_some, hfeature] at hnone
  cases hnone

/-- A jar with its name behind a labeled argument. -/
def sizedJar : List Char := "Jar size: 3, left".toList

/-- A jar with a comment behind its name. -/
def notedJar : List Char := "Jar left # note".toList

/-- A jar with its name right behind the command word. -/
def gluedJar : List Char := "Jar\"left\"".toList

theorem not_linksValues_jars : ∃ s, crates.build = .ok s ∧
    ∀ text ∈ [sizedJar, notedJar, gluedJar], Flawless s text ∧ ¬ LinksValues s text := by
  obtain ⟨s, hs⟩ : ∃ s, crates.build = .ok s := ⟨_, rfl⟩
  have hpattern : s.pattern = .stock := by
    cases hs
    decide +kernel
  have hproblems : ∀ text ∈ [sizedJar, notedJar, gluedJar], '\ufeff' ∉ text ∧
      (∀ l ∈ scanLines s.pattern 0 false (linesOf text), l.continues = false) ∧
      (instantiate s text).problems = [] := by
    cases hs
    decide +kernel
  refine ⟨s, hs, fun text htext => ⟨?_, ?_⟩⟩
  · obtain ⟨hmark, hcontinues, hproblems⟩ := hproblems text htext
    exact ⟨⟨crates, hs⟩, hpattern, hmark, hcontinues, hproblems⟩
  · clear hpattern hproblems
    simp only [mem_cons, not_mem_nil, or_false] at htext
    cases hs
    rcases htext with rfl | rfl | rfl
    · exact not_linksValues_of [⟨some ⟨.label "size", 1, some ⟨5, 9⟩⟩,
          .single ⟨.integer 3, 1, some ⟨11, 11⟩⟩⟩]
        ⟨none, .single ⟨.identifier "left", 1, some ⟨14, 17⟩⟩⟩ (by decide +kernel) rfl rfl rfl
        (by decide +kernel)
    · exact not_linksValues_of [] ⟨none, .single ⟨.identifier "left", 1, some ⟨5, 8⟩⟩⟩
        (by decide +kernel) rfl rfl rfl (by decide +kernel)
    · exact not_linksValues_of [] ⟨none, .single ⟨.string "left", 1, some ⟨4, 9⟩⟩⟩
        (by decide +kernel) rfl rfl rfl (by decide +kernel)

end CommandText
