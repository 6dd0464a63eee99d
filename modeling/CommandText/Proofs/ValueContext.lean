import CommandText.Proofs.CommandContext

/-!
# The context at a value

A cursor in front of a value is told the feature that the value is bound to, or none. None is told
of an unlabeled value behind a labeled one: it is bound by its place, but from the front of the line
no place is counted there.
-/

namespace CommandText

open Token List Model ReadM Form Entry

variable {a : Argument} {f : FeatureId} {text : List Char} {j : Nat} {s : Schema} {us : List Token}
variable {statement : Statement Nat} {t : Token} {before : List Argument}

/-! ### The front of a line -/

/-- The front of a line that holds a command, up to some of its arguments and the blanks behind
them. -/
structure CommandFront (front : List Token) (w : Token) (us : List Token) (pre gap : List Char) :
    Prop where
  trimmed : Trimmed pre (front ++ w :: us)
  blank : ∀ c ∈ gap, isBlank c = true
  feed : '\n' ∉ gap
  apart : us = [] → gap ≠ []

namespace CommandFront

variable {front : List Token} {w : Token} {pre gap : List Char}
variable {inBlock : Bool} {row : Option Row} {own role : Option Token}

variable (h : CommandFront front w us pre gap)
include h

theorem lineTokens_eq : lineTokens .stock (pre ++ gap) = (front ++ w :: us).map (onLine 1) :=
  h.trimmed.lineTokens_eq h.blank h.feed

theorem commandLine {lists : Nat}
    (hargs : ∀ number (closers : List Token), closers.length = lists →
      (∀ c ∈ closers, c.isPunct .closeBracket = true) →
      EndsArguments (us.map (onLine number) ++ closers)) :
    CommandLine front w (pre ++ (gap ++ List.replicate lists ']')) := by
  refine ⟨h.trimmed.portable h.blank h.feed lists, fun number => ?_⟩
  obtain ⟨closers, hlength, hclosers, hscan⟩ := h.trimmed.shuts number gap lists h.blank
  refine ⟨us.map (onLine number) ++ closers, hargs number closers hlength hclosers, ?_⟩
  rw [hscan]
  simp

theorem endsBlank_of_nil (hus : us = []) : endsBlank (pre ++ gap) = true := by
  have hlast := getLast?_eq_some_getLast (h.apart hus)
  rw [endsBlank, getLast?_append, hlast, Option.some_or, Option.any_some,
    h.blank _ (getLast_mem _)]

/-- Behind its arguments, the cursor stands in the argument list of the command. -/
theorem outlineAtEnd?_eq (hlead : Lead inBlock role row front own)
    (hw : w.isKind .identifier = true) (hus : ∀ t ∈ us, inArguments t = true) (above : List Line)
    (problem : Option CursorProblem) (flags : CursorFlags) :
    outlineAtEnd? .stock above (pre ++ gap) problem flags =
      some (.inArguments .stock above (pre ++ gap) (us.map (onLine 1)) problem flags) := by
  have hw' : (w.onLine 1).kind = .identifier := isKind_iff.mp hw
  have hcode : ((us.map (onLine 1)).any fun t => t.isKind .comment || t.isKind .note) =
      false := by
    simp only [any_map, any_eq_false, Function.comp_apply]
    intro t ht
    obtain ⟨-, hcomment, hnote⟩ := newline_of_inArguments (hus t ht)
    simp [hcomment, hnote]
  have hend : ((us.map (onLine 1)).isEmpty && !endsBlank (pre ++ gap)) = false := by
    cases us with
    | nil => simp [h.endsBlank_of_nil rfl]
    | cons => simp
  rw [outlineAtEnd?, h.lineTokens_eq]
  rcases hlead.eq_nil_or_singleton with rfl | ⟨l, rfl, hl⟩
  · simp only [nil_append, map_cons, drop_one, tail_cons, hcode, hw', hend,
      Bool.false_eq_true, if_false]
  · have hl' : (l.onLine 1).kind = .label := isKind_iff.mp hl
    have hbracket : (w.onLine 1).isPunct .openBracket = false := by
      exact isPunct_eq_false (by simp [hw']) _
    have hsilent : ((w.onLine 1).isKind .comment || (w.onLine 1).isKind .note) = false := by
      simp [isKind, hw']
    simp only [singleton_append, map_cons, drop_one, tail_cons, any_cons,
      hcode, hsilent, hl', hbracket, hend, isKind_iff.mpr hw', Bool.or_false, Bool.and_false,
      Bool.false_eq_true, if_false, if_true]

theorem dropOpenBrace?_eq_none (hw : w.isKind .identifier = true)
    (hus : ∀ t ∈ us, inArguments t = true) : dropOpenBrace? (pre ++ gap) = none := by
  refine h.trimmed.dropOpenBrace?_eq_none h.blank fun u hu => ?_
  rcases mem_getLast?_append_cons hu with hu | rfl
  · have hbrace := isBrace_of_inArguments (hus u (mem_of_getLast? hu))
    simp only [isBrace, Bool.or_eq_false_iff] at hbrace
    exact hbrace.1
  · exact isPunct_eq_false (by simp [isKind_iff.mp hw]) _

theorem outline?_eq (hlead : Lead inBlock role row front own) (hw : w.isKind .identifier = true)
    (hus : ∀ t ∈ us, inArguments t = true) (above : List Line) (rest : List Char) :
    ∃ flags, outline? .stock (above ++ [pre ++ (gap ++ rest)])
        (some (pre.length + gap.length + 1)) =
      some (.inArguments .stock above (pre ++ gap) (us.map (onLine 1)) none flags) := by
  have htake : (pre ++ (gap ++ rest)).take
      (cutAt (some (pre.length + gap.length + 1)) (pre ++ (gap ++ rest))) = pre ++ gap := by
    rw [← append_assoc]
    refine take_left' ?_
    simp only [cutAt, length_append]
    omega
  rw [outline?, getLast?_concat]
  simp only [htake, dropLast_concat, h.dropOpenBrace?_eq_none hw hus]
  exact ⟨_, h.outlineAtEnd?_eq hlead hw hus above none _⟩

end CommandFront

/-! ### The outline in front of a value -/

/-- How a value is addressed whose argument stands behind some others, as far as the tokens in front
of it show. -/
def argumentRole (before : List Argument) : Option Token → Option Role
  | some l => some (.label l.text)
  | none => if before.any (·.label.isSome) then none else some (.place before.length)

theorem argumentRole_onLine (before : List Argument) (label : Option Token) (line : Nat) :
    argumentRole (before.map (Argument.onLine line)) (label.map (onLine line)) =
      argumentRole before label := by
  cases label with
  | none => simp [argumentRole, Argument.onLine, Function.comp_def]
  | some l => rfl

theorem Token.isPartial_eq_false (h : t.kind = .punctuation ∨ t.kind = .label) :
    t.isPartial = false := by
  rcases h with h | h <;> rw [isPartial, isValue, isKind, h] <;> rfl

section Front

variable {label : Option Token} {list : Option (List Token)}

theorem Form.Front.isPartial_eq_false (h : Front us before label list) : ∀ t ∈ us.getLast?,
    t.isPartial = false ∧ t.isPunct .closeBracket = false := by
  intro t ht
  rcases h.getLast? t ht with h | h | ⟨-, h⟩
  · exact ⟨Token.isPartial_eq_false (.inl (Token.kind_of_isPunct h)),
      by simp [Token.isPunct_of_isPunct h]⟩
  · exact ⟨Token.isPartial_eq_false (.inl (Token.kind_of_isPunct h)),
      by simp [Token.isPunct_of_isPunct h]⟩
  · rw [isKind_iff] at h
    exact ⟨Token.isPartial_eq_false (.inr h), Token.isPunct_eq_false (by simp [h]) _⟩

theorem Form.Front.splitTyped_eq (h : Front us before label list) (line : Line) :
    splitTyped line us = ([], us) := by
  cases hus : us.reverse with
  | nil => simp_all [splitTyped]
  | cons t rest =>
    have ht := h.isPartial_eq_false t (by rw [← head?_reverse, hus]; rfl)
    simp [splitTyped, hus, ht.1]

theorem Form.Front.inArguments_eq (h : Front us before label list) (above : List Line) (line : Line)
    (problem : Option CursorProblem) (flags : CursorFlags) :
    Outline.inArguments .stock above line us problem flags =
      { Outline.close .stock above (line ++ List.replicate list.toList.length ']') 1 with
        role := argumentRole before label
        typed := []
        problem := problem
        flags := { flags with
          inArray := list.isSome
          afterComma := us.getLast?.any (·.isPunct .comma) } } := by
  have hmisses : missesComma line [] us.getLast? = false := by
    cases hlast : us.getLast? with
    | none => rfl
    | some t => simp [missesComma, h.isPartial_eq_false t hlast]
  have hrole : (argumentPlace us).role us.getLast? = argumentRole before label := by
    rw [h.argumentPlace_eq]
    cases label with
    | some l => rfl
    | none =>
      have hall : us.getLast?.all (fun t => t.isPunct .comma || t.isPunct .openBracket) = true := by
        rw [Option.all_eq_true]
        intro t ht
        rcases h.getLast? t ht with h | h | ⟨h, -⟩
        · rw [h, Bool.true_or]
        · rw [h, Bool.or_true]
        · cases h
      simp only [ArgumentPlace.role, hall, Option.map_none, Option.isSome_none, Bool.or_false,
        Bool.and_true, argumentRole]
      cases before.any (·.label.isSome) <;> rfl
  rw [Outline.inArguments, h.splitTyped_eq]
  simp only [hmisses, hrole]
  rw [h.argumentPlace_eq]
  have hlists : (list.toList.length != 0) = list.isSome := by cases list <;> rfl
  simp [hlists]

end Front

/-! ### The feature of a value -/

theorem Model.Binds.feature?_eq {m : Model} {id : ElementId} (h : m.Binds s id before a j f) :
    (argumentRole before a.label).bind (·.feature? s (m.classOf id)) =
      if a.label = none ∧ ∃ b ∈ before, b.label ≠ none then none else some f := by
  have haddress := h.addressed
  cases hlabel : a.label with
  | some l =>
    rw [hlabel, Schema.address] at haddress
    cases hname : s.featureNamed? (m.classOf id) l.text with
    | none => simp [hname] at haddress
    | some g =>
      simp only [hname] at haddress
      split at haddress
      · cases haddress
      · cases haddress
        simp [argumentRole, Role.feature?, hname]
  | none =>
    rw [hlabel, Schema.address] at haddress
    have hany : before.any (·.label.isSome) = true ↔ ∃ b ∈ before, b.label ≠ none := by
      simp [Option.isSome_iff_ne_none]
    by_cases hlabeled : ∃ b ∈ before, b.label ≠ none
    · rw [argumentRole, if_pos (hany.mpr hlabeled), if_pos ⟨rfl, hlabeled⟩, Option.bind_none]
    · -- all arguments in front count for the place
      have hcount : before.countP (·.label.isNone) = before.length := by
        rw [countP_eq_length]
        intro b hb
        by_contra hsome
        exact hlabeled ⟨b, hb, by simpa using hsome⟩
      rw [argumentRole, if_neg (mt hany.mp hlabeled), if_neg fun h => hlabeled h.2,
        Option.bind_some,
        Role.feature?]
      rw [hcount] at haddress
      split at haddress
      · next hplace => rw [hplace, Except.ok.inj haddress]
      · cases haddress

/-! ### The line in front of a value -/

/-- A token stands right behind another one. -/
def Token.Touches (t before : Token) : Prop :=
  ∃ a ∈ before.span, ∃ b ∈ t.span, a.last + 1 = b.first

theorem isClean_of_inArguments (h : inArguments t = true) : t.IsClean := by
  refine ⟨?_, isKind_eq_false_iff.mp (newline_of_inArguments h).2.1⟩
  rcases inArguments_iff.mp h with h | h | h | h | h
  · rw [isValue_iff] at h
    intro hk
    rw [hk] at h
    exact absurd h (by decide)
  · simp [h]
  all_goals simp [kind, h, Lexeme.kind]

theorem Site.isClean {inBlock : Bool} {role : Option Token} {row : Option Row} {rows : List Row}
    {entries : List Entry} {w : Token} {args : List Argument}
    (p : Site inBlock role row rows entries w args) :
    ∀ u ∈ p.front ++ w :: p.tokens, u.IsClean := by
  intro u hu
  rcases mem_append.mp hu with hu | hu
  · simp [Token.IsClean, isKind_iff.mp (p.lead.isLabel u hu)]
  · rcases mem_cons.mp hu with rfl | hu
    · simp [Token.IsClean, isKind_iff.mp p.isIdentifier]
    · exact isClean_of_inArguments (p.arguments.argumentTokens.all u hu)

/-- The line of a command can be cut in front of a value that does not touch the command. -/
theorem Flawless.exists_valueCut (h : Flawless s text) (p : statement.Site s text) {us : List Token}
    {v : Token} {vs : List Token} (htokens : p.tokens = us ++ v :: vs) {label : Option Token}
    {list : Option (List Token)} (hfront : Front us before label list)
    (htouches : us = [] → ¬v.Touches statement.command) :
    ∃ pre gap rest last, p.line.text = pre ++ (gap ++ rest) ∧
      v.span = some ⟨pre.length + gap.length + 1, last⟩ ∧
      CommandFront p.front statement.command us pre gap := by
  obtain ⟨tail, hrow, -⟩ := p.holds.tokens
  have hgenuine := (h.exists_rows p).1
  have hword : statement.command.kind = .identifier := isKind_iff.mp p.isIdentifier
  have hsplit : p.line.tokens =
      (p.front ++ statement.command :: us) ++ v :: (vs ++ (p.brace.toList ++ tail)) := by
    rw [hrow, htokens]
    simp
  have hclean : ∀ u ∈ p.front ++ statement.command :: us, u.IsClean := by
    intro u hu
    refine p.isClean u ?_
    rw [htokens, ← cons_append, ← append_assoc]
    exact mem_append_left _ hu
  have hparted : ∀ u ∈ (p.front ++ statement.command :: us).getLast?, ∀ a ∈ u.span, ∀ b ∈ v.span,
      u.kind = .label ∨ u.kind = .punctuation ∨ a.last + 1 ≠ b.first := by
    intro u hu a ha b hb
    cases hus : us.getLast? with
    | none =>
      obtain rfl := getLast?_eq_none_iff.mp hus
      rw [getLast?_concat] at hu
      cases hu
      exact .inr (.inr fun heq => htouches rfl ⟨a, ha, b, hb, heq⟩)
    | some u' =>
      obtain rfl : u' = u := by simpa [getLast?_append, getLast?_cons, hus] using hu
      rcases hfront.getLast? u' hus with h | h | ⟨-, h⟩
      · exact .inr (.inl (kind_of_isPunct h))
      · exact .inr (.inl (kind_of_isPunct h))
      · exact .inl (isKind_iff.mp h)
  obtain ⟨pre, gap, rest, htext, hgap, ⟨last, hspan⟩, htrimmed, u, hu, -, hkind⟩ :=
    hgenuine.exists_cut_before (by simp [p.holds.code_eq]) hsplit (by simp) hclean hparted
  refine ⟨pre, gap, rest, last, htext, hspan, htrimmed, hgap,
    fun hmem => hgenuine.feed (by simp [htext, hmem]), ?_⟩
  rintro rfl
  rw [getLast?_concat] at hu
  cases hu
  simpa [hword] using hkind

theorem Flawless.exists_context_of_front (h : Flawless s text) {k : Nat}
    (hk : (statements (parse (tokenize s.pattern text)).entries)[k]? = some statement)
    (p : statement.Site s text) (hbinds : (instantiate s text).model.Binds s k before a j f)
    {us : List Token} (hfront : Front us before a.label (a.value.listFront j)) {pre gap : List Char}
    (hcut : CommandFront p.front statement.command us pre gap) (rest : List Char) :
    ∃ ctx e, context? s (p.openLines ++ [pre ++ (gap ++ rest)])
        (some (pre.length + gap.length + 1)) = some ctx ∧
      ctx.element = some e ∧ ctx.model.classOf e = (instantiate s text).model.classOf k ∧
      ctx.typed = [] ∧ ctx.flags.inArray = (a.value.listFront j).isSome ∧
      ctx.feature = if a.label = none ∧ ∃ b ∈ before, b.label ≠ none then none else some f := by
  obtain ⟨flags, houtline⟩ :=
    hcut.outline?_eq p.lead p.isIdentifier hfront.inArguments p.openLines rest
  rw [(hfront.onLine 1).inArguments_eq, argumentRole_onLine, Option.isSome_map, Option.toList_map,
    length_map, append_assoc] at houtline
  have hline := hcut.commandLine fun number closers hlength hclosers =>
    (hfront.onLine number).endsArguments
      (show closers.length = _ by rw [Option.toList_map, length_map]; exact hlength) hclosers
  obtain ⟨ctx, e, hctx, helement, hclass, htyped, harray, hfeature⟩ :=
    h.exists_context hk p houtline hline rfl rfl
  exact ⟨ctx, e, hctx, helement, hclass, htyped, harray, hfeature.trans hbinds.feature?_eq⟩

/-- In front of a value that does not touch the command, the context has an element of the same
class as the statement's. Its feature is the one that the value is bound to, unless the value has no
label and stands behind a labeled one: then it has none. -/
theorem context?_of_value {s : Schema} {text : List Char} (h : Flawless s text) {k : Nat}
    {statement : Statement Nat}
    (hstatement : (statements (parse (tokenize s.pattern text)).entries)[k]? = some statement)
    {before : List Argument} {a : Argument} {after : List Argument}
    (hargs : statement.arguments = before ++ a :: after) {j : Nat} {v : Token}
    (hv : a.value.tokens[j]? = some v) (htouches : ¬ v.Touches statement.command) :
    ((instantiate s text).model.elementAt k).line = some v.line ∧
    ∃ span ctx e, v.span = some span ∧
      context? s (openPath (documentLines text) (v.line - 1)) (some span.first) = some ctx ∧
      ctx.element = some e ∧ ctx.model.classOf e = (instantiate s text).model.classOf k ∧
      (∀ f, ctx.feature = some f → (instantiate s text).model.Binds s k before a j f) ∧
      (ctx.feature = none ↔ a.label = none ∧ ∃ b ∈ before, b.label ≠ none) ∧
      ctx.typed = [] ∧ (ctx.flags.inArray = true ↔ ∃ vs, a.value = .list vs) := by
  obtain ⟨p⟩ := h.exists_site hstatement
  obtain ⟨f, hbinds⟩ := h.exists_binds hstatement hargs hv
  obtain ⟨us, vs, htokens, hfront⟩ := p.arguments.exists_front hargs hv
  obtain ⟨pre, gap, rest, last, htext, hspan, hcut⟩ :=
    h.exists_valueCut p htokens hfront fun _ => htouches
  obtain ⟨ctx, e, hctx, helement, hclass, htyped, harray, hfeature⟩ :=
    h.exists_context_of_front hstatement p hbinds hfront hcut rest
  have hline : v.line = p.line.number := p.holds.line (by simp [htokens])
  have hcommand : statement.command.line = p.line.number := p.holds.line (by simp)
  refine ⟨?_, _, ctx, e, hspan, ?_, helement, hclass, fun g hg => ?_, ?_, htyped, ?_⟩
  · rw [h.realizes.line k statement hstatement, hline, hcommand]
  · rw [hline, (h.exists_rows p).2.2.1, htext]
    exact hctx
  · rw [hfeature] at hg
    split at hg
    · cases hg
    · exact Option.some.inj hg ▸ hbinds
  · rw [hfeature]
    split <;> simp_all
  · rw [harray]
    cases a.value <;> simp [ArgumentValue.listFront]

/-- Crates with jars, which have a name, tags and a size. -/
def crates : SchemaDefinition where
  classes := [
    { name := "Crate", features := [
      { name := "jars", sort := .containment, target := some "Jar", many := true }] },
    { name := "Jar", unlabeled := some ["name"], features := [
      { name := "name", sort := .string },
      { name := "tags", sort := .string, many := true },
      { name := "size", sort := .integer }] }]

/-- A jar with two tags, in a crate. -/
def crateText : List Char := "Crate \x7b\n  Jar left, tags: [red, blue], size: 3\n\x7d\n".toList

/-- The arguments of the jar up to its tags. -/
def jarFront : List Argument := [⟨none, .single ⟨.identifier "left", 2, some ⟨7, 10⟩⟩⟩]

def jarTags : Argument :=
  ⟨some ⟨.label "tags", 2, some ⟨13, 17⟩⟩,
    .list [⟨.identifier "red", 2, some ⟨20, 22⟩⟩, ⟨.identifier "blue", 2, some ⟨25, 28⟩⟩]⟩

theorem exists_jar : ∃ s, crates.build = .ok s ∧ Flawless s crateText ∧
    (∀ t ∈ tokenize s.pattern crateText, t.line = 2 → t.kind ≠ .comment) ∧ ∃ statement after,
      (statements (parse (tokenize s.pattern crateText)).entries)[0]? = some statement ∧
      statement.arguments = jarFront ++ jarTags :: after ∧
      ¬ Token.Touches ⟨.identifier "blue", 2, some ⟨25, 28⟩⟩ statement.command := by
  obtain ⟨s, hs⟩ : ∃ s, crates.build = .ok s := ⟨_, rfl⟩
  have hall : Flawless s crateText ∧
      (∀ t ∈ tokenize s.pattern crateText, t.line = 2 → t.kind ≠ .comment) ∧
      ((statements (parse (tokenize s.pattern crateText)).entries).map fun statement =>
        (statement.command.span, statement.arguments))[0]? =
        some (some ⟨3, 5⟩, jarFront ++ jarTags ::
          [⟨some ⟨.label "size", 2, some ⟨32, 36⟩⟩, .single ⟨.integer 3, 2, some ⟨38, 38⟩⟩⟩]) := by
    cases hs
    exact ⟨⟨⟨crates, rfl⟩, by decide +kernel, by decide +kernel, by decide +kernel,
      by decide +kernel⟩, by decide +kernel, by decide +kernel⟩
  obtain ⟨h, hcomment, hstatement⟩ := hall
  rw [List.getElem?_map] at hstatement
  obtain ⟨statement, hstatement, heq⟩ := Option.map_eq_some_iff.mp hstatement
  obtain ⟨hword, hargs⟩ := Prod.mk.inj heq
  refine ⟨s, hs, h, hcomment, statement, _, hstatement, hargs, ?_⟩
  rintro ⟨a, ha, b, hb, heq⟩
  rw [hword] at ha
  cases ha
  cases hb
  cases heq

theorem context?_crateText : ∃ s, crates.build = .ok s ∧ Flawless s crateText ∧
    ∃ statement after,
      (statements (parse (tokenize s.pattern crateText)).entries)[0]? = some statement ∧
      statement.arguments = jarFront ++ jarTags :: after ∧
    ∃ ctx e f, context? s (openPath (documentLines crateText) 1) (some 25) = some ctx ∧
      ctx.element = some e ∧ ctx.feature = some f ∧
      (instantiate s crateText).model.Binds s 0 jarFront jarTags 1 f ∧
      ctx.typed = [] ∧ ctx.flags.inArray = true := by
  obtain ⟨s, hs, h, -, statement, after, hstatement, hargs, htouches⟩ := exists_jar
  have hv : jarTags.value.tokens[1]? = some ⟨.identifier "blue", 2, some ⟨25, 28⟩⟩ := rfl
  obtain ⟨-, span, ctx, e, hspan, hctx, helement, -, hbinds, hnone, htyped, harray⟩ :=
    context?_of_value h hstatement hargs hv htouches
  cases hspan
  cases hfeature : ctx.feature with
  | none => exact absurd (hnone.mp hfeature).1 (by decide)
  | some f =>
    exact ⟨s, hs, h, statement, _, hstatement, hargs, ctx, e, f, hctx, helement, hfeature,
      hbinds f hfeature, htyped, harray.mpr ⟨_, rfl⟩⟩

end CommandText
