import CommandText.Proofs.CommentedContext
import CommandText.Proofs.TypedPart
import CommandText.Proofs.ValueLink

/-!
# A blank in front of an opening brace

Behind an opening brace, the context is that of the line in front of it. A blank at the end of this
line changes none of its tokens, but it ends what is being typed. So it makes a difference behind a
command word or a value, which count as typed without the blank, and behind nothing else unless a
list is left open.
-/

namespace CommandText

open List Outline

variable {t : Token} {line : Line}

/-! ### A blank behind a line -/

theorem trails_blank : Trails [' '] fun _ _ => [] := by
  refine ⟨?_, by decide, by decide, by simp, fun _ _ => .blank (by decide) .nil⟩
  rintro _ ⟨⟩
  decide

theorem PlainLine.scanLine_blank {l : Line} (h : PlainLine l) (index : Nat) (joined : Bool) :
    scanLine .stock index joined (l ++ [' ']) = scanLine .stock index joined l := by
  obtain ⟨tokens, column, -, -, hscan⟩ := h.exists_scanLine index trails_blank
  rw [(hscan joined).1, (hscan joined).2, append_nil]

theorem PlainLine.tokenize_blank {l : Line} (h : PlainLine l) (hfeed : '\n' ∉ l)
    (above below : List Line) :
    tokenize .stock (List.intercalate ['\n'] (above ++ (l ++ [' ']) :: below)) =
      tokenize .stock (List.intercalate ['\n'] (above ++ l :: below)) := by
  obtain ⟨front, joined, pending, hfront, -⟩ := exists_front (above.flatMap linesOf) 0 false false
  rw [tokenize, tokenize, linesOf_intercalate_line hfeed,
    linesOf_intercalate_line (by simpa using hfeed), hfront, hfront, scanLines, scanLines,
    h.scanLine_blank]

/-! ### Outlines -/

theorem outline?_brace (above : List Line) (line : Line) :
    outline? .stock (above ++ [line ++ ['\x7b']]) none =
      outlineAtEnd? .stock above line (some .afterBrace) {} := by
  rw [outline?, getLast?_concat]
  simp only [cutAt, take_length, drop_length, dropLast_concat,
    dropOpenBrace?_append (forall_mem_nil _)]
  rfl

theorem outlineAtEnd?_of_word {word : Token} {rest : List Token}
    (htokens : lineTokens .stock line = word :: rest) (hword : word.kind = .identifier)
    (hcode : ∀ t ∈ rest, t.kind ≠ .comment ∧ t.kind ≠ .note)
    (hend : rest ≠ [] ∨ endsBlank line = true) (above : List Line) (problem : Option CursorProblem)
    (flags : CursorFlags) :
    outlineAtEnd? .stock above line problem flags =
      some (.inArguments .stock above line rest problem flags) := by
  have hsilent : (rest.any fun t => t.isKind .comment || t.isKind .note) = false := by
    simpa [Token.isKind] using hcode
  have htyped : (rest.isEmpty && !endsBlank line) = false := by
    simpa [imp_iff_not_or] using hend
  rw [outlineAtEnd?, htokens]
  simp [hsilent, hword, htyped]

theorem endsBlank_blank (line : Line) : endsBlank (line ++ [' ']) = true := by
  rw [endsBlank, getLast?_concat]
  decide

theorem splitTyped_of_endsBlank (h : endsBlank line = true) (rest : List Token) :
    splitTyped line rest = ([], rest) := by
  rw [splitTyped, h]
  split
  · rfl
  · next hnil => rw [reverse_eq_nil_iff.mp hnil]

theorem splitTyped_of_last {rest : List Token} (hlast : rest.getLast? = some t)
    (ht : t.isPartial = false) (line : Line) : splitTyped line rest = ([], rest) := by
  obtain ⟨front, rfl⟩ := getLast?_eq_some_iff.mp hlast
  simp [splitTyped, ht]

/-- A bracket that closes the last open list ends the argument of a label. -/
theorem label_of_closeBracket {rest : List Token} (hlast : rest.getLast? = some t)
    (ht : t.isPunct .closeBracket = true) (hlists : (argumentPlace rest).lists = 0) :
    (argumentPlace rest).label = none := by
  obtain ⟨front, rfl⟩ := getLast?_eq_some_iff.mp hlast
  rw [Token.isPunct, beq_iff_eq] at ht
  rw [argumentPlace, foldl_concat, ArgumentPlace.step, ht] at hlists ⊢
  simp only at hlists ⊢
  split at hlists
  · next hle => rw [if_pos hle]
  · simp only at hlists
    omega

theorem inArguments_of_last {rest : List Token} (hlast : rest.getLast? = some t)
    (ht : t.isPartial = false) (hlists : (argumentPlace rest).lists = 0)
    (problem : Option CursorProblem) (hproblem : problem ≠ none ∨ t.isPunct .closeBracket = false)
    (above : List Line) (line : Line) :
    inArguments .stock above line rest problem {} =
      { Outline.close .stock above line 1 with
        role := (argumentPlace rest).role (some t)
        problem := problem
        flags := { afterComma := t.isPunct .comma } } := by
  have hrole : (if missesComma line [] (some t) then none
      else (argumentPlace rest).role (some t)) = (argumentPlace rest).role (some t) := by
    split
    · next hmissing =>
      obtain ⟨hbracket, -⟩ : t.isPunct .closeBracket = true ∧ endsBlank line = true := by
        simpa [missesComma, ht] using hmissing
      rw [ArgumentPlace.role, label_of_closeBracket hlast hbracket hlists]
      simp only [Token.isPunct, beq_iff_eq] at hbracket
      simp [Token.isPunct, hbracket]
    · rfl
  have htold : (problem <|> if missesComma line [] (some t) then some .missingComma else none) =
      problem := by
    cases problem with
    | some => rfl
    | none => simp [missesComma, ht, hproblem.resolve_left (not_not.mpr rfl)]
  rw [inArguments]
  simp only [splitTyped_of_last hlast ht, hlast, hrole, htold, hlists, length_nil, Nat.sub_zero,
    take_length, replicate_zero, append_nil]
  rfl

theorem firstGlued_mem (t : Token) (before : List Token) :
    (firstGlued t before).1 ∈ t :: before := by
  induction before generalizing t with
  | nil => exact .head _
  | cons u before ih =>
    rw [firstGlued]
    split
    · exact .tail _ (ih u)
    · exact .head _

/-! ### Commands in front of a brace -/

/-- A line that starts with a command word, ends with code and leaves no list open. -/
structure BareCommand (l : Line) (word : Token) (rest : List Token) : Prop extends PlainLine l where
  feed : '\n' ∉ l
  last : ∀ c ∈ l.getLast?, isBlank c = false
  tokens : lineTokens .stock l = word :: rest
  word : word.kind = .identifier
  lists : (argumentPlace rest).lists = 0

namespace BareCommand

variable {l : Line} {word : Token} {rest : List Token} (h : BareCommand l word rest)
include h

theorem tokens_blank : lineTokens .stock (l ++ [' ']) = word :: rest := by
  have htokens := h.tokenize_blank h.feed [] []
  simp only [nil_append, List.intercalate, intersperse_singleton, flatten_singleton] at htokens
  rw [lineTokens, htokens, ← lineTokens, h.tokens]

theorem scanLine_tokens : (scanLine .stock 0 false l).tokens = word :: rest := by
  rw [← h.tokens, scanLine_eq, lineTokens_eq .stock h.feed]

theorem endsBlank_eq : endsBlank l = false := by
  rw [endsBlank, Option.any_eq_false]
  exact fun c hc => by simp [h.last c hc]

/-- The outline behind the command word and its arguments. -/
theorem outline?_eq (htokens : lineTokens .stock line = word :: rest)
    (hend : rest ≠ [] ∨ endsBlank line = true) (above : List Line) :
    outline? .stock (above ++ [line ++ ['\x7b']]) none =
      some (.inArguments .stock above line rest (some .afterBrace) {}) := by
  have hcode := h.uncommented
  rw [h.scanLine_tokens] at hcode
  rw [outline?_brace]
  exact outlineAtEnd?_of_word htokens h.word (forall_mem_cons.mp hcode).2 hend above _ _

theorem outline?_blank (above : List Line) : outline? .stock (above ++ [l ++ [' ', '\x7b']]) none =
    some (.inArguments .stock above (l ++ [' ']) rest (some .afterBrace) {}) := by
  have houtline := h.outline?_eq h.tokens_blank (.inr (endsBlank_blank l)) above
  rwa [append_assoc] at houtline

theorem typed_ne_nil (hlast : rest.getLast? = some t) (ht : t.isPartial = true) :
    (splitTyped l rest).1 ≠ [] := by
  obtain ⟨front, rfl⟩ := getLast?_eq_some_iff.mp hlast
  have hmem : (firstGlued t front.reverse).1 ∈ (scanLine .stock 0 false l).tokens := by
    have hmem := firstGlued_mem t front.reverse
    rw [h.scanLine_tokens]
    simp only [mem_cons, mem_reverse, mem_append, not_mem_nil] at hmem ⊢
    tauto
  obtain ⟨-, -, a, hspan, hfirst, hle, hbound⟩ :=
    (fillsLine_scanLine .stock 0 false l).exists_span hmem
  have hlength := (bareLine_suffix h.last).length_le
  simp only [splitTyped, reverse_concat, h.endsBlank_eq, ht, Bool.not_false, Bool.and_self,
    if_true, hspan, Option.map_some, Option.getD_some, ne_eq, drop_eq_nil_iff]
  omega

theorem rebuild_blank {s : Schema} (hs : s.pattern = .stock) (above : List Line)
    (role : Option Role) (problem : Option CursorProblem) (flags : CursorFlags) :
    Outline.rebuild s
        { Outline.close .stock above (l ++ [' ']) 1 with role, problem, flags } =
      Outline.rebuild s { Outline.close .stock above l 1 with role, problem, flags } := by
  unfold Outline.rebuild
  simp only [Outline.close, model_instantiate, roots_instantiate, buildText, hs,
    append_assoc, singleton_append, h.tokenize_blank h.feed]

end BareCommand

/-- A blank in front of an opening brace does not change the context exactly if the line ends with a
token other than its command word or a value. -/
theorem context?_blank_brace {s : Schema} (hs : s.pattern = .stock) (above : List Line) {l : Line}
    {word : Token} {rest : List Token} (h : BareCommand l word rest) :
    context? s (above ++ [l ++ [' ', '\x7b']]) none = context? s (above ++ [l ++ ['\x7b']]) none ↔
      ∃ t ∈ rest.getLast?, t.isPartial = false := by
  rw [context?, context?, hs, h.outline?_blank]
  cases hlast : rest.getLast? with
  | none =>
    -- without the blank, the command word itself is being typed
    obtain rfl := getLast?_eq_none_iff.mp hlast
    refine iff_of_false (fun heq => ?_) (by simp)
    rw [outline?_brace, outlineAtEnd?, h.tokens] at heq
    simp [h.word, h.endsBlank_eq, inArguments, atStatement] at heq
  | some t =>
    have hne : rest ≠ [] := by
      rintro rfl
      cases hlast
    rw [h.outline?_eq h.tokens (.inl hne)]
    cases ht : t.isPartial with
    | true =>
      refine iff_of_false (fun heq => h.typed_ne_nil hlast ht ?_) (by simp [ht])
      have htyped := congrArg Context.typed (Option.some.inj heq)
      simpa [inArguments, splitTyped_of_endsBlank (endsBlank_blank l)] using htyped.symm
    | false =>
      obtain ⟨c, hc, hdark⟩ := h.exists_not_blank 0
      refine iff_of_true ?_ ⟨t, rfl, ht⟩
      simp only [inArguments_of_last hlast ht h.lists (some _) (.inl (by simp)), Option.map_some,
        h.rebuild_blank hs,
        getLast?_concat, Option.getD_some, leadingBlanks_append (mem_of_mem_bareLine hc) hdark,
        h.indentOf_append [' ', '\x7b'] above [], h.indentOf_append ['\x7b'] above []]
      rfl

/-- Behind a comma the blank changes nothing. -/
theorem context?_blank_brace_comma :
    ∃ s, SchemaDefinition.build { classes := [{ name := "Box" }] } = .ok s ∧
      context? s ["Box \x7b".toList, "  Box 3, \x7b".toList] none =
        context? s ["Box \x7b".toList, "  Box 3,\x7b".toList] none := by
  obtain ⟨s, hs, hpattern⟩ :
      ∃ s, SchemaDefinition.build { classes := [{ name := "Box" }] } = .ok s ∧
      s.pattern = .stock := ⟨_, rfl, rfl⟩
  have hlast : ∀ c ∈ "  Box 3,".toList.getLast?, isBlank c = false := by
    rintro _ ⟨⟩
    decide
  have hcommand : BareCommand "  Box 3,".toList ⟨.identifier "Box", 1, some ⟨3, 5⟩⟩
      [⟨.integer 3, 1, some ⟨7, 7⟩⟩, ⟨.punct .comma, 1, some ⟨8, 8⟩⟩] :=
    ⟨⟨by decide +kernel, by decide +kernel, by decide +kernel⟩, by decide, hlast,
      by decide +kernel, rfl, rfl⟩
  exact ⟨s, hs, (context?_blank_brace hpattern ["Box \x7b".toList] hcommand).mpr
    ⟨_, rfl, by decide⟩⟩

/-- Behind a command word it does: the word counts as typed only without it. -/
theorem context?_blank_brace_word :
    ∃ s, SchemaDefinition.build { classes := [{ name := "Box" }] } = .ok s ∧
      (context? s ["Box \x7b".toList] none).map Context.typed = some [] ∧
      (context? s ["Box\x7b".toList] none).map Context.typed = some "Box".toList :=
  ⟨_, rfl, by decide +kernel, by decide +kernel⟩

end CommandText
