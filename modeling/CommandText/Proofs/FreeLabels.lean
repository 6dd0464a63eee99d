import CommandText.Editor.Completion
import CommandText.Proofs.ArgumentEffects
import CommandText.Proofs.BraceGap
import CommandText.Proofs.GivenValues

/-!
# Labels behind a comma

Behind a comma at the end of a command, the labels of further arguments are offered. They are chosen
by the values of the element that is built from the line, and not by its arguments. So the label of
an argument with an empty list is offered once more, though it cannot be given again.
-/

namespace CommandText

open Token List Form ReadM BuildM

variable {args : List Argument} {w : Token}

/-! ### A command on its line -/

theorem Form.Parts.concat {α : Type} {One : List Token → α → List Token → Prop} {us x : List Token}
    {as : List α} (h : Parts One us as) {a : α} (ha : One x a []) {c : Token}
    (hc : c.isPunct .comma = true) : Parts One (us ++ (x ++ [c])) (as ++ [a]) := by
  induction h with
  | nil => exact .cons ha hc .nil
  | cons ha' hc' _ ih =>
    rw [append_assoc]
    exact .cons ha' hc' ih

theorem entries_of_leads {w n : Token} {input : List Token} {args : List Argument}
    (hw : w.isKind .identifier = true) (hn : n.isKind .newline = true)
    (h : Leads (Quiet input) arguments args (At [n])) :
    (parse (w :: input)).entries = [.statement w args [] (some ⟨[], none⟩)] := by
  have hitems (bound : Nat) : Leads (Quiet (w :: input)) (ReadM.items none (bound + 2))
      [.statement w args [] (some ⟨[], none⟩)] (At []) :=
    .items_statement hw (.statement true hw (.command_leaf hw h hn)) rfl
  exact (hitems _ _ ⟨1, rfl⟩).1

/-- A comma behind the arguments of a command is passed over. -/
theorem entries_comma {w c n : Token} {us : List Token} {args : List Argument}
    (hw : w.isKind .identifier = true) (h : Arguments true us args [])
    (hc : c.isPunct .comma = true) (hn : n.isKind .newline = true) :
    (parse (w :: (us ++ [c] ++ [n]))).entries = [.statement w args [] (some ⟨[], none⟩)] := by
  rcases eq_nil_or_concat args with rfl | ⟨before, a, hargs⟩
  · -- the comma itself is missed as a value first, and then taken for the end of one
    cases h with
    | stop =>
    obtain ⟨lexeme, line, span⟩ := w
    obtain ⟨lexeme', line', span'⟩ := c
    obtain ⟨lexeme'', line'', span''⟩ := n
    have hw := isKind_iff.mp hw
    have hn := isKind_iff.mp hn
    obtain rfl : lexeme' = .punct .comma := isPunct_iff.mp hc
    cases lexeme <;> simp [kind, Lexeme.kind] at hw
    cases lexeme'' <;> simp [kind, Lexeme.kind] at hn
    rfl
  · rw [concat_eq_append] at hargs
    obtain ⟨parts, x, y, hparts, hx, hrest, hinput⟩ :=
      Rounds.exists_parts OneArgument.movable h hargs
    obtain rfl : us = parts ++ x := by simpa using hinput
    cases hrest with
    | stop =>
    have hfront : Front (parts ++ (x ++ [c])) args none none := by
      rw [hargs, ← append_nil (parts ++ _)]
      exact @Front.mk _ _ none _ _ (hparts.concat hx hc) (by simp) .single
    have hclosers : ∀ t ∈ ([] : List Token), t.isPunct .closeBracket = true := by simp
    have hleads := hfront.leads_arguments rfl hclosers hn []
    rw [append_nil, brokenOff, Option.map_none, Option.map_none, Option.toList_none, append_nil,
      ← append_assoc] at hleads
    exact entries_of_leads hw hn hleads

/-- A line with a command and nothing else: its word and the tokens of its arguments. -/
structure SoleCommand (l : Line) (w : Token) (us : List Token) (args : List Argument) : Prop where
  feed : '\n' ∉ l
  ends : (scanLine .stock 0 false l).continues = false
  tokens : (scanLine .stock 0 false l).tokens = w :: us
  word : w.isKind .identifier = true
  arguments : Arguments true us args []

theorem trails_comma : Trails ", ".toList fun number column =>
    [⟨.punct .comma, number, some ⟨column, column + 1 - 1⟩⟩] := by
  refine ⟨?_, by decide, by decide, by simp, fun number column => ?_⟩
  · rintro _ ⟨⟩
    decide
  · have hscan : scan .stock ([','] ++ [' ']) = .token (.punct .comma) 1 := by decide +kernel
    exact .token (w := [',']) (by simp) hscan (.blank (by decide) .nil)

theorem tokenize_of_scanLine {line : Line} (hfeed : '\n' ∉ line) {w : Token} {tokens : List Token}
    (hscan : scanLine .stock 0 false line = ⟨1, w :: tokens, false, false⟩) :
    tokenize .stock line = w :: (tokens ++ [⟨.newline, 1, none⟩]) ∧
      lineTokens .stock line = w :: tokens := by
  constructor
  · rw [tokenize, linesOf_of_not_mem hfeed, scanLines, hscan, assemble_cons]
    simp [LineTokens.closed, scanLines, assemble]
  · rw [lineTokens_eq .stock hfeed]
    rw [scanLine_eq] at hscan
    exact congrArg LineTokens.tokens hscan

namespace SoleCommand

variable {l : Line} {us : List Token} (h : SoleCommand l w us args)
include h

theorem silent : ∀ t ∈ us, t.kind ≠ .comment ∧ t.kind ≠ .note := by
  intro t ht
  obtain ⟨-, hcomment, hnote⟩ := newline_of_inArguments (h.arguments.argumentTokens.all t ht)
  exact ⟨isKind_eq_false_iff.mp hcomment, isKind_eq_false_iff.mp hnote⟩

theorem plainLine : PlainLine l := by
  refine ⟨by simp [h.tokens], ?_, h.ends⟩
  rw [h.tokens]
  exact forall_mem_cons.mpr ⟨by simp [isKind_iff.mp h.word], h.silent⟩

/-- What a comma behind the command adds to its line. -/
theorem exists_comma : ∃ c : Token, c.isPunct .comma = true ∧
    tokenize .stock l = w :: (us ++ [⟨.newline, 1, none⟩]) ∧
    tokenize .stock (l ++ ", ".toList) = w :: (us ++ [c] ++ [⟨.newline, 1, none⟩]) ∧
      lineTokens .stock (l ++ ", ".toList) = w :: (us ++ [c]) := by
  obtain ⟨tokens, column, -, -, hscan⟩ := h.plainLine.exists_scanLine 0 trails_comma
  obtain ⟨hline, hcomma⟩ := hscan false
  obtain rfl : tokens = w :: us := by rw [← h.tokens, hline]
  exact ⟨_, rfl, (tokenize_of_scanLine h.feed hline).1,
    tokenize_of_scanLine (by simpa using h.feed) hcomma⟩

theorem entries :
    (parse (tokenize .stock l)).entries = [.statement w args [] (some ⟨[], none⟩)] := by
  obtain ⟨-, -, htext, -⟩ := h.exists_comma
  obtain ⟨us, rfl, -, hkeep, -⟩ := h.arguments.move
  have hargs := hkeep [⟨.newline, 1, none⟩] rfl
  rw [htext, append_nil]
  exact entries_of_leads h.word rfl
    fun r hr => ((Exact.arguments _).leads hargs r hr).imp_right At.of_quiet

/-- The outline behind a comma at the end of a command. -/
theorem exists_outline : ∃ o, outline? .stock [l ++ ", ".toList] none = some o ∧
    o.lines = [l ++ ", ".toList] ∧ o.depth = 1 ∧ o.problem = none ∧ o.flags.inBlock = false := by
  obtain ⟨c, hc, -, -, htokens⟩ := h.exists_comma
  have hcomma : c.kind = .punctuation := kind_of_isPunct hc
  have hlists : (argumentPlace (us ++ [c])).lists = 0 := by
    have hus := ArgumentPlace.lists_argumentPlace h.arguments
    rw [argumentPlace] at hus ⊢
    rw [foldl_concat, ArgumentPlace.step_of_comma _ hc, if_pos hus, hus]
  have hbrace : dropOpenBrace? (l ++ ", ".toList) = none := by
    have hskip : skipBlanks (l ++ ", ".toList).reverse = ',' :: l.reverse := by
      rw [reverse_append]
      rfl
    rw [dropOpenBrace?, hskip]
    rfl
  have hlast := inArguments_of_last getLast?_concat (isPartial_eq_false (.inl hcomma))
    hlists none (.inr (by simp [isPunct_of_isPunct hc])) [] (l ++ ", ".toList)
  have houtline : outline? .stock [l ++ ", ".toList] none =
      some (.inArguments .stock [] (l ++ ", ".toList) (us ++ [c]) none {}) := by
    rw [outline?, getLast?_singleton]
    simp only [cutAt, take_length, drop_length, hbrace]
    exact outlineAtEnd?_of_word htokens (isKind_iff.mp h.word)
      (forall_mem_append.mpr ⟨h.silent, by simp [hcomma]⟩) (.inl (by simp)) [] none {}
  rw [hlast] at houtline
  exact ⟨_, houtline, rfl, rfl, rfl, rfl⟩

/-- The context behind a comma at the end of a command. -/
theorem exists_context {s : Schema} (hpattern : s.pattern = .stock) :
    ∃ context, context? s [l ++ ", ".toList] none = some context ∧
      context.model = (instantiate s l).model ∧
      context.element = (instantiate s l).roots.head? ∧ context.problem = none ∧
      context.flags.inBlock = false := by
  obtain ⟨c, hc, -, htext, -⟩ := h.exists_comma
  obtain ⟨o, ho, hlines, hdepth, hproblem, hblock⟩ := h.exists_outline
  have hbuild : buildText s (l ++ ", ".toList) = buildText s l := by
    rw [buildText, buildText, hpattern, h.entries, htext, entries_comma h.word h.arguments hc rfl]
  have hrebuild : o.rebuild s = ((instantiate s l).model, (instantiate s l).roots.head?) := by
    simp only [Outline.rebuild, hdepth, hlines, intercalate_singleton, model_instantiate,
      roots_instantiate, hbuild]
    rfl
  rw [context?, hpattern, ho]
  exact ⟨_, rfl, congrArg Prod.fst hrebuild, congrArg Prod.snd hrebuild, hproblem, hblock⟩

end SoleCommand

/-! ### The element of the command -/

namespace Schema

variable {s : Schema} {c : ClassId} {f : FeatureId}

theorem exists_destinations_concat (s : Schema) (c : ClassId) (position : Nat)
    (args : List Argument) (a : Argument) :
    ∃ place, s.destinations c position (args ++ [a]) =
      s.destinations c position args ++ [(s.address c place a.label, a)] := by
  induction args generalizing position with
  | nil => exact ⟨position, rfl⟩
  | cons b args ih =>
    obtain ⟨place, hplace⟩ := ih (if b.label.isNone then position + 1 else position)
    exact ⟨place, congrArg (_ :: ·) hplace⟩

/-- What is built of a command by itself. -/
def leaf (s : Schema) (c : ClassId) (w : Token) (args : List Argument) : Building Unit :=
  conclude s {} none c (closed w args ⟨[], none⟩ none []) .blank

theorem problems_leaf (hnodup : (s.addressed c 0 args).Nodup) : (s.leaf c w args).problems =
    (s.destinations c 0 args).flatMap (s.argumentFaults w.line) := by
  refine (relates_setLocation (R := fun b b' => b'.problems = b.problems) (fun _ => rfl)
    (fun h h' => h'.trans h) (fun _ _ _ _ _ _ _ => rfl) {} w.line
    (begin s c (closed w args ⟨[], none⟩ none []) .blank)).trans ?_
  show (bindRest s 0 c w.line 0 [] args _).2.problems = _
  rw [adds_bindRest hnodup]
  rfl

/-- The number of a line may be put in place of a value, but no feature is emptied. -/
theorem values_leaf_ne_nil (h : (s.argumentSlots c 0 [] args []).get f ≠ []) :
    (s.leaf c w args).model.values 0 f ≠ [] := by
  refine relates_setLocation
    (R := fun b b' => b.model.values 0 f ≠ [] → b'.model.values 0 f ≠ []) (fun _ h => h)
    (fun h h' hb => h' (h hb)) (fun b g v _ _ _ _ hb => ?_) {} w.line
    (begin s c (closed w args ⟨[], none⟩ none []) .blank) (by rwa [values_begin])
  rw [Model.setValue_eq_fill, Model.values_fill]
  split
  · by_cases hfg : f = g
    · simp [hfg]
    · rwa [Slots.get_put_of_ne hfg]
  · exact hb

theorem Accepted.not_mem_addressed (hs : s.Accepted) (h : ∀ i, ¬s.Addresses c args i f) :
    f ∉ s.addressed c 0 args := by
  intro hmem
  obtain ⟨⟨d, a⟩, hd, hf⟩ := mem_filterMap.mp hmem
  obtain ⟨i, hi⟩ := mem_iff_getElem?.mp hd
  obtain rfl := toOption_eq_some_iff.mp hf
  exact h i (hs.addresses_iff.mpr ⟨a, hi⟩)

/-- A further argument that addresses another feature adds only the problems of its values. -/
theorem TakesArguments.problems_leaf_concat (h : s.TakesArguments c 0 [] args)
    (hproblems : (s.leaf c w args).problems = []) {label : Token} (value : ArgumentValue)
    (haddress : ∀ place, s.address c place (some label) = .ok f)
    (hnew : f ∉ s.addressed c 0 args) :
    (s.leaf c w (args ++ [⟨some label, value⟩])).problems =
      s.valueFaults f value.tokens label.line := by
  obtain ⟨place, hplace⟩ := s.exists_destinations_concat c 0 args ⟨some label, value⟩
  have hnodup : (s.addressed c 0 args).Nodup := h.nodup nodup_nil
  have haddressed :
      s.addressed c 0 (args ++ [⟨some label, value⟩]) = s.addressed c 0 args ++ [f] := by
    rw [addressed, hplace, filterMap_append, haddress]
    rfl
  rw [problems_leaf hnodup] at hproblems
  have hnodup' := haddressed ▸ hnodup.append (nodup_singleton f) (disjoint_singleton.mpr hnew)
  rw [problems_leaf hnodup', hplace, flatMap_append, hproblems, haddress]
  exact append_nil _

/-! ### Labels -/

theorem kind_of_mem_featureCompletions {context : Context} {options : CompletionOptions}
    {o : Completion} (h : o ∈ s.featureCompletions f context options) : o.kind ≠ .label := by
  rw [featureCompletions] at h
  split at h <;> obtain ⟨a, -, rfl⟩ := mem_map.mp h <;>
    simp [referenceCompletion, commandCompletion, valueCompletion]

/-- The labels that are offered in an argument list are those of features without a value. -/
theorem exists_of_mem_argumentCompletions {id : ElementId} {context : Context}
    {options : CompletionOptions} {o : Completion}
    (h : o ∈ s.argumentCompletions c id context options) (hkind : o.kind = .label) :
    ∃ f ∈ s.labeledArguments c, context.model.values id f = [] ∧ o = s.labelCompletion f := by
  rcases mem_append.mp h with h | h
  · cases hf : context.feature with
    | none => simp [hf] at h
    | some f =>
      rw [hf] at h
      exact absurd hkind (kind_of_mem_featureCompletions h)
  · rw [freeLabelCompletions] at h
    split at h
    · cases h
    · obtain ⟨f, hf, rfl⟩ := mem_map.mp h
      obtain ⟨hf, hfree⟩ := mem_filter.mp hf
      refine ⟨f, hf, ?_, rfl⟩
      simpa [Model.isSet] using (Bool.and_eq_true_iff.mp hfree).1

end Schema

/-- Behind a comma at the end of a command, only labels of features are offered for which the
arguments of the command give no value. If no argument addresses such a feature, a further argument
with the label has no problems other than those of its values. -/
theorem offered_labels_free {s : Schema} (hs : s.Accepted) (hpattern : s.pattern = .stock)
    {l : Line} {w : Token} {us : List Token} {args : List Argument} (h : SoleCommand l w us args)
    (hproblems : (instantiate s l).problems = []) (options : CompletionOptions) :
    ∃ context, context? s [l ++ ", ".toList] none = some context ∧
      ∀ o ∈ complete s context options, o.kind = .label →
        ∃ c, (instantiate s l).model.classOf 0 = c ∧ ∃ f ∈ s.labeledArguments c,
          o = s.labelCompletion f ∧
          ((∃ i a, args[i]? = some a ∧ s.Addresses c args i f ∧ a.value.tokens = []) ∨
            (∀ i, ¬s.Addresses c args i f) ∧ ∀ text label value,
              label.text = (s.featureAt f).name →
              (parse (tokenize s.pattern text)).entries =
                [.statement w (args ++ [⟨some label, value⟩]) [] (some ⟨[], none⟩)] →
              (buildText s text).2.problems = s.valueFaults f value.tokens label.line) := by
  have hbuild := (problems_eq_nil_of_instantiate hproblems).1
  have hentries := h.entries
  rw [← hpattern] at hentries
  obtain ⟨c, hfound, hc⟩ : ∃ c, s.classForCommand? w.text none = some c ∧
      (s.classAt c).isAbstract = false := by
    rw [buildText, hentries] at hbuild
    have hvisit : ((Entry.statement w args [] (some ⟨[], none⟩)).visit (builder s {} none) none
      .blank).2.problems = [] := hbuild
    obtain ⟨c, hfound, hc, -⟩ := concrete_of_visit hvisit
    exact ⟨c, hfound, hc⟩
  have hleaf {text : List Char} {args : List Argument}
      (htext : (parse (tokenize s.pattern text)).entries =
        [.statement w args [] (some ⟨[], none⟩)]) : (buildText s text).2 = s.leaf c w args := by
    rw [buildText, htext]
    exact congrArg Prod.snd (visit_of_concrete hfound hc args [] ⟨[], none⟩ .blank rfl)
  have hroots : (instantiate s l).roots = [0] := by
    rw [roots_instantiate, hleaf hentries]
    exact roots_furnish {} _ c _
  have hmodel : (instantiate s l).model = (s.leaf c w args).model := by
    rw [model_instantiate, hleaf hentries]
  have hclass : (s.leaf c w args).model.classOf 0 = c :=
    (added_furnish c (closed w args ⟨[], none⟩ none []) .blank (by simp [closed])).classOf
  rw [hleaf hentries] at hbuild
  have htakes : s.TakesArguments c 0 [] args := takesArguments_of_furnish c _ hbuild
  obtain ⟨context, hcontext, hcmodel, helement, hproblem, hblock⟩ := h.exists_context hpattern
  rw [hmodel] at hcmodel ⊢
  refine ⟨context, hcontext, fun o ho hkind => ⟨c, hclass, ?_⟩⟩
  simp only [complete, helement, hroots, head?_cons, hcmodel, hclass, hproblem, hblock,
    Option.isSome_none, Bool.false_eq_true, if_false] at ho
  obtain ⟨f, hf, hvalues, rfl⟩ := Schema.exists_of_mem_argumentCompletions ho hkind
  rw [hcmodel] at hvalues
  refine ⟨f, hf, rfl, ?_⟩
  have hslots : (s.argumentSlots c 0 [] args []).get f = [] := by
    by_contra hne
    exact Schema.values_leaf_ne_nil hne hvalues
  have hholds := htakes.holdsGiven hs f
  rw [hslots] at hholds
  cases hholds with
  | given ha haddresses _ htokens =>
    exact .inl ⟨_, _, ha, haddresses, forall₂_nil_right_iff.mp htokens⟩
  | absent habsent =>
    refine .inr ⟨habsent, fun text label value hlabel htext => ?_⟩
    have haddress (place : Nat) : s.address c place (some label) = .ok f :=
      hs.address_eq_ok_iff.mpr ⟨(mem_filter.mp hf).1, .inl ⟨label, rfl, hlabel⟩⟩
    rw [hleaf htext]
    exact htakes.problems_leaf_concat hbuild value haddress (hs.not_mem_addressed habsent)

/-- Behind a jar with a size, the label of sizes is not offered. -/
theorem offered_labels_free_jar : ∃ s, crates.build = .ok s ∧
    (instantiate s "Jar size: 3".toList).problems = [] ∧
    ∃ context, context? s ["Jar size: 3, ".toList] none = some context ∧
      ∀ o ∈ complete s context {}, o.kind = .label → o ≠ s.labelCompletion 3 := by
  let label : Token := ⟨.label "size", 1, some ⟨5, 9⟩⟩
  let value : Token := ⟨.integer 3, 1, some ⟨11, 11⟩⟩
  obtain ⟨s, hs, hpattern, hproblems, hclass, hname, harguments, hlabels⟩ : ∃ s,
      crates.build = .ok s ∧ s.pattern = .stock ∧
      (instantiate s "Jar size: 3".toList).problems = [] ∧
      (instantiate s "Jar size: 3".toList).model.classOf 0 = 1 ∧ (s.featureAt 3).name = "size" ∧
      3 ∈ s.arguments 1 ∧
      ∀ f ∈ s.labeledArguments 1, s.labelCompletion f = s.labelCompletion 3 → f = 3 :=
    ⟨_, rfl, rfl, by decide +kernel, by decide +kernel, by decide +kernel, by decide +kernel,
      by decide +kernel⟩
  have hcommand : SoleCommand "Jar size: 3".toList ⟨.identifier "Jar", 1, some ⟨1, 3⟩⟩
      [label, value] [⟨some label, .single value⟩] :=
    ⟨by decide, by decide +kernel, by decide +kernel, rfl,
      .first (.labeled rfl (.single rfl)) (.stop rfl)⟩
  obtain ⟨context, hcontext, hfree⟩ :=
    offered_labels_free ⟨crates, hs⟩ hpattern hcommand hproblems {}
  refine ⟨s, hs, hproblems, context, hcontext, fun o ho hkind heq => ?_⟩
  obtain ⟨c, rfl, f, hf, rfl, hempty⟩ := hfree o ho hkind
  rw [hclass] at hf hempty
  obtain rfl := hlabels f hf heq
  rcases hempty with ⟨i, a, ha, -, htokens⟩ | ⟨hnew, -⟩
  · obtain rfl : a = ⟨some label, .single value⟩ := by simpa using mem_of_getElem? ha
    cases htokens
  · exact hnew 0 ⟨harguments, _, rfl, .inl ⟨label, rfl, hname.symm⟩⟩

/-- Behind a jar with an empty list of tags, their label is offered although a second list of tags
is refused. -/
theorem offered_label_given : ∃ s, crates.build = .ok s ∧
    (instantiate s "Jar tags: []".toList).problems = [] ∧
    (context? s ["Jar tags: [], ".toList] none).any (fun context =>
      s.labelCompletion 2 ∈ complete s context {}) = true ∧
    (buildText s "Jar tags: [], tags: [red]".toList).2.problems =
      [⟨.argumentRepeated "tags", 1, none⟩] :=
  ⟨_, rfl, by decide +kernel, by decide +kernel, by decide +kernel⟩

end CommandText
