import CommandText.Proofs.SingleContainments

/-!
# Comments in attributes

The comments of a statement are taken one by one into an attribute of its element, each behind the
text of the first value there. The element has the values that its arguments bind to the attribute,
so a comment keeps the first of them. All others are lost with the first comment.
-/

namespace CommandText

open List Model BuildM Entry Feature

variable {s : Schema} {id : ElementId} {f : FeatureId} {k : AttributeKeeper}

/-- Values of an attribute with the lines of comments: the lines stand behind the text of the first
value, and the only value is left. -/
def keptLines (vs : List Value) (lines : List String) : List Value :=
  if lines = [] then vs
  else [.string ("\n".intercalate ((vs.head?.bind Value.text?).toList ++ lines))]

theorem keptLines_cons (vs : List Value) (line : String) (lines : List String) :
    keptLines (keptLines vs [line]) lines = keptLines vs (line :: lines) := by
  cases lines with
  | nil => rfl
  | cons next lines =>
    cases h : vs.head?.bind Value.text? <;>
      simp [keptLines, h, Value.text?, String.append_assoc]

/-! ### The end of a statement -/

theorem name_of_featureNamed? {c : ClassId} {name : String} (h : s.featureNamed? c name = some f) :
    (s.featureAt f).name = name := by
  simpa using find?_some h

theorem values_comment {m : Model} (hid : id < m.size)
    (hf : s.featureNamed? (m.classOf id) k.commentAttribute = some f)
    (htype : (s.featureAt f).dataType? = some .string) {c : Comment} (hc : c.kind ≠ .loose) :
    (k.keeper.comment s (some id) c (m, ())).2.1.classOf id = m.classOf id ∧
      (k.keeper.comment s (some id) c (m, ())).2.1.size = m.size ∧
      (k.keeper.comment s (some id) c (m, ())).2.1.values id f =
        keptLines (m.values id f) [c.text] := by
  have hkeep : k.keeper.comment s (some id) c =
      AttributeKeeper.keep s id k.commentAttribute c.text := by
    rw [AttributeKeeper.keeper]
    cases hkind : c.kind with
    | above | lineEnd => simp only [hkind]
    | loose => exact absurd hkind hc
  have happend : appendText? s m id k.commentAttribute c.text = some (m.setValue id f (.string
      ("\n".intercalate (((m.values id f).head?.bind Value.text?).toList ++ [c.text])))) := by
    simp only [appendText?, hf, Option.bind_eq_bind, Option.bind_some, htype, if_true]
    cases (m.values id f).head?.bind Value.text? <;> rfl
  simp only [hkeep, AttributeKeeper.keep, happend]
  rw [setValue_eq_fill, values_fill, if_pos ⟨rfl, hid⟩, Slots.get_put_self]
  exact ⟨classOf_fill .., size_fill .., rfl⟩

theorem values_note (hnames : k.commentAttribute ≠ k.noteAttribute) (m : Model)
    (hf : (s.featureAt f).name = k.commentAttribute) (text : String) :
    (k.keeper.note s id text (m, ())).2.1.values id f = m.values id f := by
  show (AttributeKeeper.keep s id k.noteAttribute text (m, ())).2.1.values id f = _
  cases h : appendText? s m id k.noteAttribute text with
  | none => simp only [AttributeKeeper.keep, h]
  | some m' =>
    simp only [AttributeKeeper.keep, h]
    obtain ⟨g, hg, h⟩ := Option.bind_eq_some_iff.mp h
    split at h
    · cases h
      refine (Spares.setValue (P := (· = f)) ?_ _).values id f fun _ => rfl
      rintro rfl
      exact hnames (hf.symm.trans (name_of_featureNamed? hg))
    · cases h

/-- The comments are appended to the first value of the attribute one after the other. -/
theorem values_offerComments (hnames : k.commentAttribute ≠ k.noteAttribute)
    (htype : (s.featureAt f).dataType? = some .string) {comments : List Comment}
    (hcomments : ∀ c ∈ comments, c.kind ≠ .loose) (note : Option String) (line : Nat)
    {b : Building Unit} (hid : id < b.model.size)
    (hf : s.featureNamed? (b.model.classOf id) k.commentAttribute = some f) :
    (offerComments s (some k.keeper) id comments note line b).2.model.values id f =
      keptLines (b.model.values id f) (comments.map (·.text)) := by
  induction comments generalizing b with
  | nil =>
    cases note with
    | none => rfl
    | some text =>
      have hmodel := (offer_spec (k.keeper.note s id text) .noteRefused line b).1
      refine (congrArg (·.values id f) hmodel).trans ?_
      exact values_note hnames b.model (name_of_featureNamed? hf) text
  | cons c comments ih =>
    obtain ⟨hc, hcomments⟩ := forall_mem_cons.mp hcomments
    obtain ⟨hclass, hsize, hvalues⟩ := values_comment hid hf htype hc
    let b₁ := ((do unless ← offer (k.keeper.comment s (some id) c) do
      problem .commentRefused c.line : BuildM Unit Unit) b).2
    have hmodel : b₁.model = (k.keeper.comment s (some id) c (b.model, ())).2.1 :=
      (offer_spec (k.keeper.comment s (some id) c) .commentRefused c.line b).1
    have hrest := ih hcomments (b := b₁) (by rwa [hmodel, hsize]) (by rwa [hmodel, hclass])
    rw [hmodel, hvalues, keptLines_cons] at hrest
    exact hrest

/-- The values that the arguments of a statement bind to a feature of its element. -/
def Statement.boundValues (s : Schema) (c : ClassId) (statement : Statement ElementId)
    (f : FeatureId) : List Value :=
  (s.argumentSlots c 0 [] statement.arguments []).get f

/-- The comment attribute of an element has the bound values with the comments. -/
def Statement.KeepsComments (s : Schema) (k : AttributeKeeper) (m : Model)
    (statement : Statement ElementId) (id : ElementId) : Prop :=
  ∀ f, s.featureNamed? (m.classOf id) k.commentAttribute = some f →
    (s.featureAt f).dataType? = some .string → ¬s.IsReserved f →
    (∀ c ∈ statement.comments, c.kind ≠ .loose) →
    m.values id f = keptLines (statement.boundValues s (m.classOf id) f)
      (statement.comments.map (·.text))

theorem values_furnish (hnames : k.commentAttribute ≠ k.noteAttribute) (origin : Origin)
    (c : ClassId) (statement : Statement ElementId) (b : Building Unit) :
    let b' := conclude s origin (some k.keeper) c statement b
    (b'.model.size = b.model.size + 1 ∧ b'.model.classOf b.model.size = c) ∧
      (∀ j < b.model.size, b'.model.classOf j = b.model.classOf j ∧
        ∀ f, b'.model.values j f = b.model.values j f) ∧
      statement.KeepsComments s k b'.model b.model.size := by
  intro b'
  obtain ⟨hspares, -⟩ := spares_furnish (P := fun _ => False) (s := s) (by simp) (by simp)
    (fun _ hk => Option.some.inj hk ▸ k.spares (by simp)) origin c statement b
  have hclass (j : ElementId) :
      b'.model.classOf j = if j = b.model.size then c else b.model.classOf j :=
    (hspares.classOf j).trans (classOf_begin c statement b j)
  refine ⟨⟨hspares.size.trans (size_begin c statement b), (hclass _).trans (if_pos rfl)⟩,
    fun j hj => ?_, fun f hf htype hreserved hcomments => ?_⟩
  · have hne := Nat.ne_of_lt hj
    refine ⟨(hclass j).trans (if_neg hne), fun f => ?_⟩
    rw [hspares.values j f (fun h => hne h), values, elementAt_begin hj, ← values]
  · rw [hclass, if_pos rfl] at hf ⊢
    have hcontainment : (s.featureAt f).isContainment = false := by
      rw [isContainment, kind_of_dataType? htype]
    let b₁ := (placeChildren s b.model.size statement.members (begin s c statement b)).2
    let b₂ := (setLocation s origin b.model.size statement.command.line b₁).2
    have hchildren : (begin s c statement b).Spares b.model.size (· = f) b₁ :=
      spares_placeChildren (fun _ h => h ▸ hcontainment) statement.members _
    have hlocation : b₁.Spares b.model.size (· = f) b₂ :=
      spares_setLocation (fun _ h hg => absurd (h ▸ hg) hreserved) origin _ _
    have hfront := (hchildren.trans hlocation).model
    have hsize : b.model.size < b₂.model.size := by
      rw [hfront.size, size_begin]
      exact Nat.lt_succ_self _
    have hnamed : s.featureNamed? (b₂.model.classOf b.model.size) k.commentAttribute = some f := by
      rwa [hfront.classOf, classOf_begin, if_pos rfl]
    have hoffered := values_offerComments hnames htype hcomments statement.note
      statement.command.line hsize hnamed
    rw [hfront.values _ f fun _ => rfl, values_begin, if_pos rfl] at hoffered
    exact hoffered

/-! ### Runs -/

/-- A run over entries: what there is before is left alone, and the elements that are built keep the
comments of their statements. -/
structure KeepsAll (s : Schema) (k : AttributeKeeper) (m m' : Model)
    (built : List (Statement ElementId × ElementId)) : Prop where
  size_le : m.size ≤ m'.size
  classOf : ∀ j < m.size, m'.classOf j = m.classOf j
  values : ∀ j < m.size, ∀ f, m'.values j f = m.values j f
  kept : ∀ q ∈ built, q.2 < m'.size ∧ q.1.KeepsComments s k m' q.2

theorem KeepsAll.refl (m : Model) : KeepsAll s k m m [] :=
  ⟨Nat.le_refl _, fun _ _ => rfl, fun _ _ _ => rfl, forall_mem_nil _⟩

theorem KeepsAll.trans {m₁ m₂ m₃ : Model} {built built' : List (Statement ElementId × ElementId)}
    (h : KeepsAll s k m₁ m₂ built) (h' : KeepsAll s k m₂ m₃ built') :
    KeepsAll s k m₁ m₃ (built ++ built') where
  size_le := Nat.le_trans h.size_le h'.size_le
  classOf j hj := (h'.classOf j (Nat.lt_of_lt_of_le hj h.size_le)).trans (h.classOf j hj)
  values j hj f := (h'.values j (Nat.lt_of_lt_of_le hj h.size_le) f).trans (h.values j hj f)
  kept := by
    refine forall_mem_append.mpr ⟨fun q hq => ?_, h'.kept⟩
    obtain ⟨hlt, hkept⟩ := h.kept q hq
    refine ⟨Nat.lt_of_lt_of_le hlt h'.size_le, fun f hf => ?_⟩
    rw [h'.classOf _ hlt] at hf ⊢
    rw [h'.values _ hlt]
    exact hkept f hf

theorem keepsAll_leave (hnames : k.commentAttribute ≠ k.noteAttribute) (origin : Origin)
    (statement : Statement ElementId) (scope : Option ClassId) (b : Building Unit) :
    let r := (builder s origin (some k.keeper)).leave statement scope b
    KeepsAll s k b.model r.2.model (r.1.map fun a => (statement, a)).toList := by
  rcases leave_cases s origin (some k.keeper) statement scope b with
    ⟨fault, -, heq⟩ | ⟨c, -, -, heq⟩ <;> rw [heq]
  · exact .refl _
  · obtain ⟨⟨hsize, -⟩, hbefore, hkept⟩ := values_furnish hnames origin c statement b
    refine ⟨hsize ▸ Nat.le_succ _, fun j hj => (hbefore j hj).1, fun j hj => (hbefore j hj).2,
      forall_mem_singleton.mpr ⟨?_, hkept⟩⟩
    exact hsize ▸ Nat.lt_succ_self _

theorem keepsAll_builder (hnames : k.commentAttribute ≠ k.noteAttribute) (origin : Origin)
    (entries : List Entry) (b : Building Unit)
    (calls : List (Building Unit × Call (Option ClassId) ElementId)) :
    let r := visitAll (builder s origin (some k.keeper)).recorded none entries (b, calls)
    ∃ built, r.2.2.filterMap Call.built? = calls.filterMap Call.built? ++ built ∧
      KeepsAll s k b.model r.2.1.model built := by
  refine Visitor.Keeps.visitAll (v := (builder s origin (some k.keeper)).recorded)
    (P := fun _ st _ st' => ∃ built,
      st'.2.filterMap Call.built? = st.2.filterMap Call.built? ++ built ∧
        KeepsAll s k st.1.model st'.1.model built)
    ⟨?_, ?_, ?_, ?_, ?_, ?_⟩ none entries (b, calls)
  · exact fun _ _ => ⟨[], (append_nil _).symm, .refl _⟩
  · rintro _ st₁ _ st₂ _ st₃ ⟨built, hbuilt, h⟩ ⟨built', hbuilt', h'⟩
    exact ⟨built ++ built', by rw [hbuilt', hbuilt, append_assoc], h.trans h'⟩
  · intro _ c st
    refine ⟨[], filterMap_append, ?_⟩
    have hmodel : ((builder s origin (some k.keeper)).comment c st.1).2.model = st.1.model :=
      (offer_spec (k.keeper.comment s none c) .looseCommentRefused c.line st.1).1
    show KeepsAll s k st.1.model ((builder s origin (some k.keeper)).comment c st.1).2.model []
    rw [hmodel]
    exact .refl _
  · exact fun _ _ h => h
  · rintro _ command st₁ _ st₂ ⟨built, hbuilt, h⟩
    refine ⟨built, ?_, h⟩
    rw [hbuilt]
    exact congrArg (· ++ built) (Call.filterMap_built?_enter _ _ _ _ _)
  · rintro enclosing command st₁ ms st₂ arguments comments note ⟨built, hbuilt, h⟩
    refine ⟨_, ?_, h.trans (keepsAll_leave hnames origin
      ⟨command, arguments, ms, comments, note, enclosing.isNone⟩ _ st₂.1)⟩
    rw [← append_assoc]
    refine (Call.filterMap_built?_leave _ _ _ _ _).trans (congrArg (· ++ _) ?_)
    rw [hbuilt]
    exact congrArg (· ++ built) (Call.filterMap_built?_enter _ _ _ _ _)

/-! ### Whole texts -/

theorem isSome_text?_of_mem_boundValues (hs : s.Accepted) {c : ClassId}
    {statement : Statement ElementId} (htype : (s.featureAt f).dataType? = some .string) {v : Value}
    (hv : v ∈ statement.boundValues s c f) : v.text?.isSome = true := by
  have hfits : s.Fits c (s.argumentSlots c 0 [] statement.arguments []) :=
    hs.fits_argumentSlots statement.arguments (fun _ h => absurd rfl h) fun _ _ _ => rfl
  have htakes := (hfits f (ne_nil_of_mem hv)).takes v hv
  rw [kind_of_dataType? htype] at htakes
  cases v with
  | string | enum | generic | proxy => rfl
  | _ => cases htakes

/-- Whatever a text says, the comment attribute of each element that is built has the values bound
to it, all of them texts, with the comments behind the first. -/
theorem comments_kept (hs : s.Accepted) (origin : Origin)
    (hnames : k.commentAttribute ≠ k.noteAttribute) (m : Model) (text : List Char) :
    let r := instantiateWith s origin (some k.keeper) () m text
    let built := (visitAll (builder s origin (some k.keeper)).recorded none
      (parse (tokenize s.pattern text)).entries ({ model := m, keeper := () }, [])).2.2.filterMap
        Call.built?
    r.elements = built.map Prod.snd ∧
      ∀ statement id, (statement, id) ∈ built →
        ∀ f, s.featureNamed? (r.model.classOf id) k.commentAttribute = some f →
        (s.featureAt f).dataType? = some .string → ¬s.IsReserved f →
        let vs := statement.boundValues s (r.model.classOf id) f
        (∀ v ∈ vs, v.text?.isSome = true) ∧
          r.model.values id f = keptLines vs (statement.comments.map (·.text)) := by
  intro r built
  let v := builder s origin (some k.keeper)
  let entries := (parse (tokenize s.pattern text)).entries
  have hkeeper : ∀ c ∈ some k.keeper, c.Discreet s := fun c hc => Option.some.inj hc ▸ k.discreet s
  obtain ⟨-, made, surplus, hmade, hsettles⟩ := settles_builder hs hkeeper origin none entries
    { model := m, keeper := () } []
  obtain ⟨made', hmade', hkept⟩ := keepsAll_builder hnames origin entries
    { model := m, keeper := () } []
  obtain ⟨made'', hmade'', -, hcomments⟩ := lines_visitAll v none entries (within_parse _).1
    { model := m, keeper := () } []
  obtain ⟨-, hstate⟩ := visitAll_recorded v none entries { model := m, keeper := () } []
  obtain rfl : built = made := hmade
  obtain rfl : built = made' := hmade'
  obtain rfl : built = made'' := hmade''
  rw [hstate] at hsettles hkept
  refine ⟨hsettles.elements, fun statement id hid f hf htype hreserved => ⟨fun v hv => ?_, ?_⟩⟩
  · exact isSome_text?_of_mem_boundValues hs htype hv
  · exact (hkept.kept _ hid).2 f hf htype hreserved fun c hc => (hcomments _ hid c hc).2

/-- Boxes with texts to which comments are added. -/
def annotated : SchemaDefinition where
  classes := [{ name := "Box", features := [{ name := "comment", sort := .string, many := true }] }]

theorem comments_kept_annotated : ∃ s, annotated.build = .ok s ∧
    let r := instantiateWith s {} (some (AttributeKeeper.keeper {})) () {}
      "# above\nBox comment: a # behind".toList
    r.elements = [0] ∧ ∃ statement : Statement ElementId,
      statement.boundValues s (r.model.classOf 0) 0 = [.string "a"] ∧
      statement.comments.map (·.text) = [" above", " behind"] ∧
      r.model.values 0 0 = [.string "a\n above\n behind"] := by
  obtain ⟨s, hs, hnamed, htype, hreserved, q, hq, hid, hvs, hlines⟩ : ∃ s, annotated.build = .ok s ∧
      let r := instantiateWith s {} (some (AttributeKeeper.keeper {})) () {}
        "# above\nBox comment: a # behind".toList
      s.featureNamed? (r.model.classOf 0) "comment" = some 0 ∧
      (s.featureAt 0).dataType? = some .string ∧ ¬s.IsReserved 0 ∧
      ∃ q ∈ (visitAll (builder s {} (some (AttributeKeeper.keeper {}))).recorded none
        (parse (tokenize s.pattern "# above\nBox comment: a # behind".toList)).entries
          ({ model := {}, keeper := () }, [])).2.2.filterMap Call.built?,
        q.2 = 0 ∧ q.1.boundValues s (r.model.classOf 0) 0 = [.string "a"] ∧
          q.1.comments.map (·.text) = [" above", " behind"] :=
    ⟨_, rfl, by decide +kernel, by decide +kernel, by decide +kernel, by decide +kernel⟩
  obtain ⟨helements, hkept⟩ := comments_kept ⟨annotated, hs⟩ {} (k := {}) (by decide) {}
    "# above\nBox comment: a # behind".toList
  obtain ⟨statement, id⟩ := q
  obtain rfl : id = 0 := hid
  obtain ⟨-, hvalues⟩ := hkept statement 0 hq 0 hnamed htype hreserved
  refine ⟨s, hs, ?_, statement, hvs, hlines, ?_⟩
  · cases hs
    decide +kernel
  · rw [hvalues, hvs, hlines]
    decide +kernel

/-- With a comment, the second of two bound values is lost. -/
theorem bound_value_lost : ∃ s, annotated.build = .ok s ∧
    let r := instantiateWith s {} (some (AttributeKeeper.keeper {})) () {}
      "Box comment: [a, b] # note".toList
    (instantiateWith s {} none () {} "Box comment: [a, b] # note".toList).model.values 0 0 =
        [.string "a", .string "b"] ∧
      r.elements = [0] ∧ r.model.values 0 0 = [.string "a\n note"] :=
  ⟨_, rfl, by decide +kernel, by decide +kernel, by decide +kernel⟩

end CommandText
