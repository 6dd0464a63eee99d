import CommandText.Proofs.InstantiatedModel
import CommandText.Proofs.LinesRead
import CommandText.Proofs.TokenSpans

/-!
# The lines of problems

Every problem of a text is told on a line of the text, one on which a token stands. Problems found
while reading are told where a token is, or was passed over last. Those found while elements are
created are told on the line of a command, a label, a value or a comment, or on the line of a child;
and a child stands on the line of its command.
-/

namespace CommandText

open List Entry

variable {τ α : Type} {lines : List Nat} {line : Nat} {t : Token} {statement : Statement ElementId}
variable {b : Building τ}
variable {keeper : Option (CommentKeeper τ)}

/-! ### Lines of elements and problems -/

theorem Model.lineOf_of_attach? {m m' : Model} {parent child : ElementId} {f : FeatureId}
    (h : m.attach? parent f child = some m') (j : ElementId) :
    (m'.elementAt j).line = (m.elementAt j).line := by
  obtain ⟨-, -, rfl⟩ := (m.attach?_eq_some_iff).mp h
  rw [addValue_eq_fill, lineOf_fill, elementAt_update]
  split
  · next h => rw [h.1]
  · rfl

namespace Building

variable {b' b'' : Building τ}

/-- A later state of the work: the problems told since stand on some lines, and children that stood
on them still do. -/
structure Tells (lines : List Nat) (b b' : Building τ) : Prop where
  problems : ∀ p ∈ b'.problems, p ∈ b.problems ∨ p.line ∈ lines
  children : ∀ j, BuildM.childLine b.model j ∈ lines → BuildM.childLine b'.model j ∈ lines

theorem Tells.refl (b : Building τ) : b.Tells lines b := ⟨fun _ => .inl, fun _ => id⟩

theorem Tells.trans (h : b.Tells lines b') (h' : b'.Tells lines b'') : b.Tells lines b'' where
  problems p hp := (h'.problems p hp).elim (h.problems p) .inr
  children j hj := h'.children j (h.children j hj)

theorem Tells.of_lineOf (hproblems : b'.problems = b.problems)
    (h : ∀ j, (b'.model.elementAt j).line = (b.model.elementAt j).line) : b.Tells lines b' := by
  refine ⟨fun p hp => .inl (hproblems ▸ hp), fun j hj => ?_⟩
  rwa [BuildM.childLine, h]

end Building

/-- The label and the children of a member stand on some lines. -/
def Member.Within (lines : List Nat) (m : Model) : Member ElementId → Prop
  | child id => BuildM.childLine m id ∈ lines
  | role label children _ => label.line ∈ lines ∧ ∀ id ∈ children, BuildM.childLine m id ∈ lines

theorem Building.Tells.member {b b' : Building τ} (h : b.Tells lines b')
    {member : Member ElementId} (hmember : member.Within lines b.model) :
    member.Within lines b'.model := by
  cases member with
  | child id => exact h.children id hmember
  | role label children list =>
    exact hmember.imp_right fun hids id hid => h.children id (hids id hid)

namespace BuildM

/-! ### The work on an element -/

/-- Problems are told on some lines only, and children stay on them. -/
def Tells (lines : List Nat) (x : BuildM τ α) : Prop :=
  ∀ b : Building τ, b.Tells lines (x b).2

theorem Tells.pure (a : α) : Tells lines (pure a : BuildM τ α) := fun b => .refl b

theorem Tells.bind {β : Type} {x : BuildM τ α} {f : α → BuildM τ β} (hx : Tells lines x)
    (hf : ∀ a, Tells lines (f a)) : Tells lines (x >>= f) :=
  fun b => (hx b).trans (hf _ _)

theorem tells_problem (fault : Fault) (h : line ∈ lines) :
    Tells lines (problem fault line : BuildM τ Unit) := by
  refine fun b => ⟨fun p hp => (mem_append.mp hp).imp_right fun hp => ?_, fun _ => id⟩
  rw [mem_singleton.mp hp]
  exact h

theorem tells_change {f : Model → Model}
    (h : ∀ m j, ((f m).elementAt j).line = (m.elementAt j).line) :
    Tells lines (change f : BuildM τ Unit) :=
  fun b => .of_lineOf rfl (h b.model)

variable (s : Schema) (id : ElementId)

theorem tells_bindValue (f : FeatureId) (ht : t.line ∈ lines) :
    Tells lines (bindValue s id f t : BuildM τ Unit) := by
  rw [bindValue]
  cases s.accept (s.featureAt f) t with
  | error fault => exact tells_problem fault ht
  | ok v =>
    refine (tells_change fun m j => ?_).bind fun _ => ?_
    · rw [m.addValue_eq_fill, m.lineOf_fill]
    · cases v with
      | proxy target => exact fun b => .of_lineOf rfl fun _ => rfl
      | _ => exact .pure ()

theorem tells_bindValues (f : FeatureId) {tokens : List Token}
    (htokens : ∀ t ∈ tokens, t.line ∈ lines) (hline : line ∈ lines) :
    Tells lines (bindValues s id f tokens line : BuildM τ Unit) := by
  rw [bindValues]
  split
  · exact tells_problem _ hline
  · exact fun b => relates_forM .refl .trans (P := fun (t : Token) _ => t.line ∈ lines)
      (fun _ _ _ _ ht => ht) (fun t b ht => tells_bindValue s id f ht b) htokens

theorem lineOr_mem {a : Argument} (ha : a.Within lines) (hline : line ∈ lines) :
    a.lineOr line ∈ lines := by
  rw [Argument.lineOr]
  cases hlabel : a.label with
  | some label => exact ha.1 label hlabel
  | none =>
    cases hvalues : a.value.tokens with
    | nil => exact hline
    | cons t ts => exact ha.2 t (hvalues ▸ mem_cons_self)

theorem tells_bindArguments {arguments : List Argument} (h : ∀ a ∈ arguments, a.Within lines)
    (hline : line ∈ lines) : Tells lines (bindArguments s id arguments line : BuildM τ Unit) := by
  have hrest (c : ClassId) (position : Nat) (given : List FeatureId) :
      Tells lines (bindRest s id c line position given arguments : BuildM τ Unit) := by
    induction arguments generalizing position given with
    | nil => exact .pure ()
    | cons a rest ih =>
      obtain ⟨ha, hrest⟩ := forall_mem_cons.mp h
      rw [bindRest]
      cases s.address c position a.label with
      | error fault => exact (tells_problem fault (lineOr_mem ha hline)).bind fun _ => ih hrest _ _
      | ok f =>
        simp only
        split
        · exact (tells_problem _ (lineOr_mem ha hline)).bind fun _ => ih hrest _ _
        · exact (tells_bindValues s id f ha.2 (lineOr_mem ha hline)).bind fun _ => ih hrest _ _
  exact fun b => hrest (b.model.classOf id) 0 [] b

section Children

theorem tells_attachInRole (f : FeatureId) {child : ElementId}
    (h : childLine b.model child ∈ lines) : b.Tells lines (attachInRole s id f child b).2 := by
  rw [attachInRole, getModel_bind_apply]
  cases (s.featureAt f).target? with
  | none => exact .refl b
  | some target =>
    dsimp only
    split
    · exact tells_problem _ h b
    · split
      · exact tells_problem _ h b
      · cases hattach : b.model.attach? id f child with
        | none => exact tells_problem _ h b
        | some m => exact .of_lineOf rfl (Model.lineOf_of_attach? hattach)

theorem tells_attachUnlabeled {child : ElementId} (h : childLine b.model child ∈ lines) :
    b.Tells lines (attachUnlabeled s id child b).2 := by
  rw [attachUnlabeled, getModel_bind_apply]
  rcases s.containmentsAccepting (b.model.classOf id) (b.model.classOf child) with
    _ | ⟨f, _ | ⟨g, fs⟩⟩
  · exact tells_problem _ h b
  · dsimp only
    split
    · exact tells_problem _ h b
    · exact tells_attachInRole s id f h
  · exact tells_problem _ h b

theorem tells_placeMember {member : Member ElementId} (h : member.Within lines b.model) :
    b.Tells lines (placeMember s id member b).2 := by
  cases member with
  | child child => exact tells_attachUnlabeled s id h
  | role label children list =>
    rw [placeMember, getModel_bind_apply]
    cases s.featureNamed? (b.model.classOf id) label.text with
    | none => exact tells_problem _ h.1 b
    | some f =>
      dsimp only
      split
      · exact relates_forM .refl .trans (P := fun child b => childLine b.model child ∈ lines)
          (fun child _ _ htells hchild => htells.children child hchild)
          (fun _ _ hchild => tells_attachInRole s id f hchild) h.2
      · exact tells_problem _ h.1 b

theorem tells_placeChildren {members : List (Member ElementId)}
    (h : ∀ member ∈ members, member.Within lines b.model) :
    b.Tells lines (placeChildren s id members b).2 :=
  relates_forM .refl .trans (P := fun member b => member.Within lines b.model)
    (fun _ _ _ htells hmember => htells.member hmember)
    (fun _ _ hmember => tells_placeMember s id hmember) h

end Children

theorem tells_setLocation (origin : Origin) (line : Nat) :
    Tells lines (setLocation s origin id line : BuildM τ Unit) :=
  relates_setLocation .refl .trans
    (fun b f v _ _ _ _ => .of_lineOf rfl (b.model.lineOf_fill id (·.put f [v]))) origin line

end BuildM

/-! ### Comments -/

/-- A keeper that leaves the lines of elements alone. -/
structure CommentKeeper.KeepsLines (k : CommentKeeper τ) : Prop where
  comment : ∀ s id c m t j,
    ((k.comment s id c (m, t)).2.1.elementAt j).line = (m.elementAt j).line
  note : ∀ s id text m t j,
    ((k.note s id text (m, t)).2.1.elementAt j).line = (m.elementAt j).line

theorem AttributeKeeper.keepsLines (k : AttributeKeeper) : k.keeper.KeepsLines := by
  have hlines (s : Schema) (id : ElementId) := k.relates s id
    (R := fun m m' => ∀ j, (m'.elementAt j).line = (m.elementAt j).line) (fun _ _ => rfl)
    fun m f text _ _ => m.lineOf_fill id (·.put f [.string text])
  refine ⟨fun s id c m t j => ?_, fun s id text m t j => (hlines s id).2 text m t j⟩
  cases id with
  | none => rfl
  | some id => exact (hlines s id).1 c m t j

namespace BuildM

variable (s : Schema)

theorem tells_unless (taken : Bool) (fault : Fault) (h : line ∈ lines) :
    Tells lines (unless taken do problem fault line : BuildM τ Unit) := by
  cases taken with
  | true => exact .pure ()
  | false => exact tells_problem fault h

theorem tells_offer {ask : StateM (Model × τ) Bool}
    (h : ∀ m t j, ((ask (m, t)).2.1.elementAt j).line = (m.elementAt j).line) (fault : Fault)
    (hline : line ∈ lines) : Tells lines (do unless ← offer ask do problem fault line) :=
  Tells.bind (fun b => .of_lineOf rfl (h b.model b.keeper)) fun taken =>
    tells_unless taken fault hline

theorem tells_offerComments (hkeeper : ∀ k ∈ keeper, k.KeepsLines) (id : ElementId)
    {comments : List Comment} (hcomments : ∀ c ∈ comments, c.line ∈ lines) (note : Option String)
    (hline : line ∈ lines) : Tells lines (offerComments s keeper id comments note line) := by
  exact relates_offerComments .refl .trans
    (fun k hk c hc => tells_offer ((hkeeper k hk).comment s (some id) c) _ (hcomments c hc))
    (fun k hk text => tells_offer ((hkeeper k hk).note s id text) _ hline) (tells_problem _ hline)

end BuildM

/-! ### The work on a text -/

section Builder

open BuildM

variable (s : Schema) (origin : Origin)

theorem tells_create (c : ClassId) (h : line ∈ lines) (isRoot : Bool) (b : Building τ) :
    b.Tells lines (BuildM.create c line isRoot b).2 ∧
      childLine (BuildM.create c line isRoot b).2.model b.model.size ∈ lines := by
  have hlines (j : ElementId) : childLine (b.model.create c (some line)) j =
      if j = b.model.size then line else childLine b.model j := by
    rw [childLine, Model.elementAt_create]
    split <;> rfl
  refine ⟨⟨fun _ => .inl, fun j hj => ?_⟩, ?_⟩
  · show childLine (b.model.create c (some line)) j ∈ lines
    rw [hlines]
    split
    · exact h
    · exact hj
  · show childLine (b.model.create c (some line)) b.model.size ∈ lines
    rw [hlines, if_pos rfl]
    exact h

/-- The statement stands on some lines, but for its block. -/
structure Statement.Within (lines : List Nat) (statement : Statement ElementId) : Prop where
  command : statement.command.line ∈ lines
  arguments : ∀ a ∈ statement.arguments, a.Within lines
  comments : ∀ c ∈ statement.comments, c.line ∈ lines

theorem tells_furnish (hkeeper : ∀ k ∈ keeper, k.KeepsLines) (h : statement.Within lines)
    (id : ElementId) {b : Building τ}
    (hmembers : ∀ member ∈ statement.members, member.Within lines b.model) :
    b.Tells lines (furnish s origin keeper statement id b).2 := by
  have harguments := tells_bindArguments s id h.arguments h.command b
  have hchildren := tells_placeChildren s id fun member hmember =>
    harguments.member (hmembers member hmember)
  refine (harguments.trans hchildren).trans ?_
  exact ((tells_setLocation s id origin _).bind fun _ =>
    tells_offerComments s hkeeper id h.comments statement.note h.command) _

theorem tells_leave (hkeeper : ∀ k ∈ keeper, k.KeepsLines) (h : statement.Within lines)
    (scope : Option ClassId) {b : Building τ}
    (hmembers : ∀ member ∈ statement.members, member.Within lines b.model) :
    b.Tells lines ((builder s origin keeper).leave statement scope b).2 ∧
      ∀ id ∈ ((builder s origin keeper).leave statement scope b).1,
        childLine ((builder s origin keeper).leave statement scope b).2.model id ∈ lines := by
  rcases leave_cases s origin keeper statement scope b with
    ⟨fault, -, heq⟩ | ⟨c, -, -, heq⟩ <;> rw [heq]
  · exact ⟨tells_problem _ h.command b, nofun⟩
  · obtain ⟨hcreate, hline⟩ := tells_create c h.command statement.isRoot b
    have hfurnish := tells_furnish s origin hkeeper h b.model.size fun member hmember =>
      hcreate.member (hmembers member hmember)
    refine ⟨hcreate.trans hfurnish, ?_⟩
    rintro _ ⟨⟩
    exact hfurnish.children _ hline

mutual

theorem tells_visit (hkeeper : ∀ k ∈ keeper, k.KeepsLines) (enclosing : Option (Option ClassId))
    (entry : Entry) (hentry : entry.Within lines) (b : Building τ) :
    b.Tells lines (entry.visit (builder s origin keeper) enclosing b).2 ∧
      ∀ member ∈ (entry.visit (builder s origin keeper) enclosing b).1,
        member.Within lines (entry.visit (builder s origin keeper) enclosing b).2.model := by
  cases hentry with
  | @comment c hc =>
    refine ⟨?_, forall_mem_nil _⟩
    cases keeper with
    | none => exact .refl b
    | some k => exact tells_offer ((hkeeper k rfl).comment s none c) _ hc b
  | @role label list items hlabel hitems =>
    obtain ⟨htells, hmembers⟩ := tells_visitAll hkeeper enclosing items hitems b
    refine ⟨htells, forall_mem_singleton.mpr ⟨hlabel, fun id hid => ?_⟩⟩
    obtain ⟨member, hmember, hid⟩ := mem_filterMap.mp hid
    cases member with
    | child a =>
      obtain rfl := Option.some.inj hid
      exact hmembers _ hmember
    | role => cases hid
  | @statement word args body closing hword hargs hbody hclosing =>
    obtain ⟨htells, hmembers⟩ := tells_visitAll hkeeper
      (some (s.classForCommand? word.text enclosing.join)) body hbody b
    cases closing with
    | none => exact ⟨htells, forall_mem_nil _⟩
    | some closing =>
      have hstatement (ms : List (Member ElementId)) : Statement.Within lines
          ⟨word, args, ms, closing.comments, closing.note, enclosing.isNone⟩ :=
        ⟨hword, hargs, fun c hc => (hclosing closing rfl c hc).1⟩
      obtain ⟨hleave, hanswer⟩ := tells_leave s origin hkeeper (hstatement _)
        (s.classForCommand? word.text enclosing.join) hmembers
      refine ⟨htells.trans hleave, fun member hmember => ?_⟩
      obtain ⟨id, hid, rfl⟩ := mem_map.mp hmember
      exact hanswer id (Option.mem_toList.mp hid)

theorem tells_visitAll (hkeeper : ∀ k ∈ keeper, k.KeepsLines)
    (enclosing : Option (Option ClassId)) (entries : List Entry)
    (hentries : ∀ e ∈ entries, e.Within lines) (b : Building τ) :
    b.Tells lines (visitAll (builder s origin keeper) enclosing entries b).2 ∧
      ∀ member ∈ (visitAll (builder s origin keeper) enclosing entries b).1,
        member.Within lines
          (visitAll (builder s origin keeper) enclosing entries b).2.model := by
  cases entries with
  | nil => exact ⟨.refl b, forall_mem_nil _⟩
  | cons entry entries =>
    obtain ⟨hentry, hentries⟩ := forall_mem_cons.mp hentries
    obtain ⟨hfirst, hmembers⟩ := tells_visit hkeeper enclosing entry hentry b
    obtain ⟨hrest, hothers⟩ := tells_visitAll hkeeper enclosing entries hentries
      (entry.visit (builder s origin keeper) enclosing b).2
    rw [visitAll_cons]
    refine ⟨hfirst.trans hrest, forall_mem_append.mpr ⟨fun member hmember => ?_, hothers⟩⟩
    exact hrest.member (hmembers member hmember)

end

end Builder

/-! ### Lines of the text -/

section FillsLines

variable {index : Nat} {pending : Bool} {rows : List Line} {tokens : List Token}

theorem FillsLines.line_le (h : FillsLines index pending rows tokens) (ht : t ∈ tokens) :
    t.line ≤ index + rows.length := by
  induction h with
  | nil => cases ht
  | line hline _ _ ih =>
    rw [length_cons]
    rcases mem_append.mp ht with ht | ht
    · rw [(hline.exists_span ht).1]
      omega
    · have := ih ht
      omega
  | newline _ ih =>
    rcases mem_cons.mp ht with rfl | ht
    · exact Nat.le_add_right _ _
    · exact ih ht

theorem FillsLines.lt_line (h : FillsLines index false rows tokens) (ht : t ∈ tokens) :
    index < t.line := by
  cases h with
  | nil => cases ht
  | line hline _ hmore =>
    rcases mem_append.mp ht with ht | ht
    · rw [(hline.exists_span ht).1]
      exact Nat.lt_succ_self _
    · exact hmore.le_line ht

end FillsLines

theorem line_of_mem_tokenize {pattern : Pattern} {text : List Char}
    (ht : t ∈ tokenize pattern text) : 1 ≤ t.line ∧ t.line ≤ (linesOf text).length := by
  have hfills := fillsLines_scanLines pattern 0 false false (linesOf text)
  refine ⟨hfills.lt_line ht, ?_⟩
  have hle := hfills.line_le ht
  rwa [length_mapIdx, Nat.zero_add] at hle

theorem pairwise_sortProblems (problems : List Problem) :
    (sortProblems problems).Pairwise fun p q => p.line ≤ q.line := by
  refine (pairwise_mergeSort ?_ ?_ problems).imp fun h => by simpa using h
  · intro p q r hpq hqr
    simp only [decide_eq_true_eq] at hpq hqr ⊢
    exact Nat.le_trans hpq hqr
  · intro p q
    simp only [Bool.or_eq_true, decide_eq_true_eq]
    exact Nat.le_total _ _

/-- The problems of a text are told in the order of their lines, each on a line of the text on which
a token stands. -/
theorem within_instantiateWith (s : Schema) (origin : Origin) (k : Option AttributeKeeper)
    (m : Model) (text : List Char) :
    let r := instantiateWith s origin (k.map AttributeKeeper.keeper) () m text
    r.problems.Pairwise (fun p q => p.line ≤ q.line) ∧
      ∀ p ∈ r.problems, 1 ≤ p.line ∧ p.line ≤ (linesOf text).length ∧
        ∃ t ∈ tokenize s.pattern text, t.line = p.line := by
  intro r
  have hkeeper : ∀ keeper ∈ k.map AttributeKeeper.keeper, keeper.KeepsLines := by
    intro keeper hkeeper
    obtain ⟨k, -, rfl⟩ := Option.map_eq_some_iff.mp hkeeper
    exact k.keepsLines
  obtain ⟨hentries, hread⟩ := within_parse (tokenize s.pattern text)
  obtain ⟨hbuilt, -⟩ :=
    tells_visitAll s origin hkeeper none _ hentries { model := m, keeper := () }
  refine ⟨pairwise_map.mpr (pairwise_sortProblems _), fun p hp => ?_⟩
  obtain ⟨q, hq, rfl⟩ := mem_map.mp hp
  have hline : q.line ∈ (tokenize s.pattern text).map (·.line) := by
    rcases mem_append.mp (mem_mergeSort.mp hq) with hq | hq
    · exact (hbuilt.problems q hq).resolve_left not_mem_nil
    · exact hread q hq
  obtain ⟨t, ht, hline⟩ := mem_map.mp hline
  have hbounds := line_of_mem_tokenize ht
  rw [hline] at hbounds
  exact ⟨hbounds.1, hbounds.2, t, ht, hline⟩

end CommandText
