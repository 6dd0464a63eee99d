import CommandText.Proofs.CommandLines
import CommandText.Proofs.PlacedChildren
import CommandText.Proofs.ProblemLines
import CommandText.Proofs.SparedValues
import CommandText.Proofs.SurplusChildren

/-!
# One child in a single containment

Of the children of a statement that are directed to a containment for one child, the element of the
statement keeps the first. The others stay without a container, and on the line of each of them
exactly one problem says so, since no two commands begin on one line. Nothing that is done later
changes any of this: what follows a statement can still put its element somewhere, but leaves alone
what it holds and the children that it has not taken.
-/

namespace CommandText

open List Model BuildM Fault Entry Feature Call

variable {τ : Type} {s : Schema} {id : ElementId} {keeper : Option (CommentKeeper τ)}

/-! ### Behind the children -/

/-- A keeper that leaves alone the lines of elements and what they contain. -/
structure CommentKeeper.Discreet (k : CommentKeeper τ) (s : Schema) : Prop where
  tame : k.Tame
  keepsLines : k.KeepsLines
  spares : k.Spares s fun f => (s.featureAt f).isContainment = true

theorem Feature.dataType?_of_isContainment {f : Feature} (h : f.isContainment = true) :
    f.dataType? = none := by
  rw [isContainment] at h
  rw [dataType?]
  cases hf : f.kind with
  | containment c => rfl
  | _ => simp [hf] at h

theorem AttributeKeeper.discreet (k : AttributeKeeper) (s : Schema) : k.keeper.Discreet s :=
  ⟨k.tame, k.keepsLines, k.spares fun _ hf => by
    rw [dataType?_of_isContainment hf]
    nofun⟩

theorem lineOf_offerComments (hkeeper : ∀ k ∈ keeper, k.KeepsLines) (comments : List Comment)
    (note : Option String) (line : Nat) (b : Building τ) (j : ElementId) :
    ((offerComments s keeper id comments note line b).2.model.elementAt j).line =
      (b.model.elementAt j).line := by
  refine relates_offerComments (R := fun b b' =>
    (b'.model.elementAt j).line = (b.model.elementAt j).line) (fun _ => rfl)
    (fun h h' => h'.trans h)
    (fun k hk c _ b => ?_) (fun k hk text b => ?_) (fun _ => rfl) b
  · rw [(offer_spec _ _ _ b).1, (hkeeper k hk).comment]
  · rw [(offer_spec _ _ _ b).1, (hkeeper k hk).note]

/-- What is done for an element behind its children: its containments stay, and so do all elements
before it. -/
structure Finishes (s : Schema) (id : ElementId) (b b' : Building τ) : Prop where
  size : b'.model.size = b.model.size
  classOf : ∀ j, b'.model.classOf j = b.model.classOf j
  before : ∀ j < id, b'.model.elementAt j = b.model.elementAt j
  lineOf : (b'.model.elementAt id).line = (b.model.elementAt id).line
  values : ∀ f, (s.featureAt f).isContainment = true → b'.model.values id f = b.model.values id f
  told : b'.told isSecondChild = b.told isSecondChild

theorem finishes (hkeeper : ∀ k ∈ keeper, k.Discreet s) (origin : Origin)
    (statement : Statement ElementId) (id : ElementId) (b : Building τ) :
    Finishes s id b (offerComments s keeper id statement.comments statement.note
      statement.command.line (setLocation s origin id statement.command.line b).2).2 := by
  have hlocated := work_setLocation (s := s) (Nat.le_refl id) origin statement.command.line b
  have hcomments := work_offerComments (s := s) (fun k hk => (hkeeper k hk).tame) (Nat.le_refl id)
    statement.comments statement.note statement.command.line
    (setLocation s origin id statement.command.line b).2
  have hwork := hlocated.trans hcomments
  have hspares : b.Spares id (fun f => (s.featureAt f).isContainment = true) _ :=
    (spares_setLocation (fun f hf _ => dataType?_of_isContainment hf) origin
      statement.command.line b).trans
    (spares_offerComments (fun k hk => (hkeeper k hk).spares) statement.comments statement.note
      statement.command.line _)
  refine ⟨hwork.size, hwork.classOf, hwork.before, ?_, fun f hf => ?_, ?_⟩
  · rw [lineOf_offerComments fun k hk => (hkeeper k hk).keepsLines,
      (filled_setLocation (s := s) origin statement.command.line b).lineOf]
  · exact hspares.model.values id f fun _ => hf
  · have h := (avoids_setLocation s id origin statement.command.line).bind fun _ =>
      avoids_offerComments s id keeper statement.comments statement.note statement.command.line
    exact h.mono (fun _ => concernsPlace_of_isSecondChild) b

/-! ### The end of a statement -/

theorem Member.directed_congr {classes classes' : ElementId → ClassId} {member : Member ElementId}
    (h : ∀ child ∈ member.answers, classes' child = classes child) (c : ClassId) (f : FeatureId) :
    member.directed s classes' c f = member.directed s classes c f := by
  cases member with
  | child child => rw [directed, directed, h child (mem_singleton_self child)]
  | role label children list =>
    rw [directed, directed]
    refine if_congr Iff.rfl (filter_congr fun child hchild => ?_) rfl
    rw [h child hchild]

theorem Statement.directed_congr {classes classes' : ElementId → ClassId}
    {statement : Statement ElementId}
    (h : ∀ child ∈ statement.members.flatMap Member.answers, classes' child = classes child)
    (c : ClassId) (f : FeatureId) :
    statement.directed s classes' c f = statement.directed s classes c f := by
  refine flatMap_congr fun member hmember => Member.directed_congr (fun child hchild => ?_) c f
  exact h child (mem_flatMap.mpr ⟨member, hmember, hchild⟩)

/-- The element of a statement holds the first child in each single containment, and the children
that come later are surplus. -/
structure Statement.Settled (s : Schema) (m : Model) (surplus : List (FeatureId × ElementId))
    (statement : Statement ElementId) (id : ElementId) : Prop where
  lt_size : id < m.size
  older : ∀ child ∈ statement.members.flatMap Member.answers, child < id
  line : (m.elementAt id).line = some statement.command.line
  values : ∀ f, s.IsSingle (m.classOf id) f → m.values id f =
    ((statement.directed s m.classOf (m.classOf id) f).map Value.element).take 1
  later : ∀ f, s.IsSingle (m.classOf id) f →
    ∀ d ∈ (statement.directed s m.classOf (m.classOf id) f).drop 1, (f, d) ∈ surplus

theorem Statement.Settled.mono {m m' : Model} {surplus surplus' : List (FeatureId × ElementId)}
    {statement : Statement ElementId} (h : statement.Settled s m surplus id) (hlater : Later m m')
    (hsurplus : surplus ⊆ surplus') : statement.Settled s m' surplus' id := by
  have hclass := hlater.classOf id h.lt_size
  have hdirected (c : ClassId) (f : FeatureId) :
      statement.directed s m'.classOf c f = statement.directed s m.classOf c f :=
    directed_congr (fun child hchild =>
      hlater.classOf child (Nat.lt_trans (h.older child hchild) h.lt_size)) c f
  refine ⟨Nat.lt_of_lt_of_le h.lt_size hlater.size, h.older, ?_, fun f hf => ?_,
    fun f hf d hd => ?_⟩
  · rw [hlater.lineOf id h.lt_size, h.line]
  · rw [hclass] at hf ⊢
    rw [hlater.values id h.lt_size, hdirected, h.values f hf]
  · rw [hclass] at hf hd
    rw [hdirected] at hd
    exact hsurplus (h.later f hf d hd)

/-- The end of a statement, with the children that its element has not taken. -/
structure Furnished (s : Schema) (statement : Statement ElementId) (b b' : Building τ)
    (surplus : List (FeatureId × ElementId)) : Prop where
  later : Later b.model b'.model
  container : ∀ j < b.model.size, j ∉ statement.members.flatMap Member.answers →
    b'.model.container j = b.model.container j
  settled : statement.Settled s b'.model surplus b.model.size
  sublist : (surplus.map Prod.snd).Sublist (statement.members.flatMap Member.answers)
  free : ∀ p ∈ surplus, b'.model.container p.2 = none
  told : b'.told isSecondChild =
    b.told isSecondChild ++ surplus.map (s.surplusProblem b'.model)

variable {c : ClassId} {statement : Statement ElementId} {b b₁ b₂ b₃ : Building τ}

theorem Offers.ready (hs : s.Accepted) (h : Offers s (some (some c)) b₁ statement.members b₂) :
    Ready s (begin s c statement b₂).model.classOf c b₂.model.size
      (statement.members.flatMap Member.answers) (begin s c statement b₂) := by
  refine ⟨h.awaits, rfl, fun f hf => ?_⟩
  rw [containment_begin _ _ hs hf.mem]
  exact Nat.zero_le 1

theorem elementAt_begin {j : ElementId} (hj : j < b.model.size) (c : ClassId)
    (statement : Statement ElementId) :
    (begin s c statement b).model.elementAt j = b.model.elementAt j := by
  have hne : j ≠ b.model.size := Nat.ne_of_lt hj
  rw [model_begin, elementAt_fill_of_ne _ _ _ hne, elementAt_create, if_neg hne]

section Placed

variable {placed : Building τ} {surplus : List (FeatureId × ElementId)}
  (htended : Tended s b₂.model.size (begin s c statement b₂).model placed.model)
  (hfinishes : Finishes s b₂.model.size placed b₃)

include htended hfinishes

theorem Finishes.size_eq : b₃.model.size = b₂.model.size + 1 := by
  rw [hfinishes.size, htended.size, size_begin]

theorem Finishes.classOf_eq : b₃.model.classOf = (begin s c statement b₂).model.classOf :=
  funext fun j => (hfinishes.classOf j).trans (htended.classOf j)

theorem Finishes.later : Later b₂.model b₃.model := by
  refine ⟨hfinishes.size_eq htended ▸ Nat.le_succ _, fun j hj => ?_, fun j hj => ?_,
    fun j hj f => ?_, fun j p hp => ?_⟩
  · rw [hfinishes.classOf_eq htended, classOf_begin, if_neg (Nat.ne_of_lt hj)]
  · rw [hfinishes.before j hj, htended.lineOf, elementAt_begin hj]
  · rw [Model.values, hfinishes.before j hj, ← Model.values, htended.others j (Nat.ne_of_lt hj),
      Model.values, elementAt_begin hj, ← Model.values]
  · rw [Model.container, hfinishes.before j (b₂.model.lt_size_of_container hp)]
    refine htended.container j p ?_
    rw [container_begin]
    exact hp

theorem Finishes.settled (hs : s.Accepted)
    (holder : ∀ child ∈ statement.members.flatMap Member.answers, child < b₂.model.size)
    (hsorts : Sorts s c b₂.model.size (statement.members.flatMap Member.answers)
      (fun f => statement.directed s (begin s c statement b₂).model.classOf c f)
      (begin s c statement b₂) placed surplus) :
    statement.Settled s b₃.model surplus b₂.model.size := by
  have hclasses := hfinishes.classOf_eq htended
  have hclass : b₃.model.classOf b₂.model.size = c := by
    rw [hclasses, classOf_begin, if_pos rfl]
  refine ⟨hfinishes.size_eq htended ▸ Nat.lt_succ_self _, holder, ?_, fun f hf => ?_,
    fun f hf d hd => ?_⟩
  · rw [hfinishes.lineOf, htended.lineOf, model_begin, lineOf_fill, elementAt_create, if_pos rfl]
  · rw [hclass] at hf ⊢
    rw [hclasses, hfinishes.values f (mem_filter.mp hf.mem).2, hsorts.values f hf,
      containment_begin _ _ hs hf.mem, nil_append]
  · rw [hclass] at hf hd
    rw [hclasses] at hd
    refine hsorts.later f hf d ?_
    rw [containment_begin _ _ hs hf.mem, nil_append, ← map_drop]
    exact mem_map_of_mem hd

end Placed

theorem exists_furnished (hs : s.Accepted) (hkeeper : ∀ k ∈ keeper, k.Discreet s) (origin : Origin)
    (h : Offers s (some (some c)) b₁ statement.members b₂) :
    ∃ surplus, Furnished s statement b₂ (conclude s origin keeper c statement b₂) surplus := by
  have hready := h.ready hs
  obtain ⟨surplus, hsorts⟩ := exists_sorts_placeChildren hs hready
  have htended := hready.tended hsorts.takes
  have hfinishes := finishes hkeeper origin statement b₂.model.size
    (placeChildren s b₂.model.size statement.members (begin s c statement b₂)).2
  -- the surplus children are older than the element, and nothing is done to them behind the others
  have holder {p : FeatureId × ElementId} (hp : p ∈ surplus) : p.2 < b₂.model.size :=
    hready.older p.2 (hsorts.sublist.subset (mem_map_of_mem hp))
  refine ⟨surplus, hfinishes.later htended, fun j hj hnot => ?_,
    hfinishes.settled htended hs hready.older hsorts, hsorts.sublist, fun p hp => ?_, ?_⟩
  · refine (congrArg Element.container (hfinishes.before j hj)).trans ?_
    exact (hsorts.takes.container_eq hready.older hready.parent hnot).trans
      (container_begin c statement b₂ j)
  · exact (congrArg Element.container (hfinishes.before _ (holder hp))).trans (hsorts.free p hp)
  · refine hfinishes.told.trans (hsorts.told.trans (congrArg₂ (· ++ ·) ?_ ?_))
    · exact (avoids_bindArguments s _ _ _).mono (fun _ => concernsPlace_of_isSecondChild) _
    · refine map_congr_left fun p hp => Schema.surplusProblem_congr ?_
      have hline := congrArg Element.line (hfinishes.before _ (holder hp))
      exact (hline.trans (htended.lineOf p.2)).symm

/-! ### Runs -/

/-- A statement and the element that it was given. -/
def Call.built? {σ Scope α : Type} : σ × Call Scope α → Option (Statement α × α)
  | (_, .leave statement _ answer) => answer.map fun a => (statement, a)
  | _ => none

theorem Call.filterMap_built?_leave {σ Scope α : Type} (calls : List (σ × Call Scope α)) (st : σ)
    (statement : Statement α) (scope : Scope) (answer : Option α) :
    (calls ++ [(st, Call.leave statement scope answer)]).filterMap Call.built? =
      calls.filterMap Call.built? ++ (answer.map fun a => (statement, a)).toList := by
  rw [filterMap_append]
  cases answer <;> rfl

theorem Call.filterMap_built?_enter {σ Scope α : Type} (calls : List (σ × Call Scope α)) (st : σ)
    (command : Token) (enclosing : Option Scope) (scope : Scope) :
    (calls ++ [(st, Call.enter command enclosing scope)]).filterMap Call.built? =
      calls.filterMap Call.built? := by
  rw [filterMap_append]
  exact append_nil _

variable {ms ms' : List (Member ElementId)} {built built' : List (Statement ElementId × ElementId)}
  {surplus surplus' : List (FeatureId × ElementId)}

/-- A run over entries: the elements that it builds are settled, and those that it hands on are not
among the surplus ones. -/
structure Settles (s : Schema) (b : Building τ) (ms : List (Member ElementId)) (b' : Building τ)
    (built : List (Statement ElementId × ElementId)) (surplus : List (FeatureId × ElementId)) :
    Prop where
  elements : b'.elements = b.elements ++ built.map Prod.snd
  told : b'.told isSecondChild =
    b.told isSecondChild ++ surplus.map (s.surplusProblem b'.model)
  new : ∀ q ∈ built, b.model.size ≤ q.2
  settled : ∀ q ∈ built, q.1.Settled s b'.model surplus q.2
  surplus_mem : ∀ p ∈ surplus, p.2 ∈ built.map Prod.snd
  answers_mem : ∀ id ∈ ms.flatMap Member.answers, id ∈ built.map Prod.snd
  nodup : (surplus.map Prod.snd).Nodup
  free : ∀ p ∈ surplus, b'.model.container p.2 = none
  apart : ∀ p ∈ surplus, p.2 ∉ ms.flatMap Member.answers

theorem Settles.of_eq (helements : b₁.elements = b.elements)
    (htold : b₁.told isSecondChild = b.told isSecondChild) :
    Settles s b [] b₁ [] [] :=
  ⟨by rw [helements, map_nil, append_nil], by rw [htold, map_nil, append_nil],
    nofun, nofun, nofun, nofun, .nil, nofun, nofun⟩

theorem Settles.mono (h : Settles s b ms b₁ built surplus)
    (hms : ms'.flatMap Member.answers ⊆ ms.flatMap Member.answers) :
    Settles s b ms' b₁ built surplus :=
  { h with
    answers_mem := fun id hid => h.answers_mem id (hms hid)
    apart := fun p hp hid => h.apart p hp (hms hid) }

theorem Settles.mem_range (h : Settles s b ms b₁ built surplus) {id : ElementId}
    (hid : id ∈ built.map Prod.snd) : b.model.size ≤ id ∧ id < b₁.model.size := by
  obtain ⟨q, hq, rfl⟩ := mem_map.mp hid
  exact ⟨h.new q hq, (h.settled q hq).lt_size⟩

theorem Settles.map_surplusProblem (h : Settles s b ms b₁ built surplus)
    (hlater : Later b₁.model b₂.model) :
    surplus.map (s.surplusProblem b₂.model) = surplus.map (s.surplusProblem b₁.model) := by
  refine map_congr_left fun p hp => Schema.surplusProblem_congr ?_
  exact hlater.lineOf _ (h.mem_range (h.surplus_mem p hp)).2

theorem Settles.append (h : Settles s b₁ ms b₂ built surplus)
    (h' : Settles s b₂ ms' b₃ built' surplus') (hsize₁ : b₁.model.size ≤ b₂.model.size)
    (hsize : b₂.model.size ≤ b₃.model.size)
    (hbefore : ∀ j < b₂.model.size, b₃.model.elementAt j = b₂.model.elementAt j) :
    Settles s b₁ (ms ++ ms') b₃ (built ++ built') (surplus ++ surplus') := by
  have hlater : Later b₂.model b₃.model := .of_elementAt hsize hbefore
  have hlt {p : FeatureId × ElementId} (hp : p ∈ surplus) : p.2 < b₂.model.size :=
    (h.mem_range (h.surplus_mem p hp)).2
  have hle {p : FeatureId × ElementId} (hp : p ∈ surplus') : b₂.model.size ≤ p.2 :=
    (h'.mem_range (h'.surplus_mem p hp)).1
  constructor
  case elements => rw [h'.elements, h.elements, append_assoc, map_append]
  case told =>
    rw [h'.told, h.told, append_assoc, map_append, h.map_surplusProblem hlater]
  case new =>
    refine forall_mem_append.mpr ⟨h.new, fun q hq => Nat.le_trans hsize₁ (h'.new q hq)⟩
  case settled =>
    refine forall_mem_append.mpr ⟨fun q hq => ?_, fun q hq => ?_⟩
    · exact (h.settled q hq).mono hlater (subset_append_left _ _)
    · exact (h'.settled q hq).mono (.of_elementAt (Nat.le_refl _) fun _ _ => rfl)
        (subset_append_right _ _)
  case surplus_mem =>
    rw [map_append]
    exact forall_mem_append.mpr ⟨fun p hp => mem_append_left _ (h.surplus_mem p hp),
      fun p hp => mem_append_right _ (h'.surplus_mem p hp)⟩
  case answers_mem =>
    rw [flatMap_append, map_append]
    exact forall_mem_append.mpr ⟨fun id hid => mem_append_left _ (h.answers_mem id hid),
      fun id hid => mem_append_right _ (h'.answers_mem id hid)⟩
  case nodup =>
    rw [map_append]
    refine nodup_append.mpr ⟨h.nodup, h'.nodup, ?_⟩
    rw [forall_mem_map]
    intro p hp
    rw [forall_mem_map]
    exact fun p' hp' => Nat.ne_of_lt (Nat.lt_of_lt_of_le (hlt hp) (hle hp'))
  case free =>
    refine forall_mem_append.mpr ⟨fun p hp => ?_, h'.free⟩
    rw [Model.container, hbefore p.2 (hlt hp)]
    exact h.free p hp
  case apart =>
    rw [flatMap_append]
    refine forall_mem_append.mpr ⟨fun p hp hid => ?_, fun p hp hid => ?_⟩
    · rcases mem_append.mp hid with hid | hid
      · exact h.apart p hp hid
      · exact Nat.not_le_of_lt (hlt hp) (h'.mem_range (h'.answers_mem _ hid)).1
    · rcases mem_append.mp hid with hid | hid
      · exact Nat.not_le_of_lt (h.mem_range (h.answers_mem _ hid)).2 (hle hp)
      · exact h'.apart p hp hid

theorem Settles.furnished (h : Settles s b₁ statement.members b₂ built surplus)
    (hoffers : Offers s (some (some c)) b₁ statement.members b₂)
    (hfurnished : Furnished s statement b₂ b₃ surplus')
    (helements : b₃.elements = b₂.elements ++ [b₂.model.size]) :
    Settles s b₁ [.child b₂.model.size] b₃ (built ++ [(statement, b₂.model.size)])
      (surplus ++ surplus') := by
  have hlater := hfurnished.later
  have hlt {p : FeatureId × ElementId} (hp : p ∈ surplus) : p.2 < b₂.model.size :=
    (h.mem_range (h.surplus_mem p hp)).2
  have hanswer {p : FeatureId × ElementId} (hp : p ∈ surplus') :
      p.2 ∈ statement.members.flatMap Member.answers :=
    hfurnished.sublist.subset (mem_map_of_mem hp)
  constructor
  case elements => rw [helements, h.elements, append_assoc, map_append]; rfl
  case told =>
    rw [hfurnished.told, h.told, append_assoc, map_append, h.map_surplusProblem hlater]
  case new =>
    exact forall_mem_append.mpr ⟨h.new, forall_mem_singleton.mpr hoffers.size_le⟩
  case settled =>
    refine forall_mem_append.mpr ⟨fun q hq => ?_, forall_mem_singleton.mpr ?_⟩
    · exact (h.settled q hq).mono hlater (subset_append_left _ _)
    · exact hfurnished.settled.mono (.of_elementAt (Nat.le_refl _) fun _ _ => rfl)
        (subset_append_right _ _)
  case surplus_mem =>
    rw [map_append]
    exact forall_mem_append.mpr ⟨fun p hp => mem_append_left _ (h.surplus_mem p hp),
      fun p hp => mem_append_left _ (h.answers_mem _ (hanswer hp))⟩
  case answers_mem =>
    rw [map_append]
    exact fun id hid => mem_append_right _ hid
  case nodup =>
    rw [map_append]
    refine nodup_append.mpr ⟨h.nodup, hfurnished.sublist.nodup hoffers.nodup, ?_⟩
    rw [forall_mem_map]
    rintro p hp _ hid rfl
    exact h.apart p hp (hfurnished.sublist.subset hid)
  case free =>
    refine forall_mem_append.mpr ⟨fun p hp => ?_, hfurnished.free⟩
    rw [hfurnished.container p.2 (hlt hp) (h.apart p hp)]
    exact h.free p hp
  case apart =>
    refine forall_mem_append.mpr ⟨fun p hp hid => ?_, fun p hp hid => ?_⟩
    · exact Nat.ne_of_lt (hlt hp) (mem_singleton.mp hid)
    · exact Nat.ne_of_lt (hoffers.mem_answers (hanswer hp)).2 (mem_singleton.mp hid)

theorem Settles.problem (h : Settles s b ms b₁ built surplus) {fault : Fault}
    (hfault : fault.isSecondChild = false) (line : Nat) :
    Settles s b [] (problem fault line b₁).2 (built ++ []) surplus := by
  rw [append_nil]
  exact ⟨h.elements, (avoids_problem hfault line b₁).trans h.told, h.new, h.settled, h.surplus_mem,
    nofun, h.nodup, h.free, nofun⟩

theorem settles_leave (hs : s.Accepted) (hkeeper : ∀ k ∈ keeper, k.Discreet s) (origin : Origin)
    (statement : Statement ElementId) {inner : Option ClassId}
    (hoffers : Offers s (some inner) b₁ statement.members b₂)
    (h : Settles s b₁ statement.members b₂ built surplus) :
    let r := (builder s origin keeper).leave statement inner b₂
    ∃ surplus', Settles s b₁ (r.1.toList.map .child) r.2
      (built ++ (r.1.map fun a => (statement, a)).toList) surplus' := by
  rcases leave_cases s origin keeper statement inner b₂ with
    ⟨fault, hfault, heq⟩ | ⟨c, rfl, -, heq⟩ <;> rw [heq]
  · exact ⟨surplus, h.problem (isSecondChild_eq_false (concernsPlace_of_command hfault)) _⟩
  · obtain ⟨surplus', hfurnished⟩ := exists_furnished hs hkeeper origin hoffers
    have hmodest : Modest (furnish s origin keeper statement b₂.model.size) := inferInstance
    exact ⟨_, h.furnished hoffers hfurnished (hmodest.elements _)⟩

theorem settles_comment (origin : Origin) (c : Comment) (b : Building τ) :
    Settles s b [] ((builder s origin keeper).comment c b).2 [] [] := by
  cases keeper with
  | none => exact .of_eq rfl rfl
  | some k =>
    refine .of_eq (Modest.elements (x := do unless ← offer (k.comment s none c) do
      BuildM.problem .looseCommentRefused c.line) b) ?_
    exact (avoids_offer _ rfl _).mono (fun _ => concernsPlace_of_isSecondChild) _

theorem settles_builder (hs : s.Accepted) (hkeeper : ∀ k ∈ keeper, k.Discreet s) (origin : Origin)
    (enclosing : Option (Option ClassId)) (entries : List Entry) (b : Building τ)
    (calls : List (Building τ × Call (Option ClassId) ElementId)) :
    let r := visitAll (builder s origin keeper).recorded enclosing entries (b, calls)
    Offers s enclosing b r.1 r.2.1 ∧ ∃ built surplus,
      r.2.2.filterMap Call.built? = calls.filterMap Call.built? ++ built ∧
        Settles s b r.1 r.2.1 built surplus := by
  have htame : ∀ k ∈ keeper, k.Tame := fun k hk => (hkeeper k hk).tame
  refine Visitor.Keeps.visitAll (v := (builder s origin keeper).recorded)
    (P := fun enclosing st ms st' => Offers s enclosing st.1 ms st'.1 ∧ ∃ built surplus,
      st'.2.filterMap Call.built? = st.2.filterMap Call.built? ++ built ∧
        Settles s st.1 ms st'.1 built surplus)
    ⟨?_, ?_, ?_, ?_, ?_, ?_⟩ enclosing entries (b, calls)
  · exact fun _ _ => ⟨.of_run (.of_eq rfl rfl rfl) fun hb => hb, [], [], (append_nil _).symm,
      .of_eq rfl rfl⟩
  · rintro enclosing st₁ ms st₂ ms' st₃ ⟨hoffers, built, surplus, hbuilt, h⟩
      ⟨hoffers', built', surplus', hbuilt', h'⟩
    refine ⟨hoffers.append hoffers', built ++ built', surplus ++ surplus', ?_,
      h.append h' hoffers.size_le hoffers'.size_le hoffers'.before⟩
    rw [hbuilt', hbuilt, append_assoc]
  · exact fun enclosing c st => ⟨offers_comment origin htame enclosing c st.1, [], [],
      filterMap_append, settles_comment origin c st.1⟩
  · rintro enclosing st₁ ms st₂ label list ⟨hoffers, built, surplus, hbuilt, h⟩
    refine ⟨hoffers.role label list, built, surplus, hbuilt, h.mono ?_⟩
    rw [flatMap_singleton]
    exact (filterMap_child?_sublist ms).subset
  · rintro enclosing command st₁ ms st₂ ⟨hoffers, built, surplus, hbuilt, h⟩
    refine ⟨.of_run hoffers.toRun.abandon hoffers.calm, built, surplus, ?_, h.mono nofun⟩
    rw [hbuilt]
    exact congrArg (· ++ built) (filterMap_built?_enter _ _ _ _ _)
  · rintro enclosing command st₁ ms st₂ arguments comments note ⟨hoffers, built, surplus, hbuilt, h⟩
    obtain ⟨surplus', h'⟩ := settles_leave hs hkeeper origin
      ⟨command, arguments, ms, comments, note, enclosing.isNone⟩ hoffers h
    refine ⟨offers_leave hs origin htame hoffers rfl rfl, _, surplus', ?_, h'⟩
    rw [← append_assoc]
    refine (filterMap_built?_leave _ _ _ _ _).trans (congrArg (· ++ _) ?_)
    rw [hbuilt]
    exact congrArg (· ++ built) (filterMap_built?_enter _ _ _ _ _)

/-! ### Lines -/

section Lines

variable {σ Scope α : Type} (v : Visitor σ Scope α) {lines : List Nat}

mutual

theorem lines_visit (enclosing : Option Scope) (entry : Entry) (hentry : entry.Within lines)
    (st : σ)
    (calls : List (σ × Call Scope α)) :
    ∃ built, (entry.visit v.recorded enclosing (st, calls)).2.2.filterMap Call.built? =
        calls.filterMap Call.built? ++ built ∧
      (built.map fun q => q.1.command.line).Subperm entry.lines ∧
      ∀ q ∈ built, ∀ c ∈ q.1.comments, c.Within lines := by
  cases hentry with
  | comment => exact ⟨[], filterMap_append, nil_subperm, forall_mem_nil _⟩
  | role _ _ hitems => exact lines_visitAll enclosing _ hitems st calls
  | @statement command arguments body closing _ _ hbody hclosing =>
    let scope := (v.enter command enclosing st).1
    let r := visitAll v.recorded (some scope) body
      ((v.enter command enclosing st).2, calls ++ [(st, .enter command enclosing scope)])
    obtain ⟨built, hbuilt, hlines, hcomments⟩ := lines_visitAll (some scope) body hbody
      (v.enter command enclosing st).2 (calls ++ [(st, .enter command enclosing scope)])
    rw [filterMap_built?_enter] at hbuilt
    cases closing with
    | none => exact ⟨built, hbuilt, hlines.trans (sublist_cons_self _ _).subperm, hcomments⟩
    | some closing =>
      let statement : Statement α :=
        ⟨command, arguments, r.1, closing.comments, closing.note, enclosing.isNone⟩
      let answer := (v.leave statement scope r.2.1).1
      refine ⟨built ++ (answer.map fun a => (statement, a)).toList,
        (filterMap_built?_leave r.2.2 r.2.1 statement scope answer).trans ?_, ?_,
        forall_mem_append.mpr ⟨hcomments, fun q hq => ?_⟩⟩
      · rw [hbuilt, append_assoc]
      · -- the line of the command comes behind those of the block
        rw [map_append, Entry.lines]
        refine (hlines.append ?_).trans (perm_append_singleton _ _).subperm
        cases answer with
        | none => exact nil_subperm
        | some a => exact .refl _
      · obtain ⟨a, -, rfl⟩ := Option.map_eq_some_iff.mp (Option.mem_toList.mp hq)
        exact hclosing closing rfl

theorem lines_visitAll (enclosing : Option Scope) (entries : List Entry)
    (hentries : ∀ e ∈ entries, e.Within lines) (st : σ) (calls : List (σ × Call Scope α)) :
    ∃ built, (visitAll v.recorded enclosing entries (st, calls)).2.2.filterMap Call.built? =
        calls.filterMap Call.built? ++ built ∧
      (built.map fun q => q.1.command.line).Subperm (linesAll entries) ∧
      ∀ q ∈ built, ∀ c ∈ q.1.comments, c.Within lines := by
  cases entries with
  | nil => exact ⟨[], (append_nil _).symm, .refl _, forall_mem_nil _⟩
  | cons entry entries =>
    obtain ⟨hentry, hentries⟩ := forall_mem_cons.mp hentries
    obtain ⟨built, hbuilt, hlines, hcomments⟩ := lines_visit enclosing entry hentry st calls
    obtain ⟨built', hbuilt', hlines', hcomments'⟩ := lines_visitAll enclosing entries hentries
      (entry.visit v.recorded enclosing (st, calls)).2.1
      (entry.visit v.recorded enclosing (st, calls)).2.2
    refine ⟨built ++ built', ?_, ?_, forall_mem_append.mpr ⟨hcomments, hcomments'⟩⟩
    · rw [visitAll_cons, ← append_assoc, ← hbuilt]
      exact hbuilt'
    · rw [map_append, linesAll]
      exact hlines.append hlines'

end

end Lines

/-! ### Whole texts -/

theorem Settles.eq_of_line_eq (h : Settles s b ms b₁ built surplus)
    (hlines : (built.map fun q => q.1.command.line).Nodup) {d d' : ElementId}
    (hd : d ∈ built.map Prod.snd) (hd' : d' ∈ built.map Prod.snd)
    (hline : childLine b₁.model d = childLine b₁.model d') : d = d' := by
  obtain ⟨q, hq, rfl⟩ := mem_map.mp hd
  obtain ⟨q', hq', rfl⟩ := mem_map.mp hd'
  rw [childLine, childLine, (h.settled q hq).line, (h.settled q' hq').line, Option.getD_some,
    Option.getD_some] at hline
  rw [inj_on_of_nodup_map hlines hq hq' hline]

theorem Settles.told_on_line (h : Settles s b ms b₁ built surplus)
    (hb : b.told isSecondChild = [])
    (hlines : (built.map fun q => q.1.command.line).Nodup) {p : FeatureId × ElementId}
    (hp : p ∈ surplus) :
    (b₁.told isSecondChild).filter (fun q => q.line == childLine b₁.model p.2) =
      [s.surplusProblem b₁.model p] := by
  have honly : ∀ q ∈ surplus, (childLine b₁.model q.2 == childLine b₁.model p.2) = (q == p) := by
    intro q hq
    rw [Bool.eq_iff_iff, beq_iff_eq, beq_iff_eq]
    refine ⟨fun hline => inj_on_of_nodup_map h.nodup hq hp ?_, fun e => e ▸ rfl⟩
    exact h.eq_of_line_eq hlines (h.surplus_mem q hq) (h.surplus_mem p hp) hline
  have hcount : surplus.count p = 1 := count_eq_one_of_mem (.of_map _ h.nodup) hp
  calc (b₁.told isSecondChild).filter (fun q => q.line == childLine b₁.model p.2)
      = (surplus.filter fun q => childLine b₁.model q.2 == childLine b₁.model p.2).map
          (s.surplusProblem b₁.model) := by
        rw [h.told, hb, nil_append, filter_map]
        rfl
    _ = (surplus.filter (· == p)).map (s.surplusProblem b₁.model) := by
        rw [filter_congr honly]
    _ = [s.surplusProblem b₁.model p] := by
        rw [filter_beq, hcount]
        rfl

theorem filter_sortProblems {keep : Problem → Bool} {problems : List Problem} {p : Problem}
    (h : problems.filter keep = [p]) : (sortProblems problems).filter keep = [p] := by
  have hperm := (mergeSort_perm problems fun p q => p.line ≤ q.line).filter keep
  rw [h] at hperm
  exact perm_singleton.mp hperm

/-- Of the children directed to a containment, an element holds the first. Each later one is without
a container, and exactly one problem on its line says that it is not the only one. -/
def Instantiation.KeepsFirst (s : Schema) (r : Instantiation τ) (statement : Statement ElementId)
    (id : ElementId) (f : FeatureId) : Prop :=
  let children := statement.directed s r.model.classOf (r.model.classOf id) f
  r.model.values id f = (children.take 1).map Value.element ∧
    ∀ d ∈ children.drop 1, r.model.container d = none ∧ ∃ line,
      (r.model.elementAt d).line = some line ∧
      (r.problems.filter fun p => p.line == line &&
        p.fault.opensWith "Only one child allowed in role '").map Problem.message =
          ["Only one child allowed in role '" ++ (s.featureAt f).name ++ "'"]

theorem Settles.filter_problems (h : Settles s b ms b₁ built surplus)
    (hb : b.told isSecondChild = [])
    (hlines : (built.map fun q => q.1.command.line).Nodup) {p : FeatureId × ElementId}
    (hp : p ∈ surplus) {read : List Problem} (hread : ∀ q ∈ read, q.fault.concernsPlace = false) :
    (b₁.problems ++ read).filter (fun q => q.line == childLine b₁.model p.2 &&
      q.fault.opensWith "Only one child allowed in role '") = [s.surplusProblem b₁.model p] := by
  simp only [opensWith_onlyOneChild]
  have hnone : read.filter (fun q => q.line == childLine b₁.model p.2 && q.fault.isSecondChild) =
      [] := by
    refine filter_eq_nil_iff.mpr fun q hq => ?_
    rw [isSecondChild_eq_false (hread q hq), Bool.and_false]
    exact Bool.false_ne_true
  rw [filter_append, hnone, append_nil, ← filter_filter]
  exact h.told_on_line hb hlines hp

theorem Settles.keepsFirst (h : Settles s b ms b₁ built surplus)
    (hb : b.told isSecondChild = [])
    (hlines : (built.map fun q => q.1.command.line).Nodup) {r : Instantiation τ}
    (hmodel : r.model = b₁.model) {read : List Problem} {file : Option String}
    (hread : ∀ q ∈ read, q.fault.concernsPlace = false)
    (hproblems : r.problems = (sortProblems (b₁.problems ++ read)).map fun p =>
      { p with file := file })
    {q : Statement ElementId × ElementId} (hq : q ∈ built) {f : FeatureId}
    (hf : s.IsSingle (b₁.model.classOf q.2) f) : r.KeepsFirst s q.1 q.2 f := by
  have hsettled := h.settled q hq
  rw [Instantiation.KeepsFirst, hmodel]
  refine ⟨(hsettled.values f hf).trans map_take.symm, fun d hd => ?_⟩
  have hsurplus := hsettled.later f hf d hd
  obtain ⟨q', hq', rfl⟩ := mem_map.mp (h.surplus_mem _ hsurplus)
  have hline := (h.settled q' hq').line
  refine ⟨h.free _ hsurplus, _, hline, ?_⟩
  have hfilter := filter_sortProblems (h.filter_problems hb hlines hsurplus hread)
  rw [childLine, hline, Option.getD_some] at hfilter
  rw [hproblems, filter_map]
  exact congrArg (fun problems => (problems.map fun p : Problem =>
    { p with file := file }).map Problem.message) hfilter

/-- Cases with a lid. -/
def lidded : SchemaDefinition where
  classes := [{ name := "Case", features := [
    { name := "lid", sort := .containment, target := some "Lid" }] }, { name := "Lid" }]

/-- A case with four lids, put there in every way. -/
def liddedText : List Char :=
  "Case \x7b\n  lid:\n    Lid\n  Lid\n  lid: [\n    Lid\n    Lid\n  ]\n\x7d\n".toList

/-- Whatever a text says, each element that is built keeps the first child in its single
containments. -/
theorem first_child_kept {s : Schema} (hs : s.Accepted) (origin : Origin)
    (k : Option AttributeKeeper) (m : Model) (text : List Char) :
    let r := instantiateWith s origin (k.map AttributeKeeper.keeper) () m text
    let built := (visitAll (builder s origin (k.map AttributeKeeper.keeper)).recorded none
      (parse (tokenize s.pattern text)).entries ({ model := m, keeper := () }, [])).2.2.filterMap
        Call.built?
    r.elements = built.map Prod.snd ∧
      ∀ statement id, (statement, id) ∈ built →
        (r.model.elementAt id).line = some statement.command.line ∧
        ∀ f ∈ s.containments (r.model.classOf id), (s.featureAt f).many = false →
          r.KeepsFirst s statement id f := by
  intro r built
  have hkeeper : ∀ c ∈ k.map AttributeKeeper.keeper, c.Discreet s := by
    intro c hc
    obtain ⟨a, -, rfl⟩ := Option.map_eq_some_iff.mp hc
    exact a.discreet s
  let v := builder s origin (k.map AttributeKeeper.keeper)
  let entries := (parse (tokenize s.pattern text)).entries
  obtain ⟨-, made, surplus, hmade, hsettles⟩ := settles_builder hs hkeeper origin none entries
    { model := m, keeper := () } []
  obtain ⟨made', hmade', hsub, -⟩ := lines_visitAll v none entries (within_parse _).1
    { model := m, keeper := () } []
  obtain ⟨-, hstate⟩ := visitAll_recorded v none entries { model := m, keeper := () } []
  obtain rfl : built = made := hmade
  obtain rfl : built = made' := hmade'
  -- no two commands begin on one line
  have hlines : (built.map fun q => q.1.command.line).Nodup := by
    obtain ⟨lines, hperm, hsublist⟩ := hsub
    have hnodup : (linesAll entries).Nodup :=
      (sorted_linesAll_parse s.pattern text).imp Nat.ne_of_lt
    exact hperm.nodup_iff.mp (hnodup.sublist hsublist)
  rw [hstate] at hsettles
  refine ⟨hsettles.elements, fun statement id hid => ⟨(hsettles.settled _ hid).line, ?_⟩⟩
  intro f hf hsingle
  exact hsettles.keepsFirst rfl hlines rfl (concernsPlace_parse _) rfl hid ⟨hf, hsingle⟩

theorem first_child_kept_lidded : ∃ s, lidded.build = .ok s ∧
    let r := instantiateWith s {} none () {} liddedText
    r.model.values 4 0 = [.element 0] ∧
      ∃ statement : Statement ElementId,
        statement.directed s r.model.classOf (r.model.classOf 4) 0 = [0, 1, 2, 3] ∧
          r.KeepsFirst s statement 4 0 := by
  obtain ⟨s, hs, hvalues, hmem, hmany, q, hq, hid, hdirected⟩ : ∃ s, lidded.build = .ok s ∧
      let r := instantiateWith s {} none () {} liddedText
      r.model.values 4 0 = [.element 0] ∧
      0 ∈ s.containments (r.model.classOf 4) ∧ (s.featureAt 0).many = false ∧
      ∃ q ∈ (visitAll (builder s {} none).recorded none
        (parse (tokenize s.pattern liddedText)).entries ({ model := {}, keeper := () }, [])
          ).2.2.filterMap Call.built?,
        q.2 = 4 ∧ q.1.directed s r.model.classOf (r.model.classOf 4) 0 = [0, 1, 2, 3] :=
    ⟨_, rfl, by decide +kernel, by decide +kernel, by decide +kernel, by decide +kernel⟩
  obtain ⟨-, hkept⟩ := first_child_kept ⟨lidded, hs⟩ {} none {} liddedText
  rw [Option.map_none] at hkept
  obtain ⟨statement, id⟩ := q
  obtain rfl : id = 4 := hid
  exact ⟨s, hs, hvalues, statement, hdirected, (hkept statement 4 hq).2 0 hmem hmany⟩

end CommandText
