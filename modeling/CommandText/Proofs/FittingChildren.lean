import CommandText.Proofs.BracketedCalls
import CommandText.Proofs.CommandTables
import CommandText.Proofs.InstantiatedModel
import CommandText.Proofs.NewElements
import CommandText.Proofs.ToldFaults

/-!
# Children that fit

A command word inside a statement is looked up among those of the classes that the containments of
the statement's class take. So the element that it creates can be contained there, and nothing
contains it before the enclosing statement is complete. The problems that a child cannot be
contained at all, or is contained elsewhere, are never told.
-/

namespace CommandText

open List Model Fault Entry

variable {statement : Statement ElementId} {fault : Fault} {s : Schema}

namespace Schema

theorem Accepted.accepting_ne_nil (h : s.Accepted) {word : String} {c d : ClassId}
    (hd : s.classForCommand? word (some c) = some d) : s.containmentsAccepting c d ≠ [] := by
  obtain ⟨hd, -⟩ := h.classForCommand?_eq_some_iff.mp hd
  obtain ⟨f, hf, target, htarget, hsub⟩ := mem_childClasses_iff.mp hd
  refine ne_nil_of_mem (a := f) (mem_filter.mpr ⟨hf, ?_⟩)
  rw [Option.mem_def.mp htarget, Option.any_some]
  exact (mem_filter.mp hsub).2

end Schema

/-! ### Faults of placing -/

/-- Whether a child is said to stand where it cannot be contained. -/
def Fault.isMisplaced : Fault → Bool
  | notContained _ | containedElsewhere => true
  | _ => false

theorem Fault.message_ne (h : fault.isMisplaced = false) :
    fault.message ≠ "Element is already contained elsewhere" ∧
      ∀ word, fault.message ≠ "Command '" ++ word ++ "' can not be contained here" := by
  have first {a b : String} (h : a.toList.head? ≠ b.toList.head?) : a ≠ b := fun e => h (e ▸ rfl)
  have last {a b x y : String} (h : x.toList.getLast?.or a.toList.getLast? ≠
      y.toList.getLast?.or b.toList.getLast?) : a ++ x ≠ b ++ y := by
    intro e
    rw [← getLast?_append, ← getLast?_append, ← String.toList_append, e,
      ← String.toList_append] at h
    exact h rfl
  unfold message
  cases fault with
  | notContained | containedElsewhere => cases h
  | notOnRootLevel | notInContext | abstractClass =>
    exact ⟨first (by simp), fun _ => last (by simp)⟩
  | commentRefused => exact ⟨by decide, fun _ => first (by simp)⟩
  | _ => exact ⟨first (by simp), fun _ => first (by simp)⟩

theorem Fault.isMisplaced_eq_false (h : fault.concernsPlace = false) :
    fault.isMisplaced = false := by
  cases fault with
  | notContained | containedElsewhere => cases h
  | _ => rfl

/-- No child has been said to be misplaced. -/
def Building.Calm {τ : Type} (b : Building τ) : Prop :=
  ∀ p ∈ b.problems, p.fault.isMisplaced = false

namespace BuildM

variable {τ α : Type} {x : BuildM τ α}

/-- No child is said to be misplaced. -/
def Calm (x : BuildM τ α) : Prop := ∀ b, b.Calm → (x b).2.Calm

theorem calm_problem (h : fault.isMisplaced = false) (line : Nat) :
    Calm (problem fault line : BuildM τ Unit) := by
  intro b hb p hp
  rcases mem_append.mp hp with hp | hp
  · exact hb p hp
  · rw [mem_singleton.mp hp]
    exact h

theorem Avoids.calm (h : Avoids concernsPlace x) : Calm x := by
  intro b hb p hp
  by_cases hplace : p.fault.concernsPlace = true
  · have hmem : p ∈ (x b).2.told concernsPlace := mem_filter.mpr ⟨hp, hplace⟩
    rw [h b] at hmem
    exact hb p (mem_filter.mp hmem).1
  · exact isMisplaced_eq_false (by simpa using hplace)

end BuildM

/-! ### Children that wait to be placed -/

theorem Model.TakesAll.container_eq {s : Schema} {id : ElementId} {children : ElementId → Prop}
    {m m' : Model} (h : TakesAll s id children m m') (hchildren : ∀ c, children c → c < id)
    (hid : id < m.size) {j : ElementId} (hj : ¬ children j) : m'.container j = m.container j := by
  induction h with
  | refl => rfl
  | tail h hstep ih =>
    obtain ⟨f, child, hchild, -, -, -, hattach⟩ := hstep
    have hid' := (Tended.of_takesAll h hchildren hid).size.symm ▸ hid
    have hattached :=
      attached_of_attach? _ hattach hid' (Nat.lt_trans (hchildren child hchild) hid')
    rw [hattached.container, if_neg, ih]
    rintro rfl
    exact hj hchild

namespace BuildM

variable {τ α : Type} {c : ClassId} {id child : ElementId} {f : FeatureId}
variable {pending : List ElementId} {b : Building τ}

/-- A child can be contained in an element, and is not contained in any yet. -/
structure Fits (s : Schema) (id child : ElementId) (b : Building τ) : Prop where
  accepted : s.containmentsAccepting (b.model.classOf id) (b.model.classOf child) ≠ []
  free : b.model.container child = none

/-- Each of some steps finds something in the state in which its turn comes. -/
def EachFinds (P : α → Building τ → Prop) (f : α → BuildM τ Unit) : List α → Building τ → Prop
  | [], _ => True
  | a :: as, b => P a b ∧ EachFinds P f as (f a b).2

/-- Every child that a member places fits when it is placed. -/
def MemberFits (s : Schema) (id : ElementId) : Member ElementId → Building τ → Prop
  | .child child, b => Fits s id child b
  | .role label children _, b => ∀ f, s.featureNamed? (b.model.classOf id) label.text = some f →
      (s.featureAt f).isContainment = true → EachFinds (Fits s id) (attachInRole s id f) children b

/-- Children that wait to be placed in an element. -/
structure Awaits (s : Schema) (c : ClassId) (id : ElementId) (pending : List ElementId)
    (b : Building τ) : Prop where
  parent : id < b.model.size
  classOf : b.model.classOf id = c
  nodup : pending.Nodup
  older : ∀ child ∈ pending, child < id
  fits : ∀ child ∈ pending, Fits s id child b

theorem Awaits.of_takesAll {placed : List ElementId} (h : Awaits s c id (placed ++ pending) b)
    {b' : Building τ} (htakes : TakesAll s id (· ∈ placed) b.model b'.model) :
    Awaits s c id pending b' := by
  have hplaced : ∀ child, child ∈ placed → child < id :=
    fun child hchild => h.older child (mem_append_left _ hchild)
  have hdisjoint := (nodup_append.mp h.nodup).2.2
  refine ⟨?_, (htakes.classOf id).trans h.classOf, (nodup_append.mp h.nodup).2.1,
    fun child hchild => h.older child (mem_append_right _ hchild), fun child hchild => ?_⟩
  · rw [(Model.Tended.of_takesAll htakes hplaced h.parent).size]
    exact h.parent
  · obtain ⟨haccepted, hfree⟩ := h.fits child (mem_append_right _ hchild)
    refine ⟨?_, ?_⟩
    · rw [htakes.classOf, htakes.classOf]
      exact haccepted
    · rw [htakes.container_eq hplaced h.parent fun hmem =>
        hdisjoint child hmem child hchild rfl]
      exact hfree

theorem Awaits.of_append {placed : List ElementId} (h : Awaits s c id (placed ++ pending) b) :
    Awaits s c id placed b :=
  ⟨h.parent, h.classOf, (nodup_append.mp h.nodup).1,
    fun child hchild => h.older child (mem_append_left _ hchild),
    fun child hchild => h.fits child (mem_append_left _ hchild)⟩

theorem calm_attachInRole (h : Fits s id child b) (hlt : child < id) (hb : b.Calm) :
    (attachInRole s id f child b).2.Calm := by
  rw [attachInRole, getModel_bind_apply,
    b.model.attach?_eq_some_iff.mpr ⟨h.free, Nat.ne_of_gt hlt, rfl⟩]
  cases (s.featureAt f).target? with
  | none => exact hb
  | some target =>
    dsimp only
    split
    · exact calm_problem rfl _ b hb
    · split
      · exact calm_problem rfl _ b hb
      · exact hb

theorem calm_attachUnlabeled (h : Fits s id child b) (hlt : child < id) (hb : b.Calm) :
    (attachUnlabeled s id child b).2.Calm := by
  rw [attachUnlabeled, getModel_bind_apply]
  rcases hf : s.containmentsAccepting (b.model.classOf id) (b.model.classOf child) with
    _ | ⟨f, _ | ⟨g, fs⟩⟩
  · exact absurd hf h.accepted
  · dsimp only
    split
    · exact calm_problem rfl _ b hb
    · exact calm_attachInRole h hlt hb
  · exact calm_problem rfl _ b hb

theorem eachFinds_forM {P : α → Building τ → Prop} {f : α → BuildM τ Unit}
    {answers : α → List ElementId} (hstep : ∀ a b, Awaits s c id (answers a) b →
      P a b ∧ (b.Calm → (f a b).2.Calm) ∧
      TakesAll s id (· ∈ answers a) b.model (f a b).2.model)
    {as : List α} (h : Awaits s c id (as.flatMap answers) b) :
    EachFinds P f as b ∧ (b.Calm → (as.forM f b).2.Calm) := by
  induction as generalizing b with
  | nil => exact ⟨trivial, fun hb => hb⟩
  | cons a as ih =>
    rw [flatMap_cons] at h
    obtain ⟨hfinds, hcalm, htakes⟩ := hstep a b h.of_append
    obtain ⟨hfinds', hcalm'⟩ := ih (h.of_takesAll htakes)
    exact ⟨⟨hfinds, hfinds'⟩, fun hb => hcalm' (hcalm hb)⟩

theorem memberFits_placeMember {member : Member ElementId} (h : Awaits s c id member.answers b) :
    MemberFits s id member b ∧ (b.Calm → (placeMember s id member b).2.Calm) := by
  cases member with
  | child child =>
    have hmem := mem_singleton_self child
    exact ⟨h.fits child hmem, calm_attachUnlabeled (h.fits child hmem) (h.older child hmem)⟩
  | role label children list =>
    have mem_containments {f : FeatureId} (hf : s.featureNamed? c label.text = some f)
        (hkind : (s.featureAt f).isContainment = true) : f ∈ s.containments c :=
      mem_filter.mpr ⟨mem_of_find?_eq_some hf, hkind⟩
    -- children of a role go into one feature, one after the other
    have hrole {f : FeatureId} (hf : f ∈ s.containments c) :
        EachFinds (Fits s id) (attachInRole s id f) children b ∧
          (b.Calm → (children.forM (attachInRole s id f) b).2.Calm) := by
      have hwaits : Awaits s c id (children.flatMap fun child => [child]) b := by
        rw [flatMap_singleton']
        exact h
      refine eachFinds_forM (fun child b h => ?_) hwaits
      have hmem := mem_singleton_self child
      refine ⟨h.fits child hmem, calm_attachInRole (h.fits child hmem) (h.older child hmem), ?_⟩
      exact takes_attachInRole (h.classOf.symm ▸ hf) hmem
    refine ⟨fun f hf hkind => ?_, fun hb => ?_⟩
    · rw [h.classOf] at hf
      exact (hrole (mem_containments hf hkind)).1
    · rw [placeMember, getModel_bind_apply, h.classOf]
      cases hf : s.featureNamed? c label.text with
      | none => exact calm_problem rfl _ b hb
      | some f =>
        dsimp only
        split
        · next hkind => exact (hrole (mem_containments hf hkind)).2 hb
        · exact calm_problem rfl _ b hb

theorem fits_placeChildren {members : List (Member ElementId)}
    (h : Awaits s c id (members.flatMap Member.answers) b) :
    EachFinds (MemberFits s id) (placeMember s id) members b ∧
      (b.Calm → (placeChildren s id members b).2.Calm) := by
  refine eachFinds_forM (fun member b h => ?_) h
  obtain ⟨hfits, hcalm⟩ := memberFits_placeMember h
  exact ⟨hfits, hcalm, takes_placeMember fun _ h => h⟩

end BuildM

/-! ### Runs -/

open Building BuildM

variable {τ : Type} {enclosing : Option (Option ClassId)} {b b₁ b₂ b₃ : Building τ}
variable {ms ms' : List (Member ElementId)} {keeper : Option (CommentKeeper τ)}

/-- A run over entries that hands on elements which fit the class around them and are not contained
in anything. -/
structure Offers (s : Schema) (enclosing : Option (Option ClassId)) (b : Building τ)
    (ms : List (Member ElementId)) (b' : Building τ) : Prop extends Run s enclosing b ms b' where
  nodup : (ms.flatMap Member.answers).Nodup
  free : ∀ id ∈ ms.flatMap Member.answers, b'.model.container id = none
  fits : ∀ id ∈ ms.flatMap Member.answers, ∀ c ∈ enclosing.join,
    s.containmentsAccepting c (b'.model.classOf id) ≠ []
  calm : b.Calm → b'.Calm

theorem Offers.of_run (h : Run s enclosing b [] b₁) (hcalm : b.Calm → b₁.Calm) :
    Offers s enclosing b [] b₁ :=
  ⟨h, .nil, nofun, nofun, hcalm⟩

theorem Building.Run.mem_answers (h : Run s enclosing b ms b₁) {id : ElementId}
    (hid : id ∈ ms.flatMap Member.answers) : b.model.size ≤ id ∧ id < b₁.model.size := by
  obtain ⟨member, hmember, hid⟩ := mem_flatMap.mp hid
  exact h.answers member hmember id hid

theorem Offers.append (h : Offers s enclosing b₁ ms b₂) (h' : Offers s enclosing b₂ ms' b₃) :
    Offers s enclosing b₁ (ms ++ ms') b₃ := by
  -- what has been handed on is left alone by the second run
  have hbefore {id : ElementId} (hid : id ∈ ms.flatMap Member.answers) :
      b₃.model.elementAt id = b₂.model.elementAt id := h'.before id (h.mem_answers hid).2
  refine ⟨h.toRun.append h'.toRun, ?_, fun id hid => ?_, fun id hid c hc => ?_,
    fun hb => h'.calm (h.calm hb)⟩
  · rw [flatMap_append]
    refine nodup_append.mpr ⟨h.nodup, h'.nodup, fun i hi j hj => ?_⟩
    exact Nat.ne_of_lt (Nat.lt_of_lt_of_le (h.mem_answers hi).2 (h'.mem_answers hj).1)
  · rw [flatMap_append] at hid
    rcases mem_append.mp hid with hid | hid
    · rw [container, hbefore hid]
      exact h.free id hid
    · exact h'.free id hid
  · rw [flatMap_append] at hid
    rcases mem_append.mp hid with hid | hid
    · rw [Model.classOf, hbefore hid]
      exact h.fits id hid c hc
    · exact h'.fits id hid c hc

theorem filterMap_child?_sublist (ms : List (Member ElementId)) :
    (ms.filterMap Member.child?).Sublist (ms.flatMap Member.answers) := by
  induction ms with
  | nil => exact .slnil
  | cons member ms ih =>
    rw [flatMap_cons]
    cases member with
    | child a => exact ih.cons_cons a
    | role label children list => exact ih.trans (sublist_append_right _ _)

theorem Offers.role (h : Offers s enclosing b ms b₁) (label : Token) (list : Bool) :
    Offers s enclosing b [.role label (ms.filterMap Member.child?) list] b₁ := by
  have hsublist : ([Member.role label (ms.filterMap Member.child?) list].flatMap
      Member.answers).Sublist (ms.flatMap Member.answers) := by
    rw [flatMap_singleton]
    exact filterMap_child?_sublist ms
  exact ⟨h.toRun.role label list, hsublist.nodup h.nodup,
    fun id hid => h.free id (hsublist.subset hid), fun id hid => h.fits id (hsublist.subset hid),
    h.calm⟩

/-- Where a statement is complete and gets an element, every child fits when it is placed. -/
def CallFits (s : Schema) : Building τ × Call (Option ClassId) ElementId → Prop
  | (b, .leave statement (some c) _) => (s.classAt c).isAbstract = false →
      EachFinds (MemberFits s b.model.size) (placeMember s b.model.size) statement.members
        (begin s c statement b)
  | _ => True

theorem Offers.awaits {c : ClassId} (h : Offers s (some (some c)) b₁ statement.members b₂) :
    Awaits s c b₂.model.size (statement.members.flatMap Member.answers)
      (begin s c statement b₂) where
  parent := size_begin c statement b₂ ▸ Nat.lt_succ_self _
  classOf := by rw [classOf_begin, if_pos rfl]
  nodup := h.nodup
  older id hid := (h.mem_answers hid).2
  fits id hid := by
    have hne : id ≠ b₂.model.size := Nat.ne_of_lt (h.mem_answers hid).2
    refine ⟨?_, ?_⟩
    · rw [classOf_begin, if_pos rfl, classOf_begin, if_neg hne]
      exact h.fits id hid c rfl
    · rw [container_begin]
      exact h.free id hid

theorem calm_furnish {c : ClassId} (origin : Origin) (keeper : Option (CommentKeeper τ))
    (h : Offers s (some (some c)) b₁ statement.members b₂) (hb : b₂.Calm) :
    (conclude s origin keeper c statement b₂).Calm := by
  have hbegin : (begin s c statement b₂).Calm := (avoids_bindArguments s _ _ _).calm _ hb
  have hplaced := (fits_placeChildren h.awaits).2 hbegin
  have hlocation :=
    (avoids_setLocation s b₂.model.size origin statement.command.line).calm _ hplaced
  exact (avoids_offerComments s _ keeper _ _ _).calm _ hlocation

theorem offers_leave (hs : s.Accepted) (origin : Origin) (hkeeper : ∀ k ∈ keeper, k.Tame)
    {inner : Option ClassId} (h : Offers s (some inner) b₁ statement.members b₂)
    (hinner : s.classForCommand? statement.command.text enclosing.join = inner)
    (hroot : statement.isRoot = enclosing.isNone) :
    Offers s enclosing b₁
      (((builder s origin keeper).leave statement inner b₂).1.toList.map .child)
      ((builder s origin keeper).leave statement inner b₂).2 := by
  have hrun := run_leave hs origin hkeeper h.toRun hroot
  rcases leave_cases s origin keeper statement inner b₂ with
    ⟨fault, hfault, heq⟩ | ⟨c, rfl, -, heq⟩ <;> rw [heq] at hrun ⊢
  · refine .of_run hrun fun hb => ?_
    exact (avoids_problem (concernsPlace_of_command hfault) _).calm _ (h.calm hb)
  · have hwork := work_create hs origin hkeeper h.toRun c
    refine ⟨hrun, pairwise_singleton _ _, fun id hid => ?_, fun id hid c' hc' => ?_, fun hb => ?_⟩
    · obtain rfl := mem_singleton.mp hid
      rw [hwork.container, container_create, container_eq_none _ (Nat.le_refl _)]
    · obtain rfl := mem_singleton.mp hid
      rw [hwork.classOf, classOf_create, if_pos rfl]
      rw [Option.mem_def.mp hc'] at hinner
      exact hs.accepting_ne_nil hinner
    · exact calm_furnish origin keeper h (h.calm hb)

theorem callFits_leave {inner : Option ClassId} (h : Offers s (some inner) b₁ statement.members b₂)
    (answer : Option ElementId) : CallFits s (b₂, .leave statement inner answer) := by
  cases inner with
  | none => trivial
  | some c => exact fun _ => (fits_placeChildren h.awaits).1

theorem offers_comment (origin : Origin) (hkeeper : ∀ k ∈ keeper, k.Tame)
    (enclosing : Option (Option ClassId)) (c : Comment) (b : Building τ) :
    Offers s enclosing b [] ((builder s origin keeper).comment c b).2 := by
  refine .of_run (run_comment origin hkeeper enclosing c b) fun hb => ?_
  cases keeper with
  | none => exact hb
  | some k => exact (avoids_offer _ rfl _).calm _ hb

theorem offers_builder (hs : s.Accepted) (origin : Origin) (hkeeper : ∀ k ∈ keeper, k.Tame)
    (enclosing : Option (Option ClassId)) (entries : List Entry) (b : Building τ)
    (calls : List (Building τ × Call (Option ClassId) ElementId)) :
    let r := visitAll (builder s origin keeper).recorded enclosing entries (b, calls)
    Offers s enclosing b r.1 r.2.1 ∧
      ((∀ call ∈ calls, CallFits s call) → ∀ call ∈ r.2.2, CallFits s call) := by
  have hsnoc {calls : List (Building τ × Call (Option ClassId) ElementId)}
      (b : Building τ) (call : Call (Option ClassId) ElementId) (hcall : CallFits s (b, call))
      (h : ∀ call ∈ calls, CallFits s call) : ∀ x ∈ calls ++ [(b, call)], CallFits s x :=
    forall_mem_append.mpr ⟨h, forall_mem_singleton.mpr hcall⟩
  refine Visitor.Keeps.visitAll (v := (builder s origin keeper).recorded)
    (P := fun enclosing st ms st' => Offers s enclosing st.1 ms st'.1 ∧
      ((∀ call ∈ st.2, CallFits s call) → ∀ call ∈ st'.2, CallFits s call))
    ⟨?_, ?_, ?_, ?_, ?_, ?_⟩ enclosing entries (b, calls)
  · exact fun _ _ => ⟨.of_run (.of_eq rfl rfl rfl) fun hb => hb, fun h => h⟩
  · exact fun ⟨h, hcalls⟩ ⟨h', hcalls'⟩ => ⟨h.append h', fun hfits => hcalls' (hcalls hfits)⟩
  · exact fun enclosing c st => ⟨offers_comment origin hkeeper enclosing c st.1,
      hsnoc st.1 (.comment c) trivial⟩
  · exact fun label list ⟨h, hcalls⟩ => ⟨h.role label list, hcalls⟩
  · intro enclosing command st₁ ms st₂ ⟨h, hcalls⟩
    exact ⟨.of_run h.toRun.abandon h.calm,
      fun hfits => hcalls (hsnoc st₁.1 (.enter command enclosing _) trivial hfits)⟩
  · intro enclosing command st₁ ms st₂ arguments comments note ⟨h, hcalls⟩
    refine ⟨offers_leave hs origin hkeeper h rfl rfl, fun hfits => hsnoc st₂.1 (.leave _ _ _) ?_
      (hcalls (hsnoc st₁.1 (.enter command enclosing _) trivial hfits))⟩
    exact callFits_leave h _

/-- Whatever a text says, no child is said to be misplaced: whenever one is bound to an element,
some containment of the element accepts its class, and nothing contains it yet. -/
theorem children_fit {s : Schema} (hs : s.Accepted) (origin : Origin) (k : Option AttributeKeeper)
    (m : Model) (text : List Char) :
    (∀ p ∈ (instantiateWith s origin (k.map AttributeKeeper.keeper) () m text).problems,
      p.message ≠ "Element is already contained elsewhere" ∧
        ∀ word, p.message ≠ "Command '" ++ word ++ "' can not be contained here") ∧
    ∀ call ∈ (visitAll (builder s origin (k.map AttributeKeeper.keeper)).recorded none
      (parse (tokenize s.pattern text)).entries ({ model := m, keeper := () }, [])).2.2,
        CallFits s call := by
  obtain ⟨hoffers, hcalls⟩ := offers_builder hs origin tame_of_mem_map none
    (parse (tokenize s.pattern text)).entries { model := m, keeper := () } []
  obtain ⟨-, hstate⟩ := visitAll_recorded (builder s origin (k.map AttributeKeeper.keeper))
    none (parse (tokenize s.pattern text)).entries { model := m, keeper := () } []
  refine ⟨fun p hp => message_ne ?_, hcalls (by simp)⟩
  obtain ⟨q, hq, rfl⟩ := List.mem_map.mp hp
  rcases List.mem_append.mp (List.mem_mergeSort.mp hq) with hq | hq
  · have hcalm := hoffers.calm (by simp [Building.Calm])
    rw [hstate] at hcalm
    exact hcalm q hq
  · exact isMisplaced_eq_false (concernsPlace_parse _ q hq)

theorem children_fit_boxes : ∃ s, boxes.build = .ok s ∧
    (instantiateWith s {} none () {} boxText).model.container 0 = some (1, 1) ∧
    ∀ k : Option AttributeKeeper,
      (∀ p ∈ (instantiateWith s {} (k.map AttributeKeeper.keeper) () {} boxText).problems,
        p.message ≠ "Element is already contained elsewhere" ∧
          ∀ word, p.message ≠ "Command '" ++ word ++ "' can not be contained here") ∧
      ∀ call ∈ (visitAll (builder s {} (k.map AttributeKeeper.keeper)).recorded none
        (parse (tokenize s.pattern boxText)).entries ({ model := {}, keeper := () }, [])).2.2,
          CallFits s call := by
  obtain ⟨s, hs, hcontainer⟩ : ∃ s, boxes.build = .ok s ∧
      (instantiateWith s {} none () {} boxText).model.container 0 = some (1, 1) :=
    ⟨_, rfl, by decide +kernel⟩
  exact ⟨s, hs, hcontainer, fun k => children_fit ⟨boxes, hs⟩ {} k {} boxText⟩

end CommandText
