import CommandText.Proofs.FittingChildren
import CommandText.Proofs.SchemaTables

/-!
# Children beyond the first

A containment that does not hold many children takes the first one that is directed to it. Each
later one is left where it is and told of on its line. Children are directed to a containment by its
name, or without a role if no other containment takes them; they may come from several members of a
block, mixed with children that go elsewhere or nowhere. The containment holds what has been
directed to it, cut to one, and the rest is told of. Both can be said member by member.
-/

namespace CommandText

open List Member Fault

variable {fault : Fault} {m' : Model}

/-! ### Directed children -/

/-- The children of a member that are directed to a containment of a class: those under its name
that conform to its target, or one without a role that no other containment accepts, unless this one
calls for a label. -/
def Member.directed (s : Schema) (classes : ElementId → ClassId) (c : ClassId) (f : FeatureId) :
    Member ElementId → List ElementId
  | child id =>
    if s.containmentsAccepting c (classes id) = [f] ∧ (s.featureAt f).labeled = false then [id]
    else []
  | role label children _ =>
    if label.text = (s.featureAt f).name then
      children.filter fun id => (s.featureAt f).target?.any (s.conforms (classes id))
    else []

/-- The children of a statement that are directed to a containment, in order. -/
def Statement.directed (s : Schema) (classes : ElementId → ClassId) (c : ClassId) (f : FeatureId)
    (statement : Statement ElementId) : List ElementId :=
  statement.members.flatMap (Member.directed s classes c f)

/-- A containment of a class that holds one child at most. -/
structure Schema.IsSingle (s : Schema) (c : ClassId) (f : FeatureId) : Prop where
  mem : f ∈ s.containments c
  single : (s.featureAt f).many = false

/-! ### What is told -/

theorem Fault.concernsPlace_of_isSecondChild (h : fault.isSecondChild = true) :
    fault.concernsPlace = true := by
  cases fault with
  | singleChildOnly => rfl
  | _ => cases h

theorem Fault.isSecondChild_eq_false (h : fault.concernsPlace = false) :
    fault.isSecondChild = false := by
  rw [Bool.eq_false_iff]
  intro hsecond
  rw [concernsPlace_of_isSecondChild hsecond] at h
  cases h

/-- Whether a message begins with some words. -/
def Fault.opensWith (words : String) (fault : Fault) : Bool :=
  words.toList.isPrefixOf fault.message.toList

theorem Fault.opensWith_onlyOneChild (fault : Fault) :
    fault.opensWith "Only one child allowed in role '" = fault.isSecondChild := by
  have first {text : String} (h : text.toList.head? ≠ some 'O') :
      "Only one child allowed in role '".toList.isPrefixOf text.toList = false := by
    rw [Bool.eq_false_iff, ne_eq, isPrefixOf_iff_prefix]
    rintro ⟨rest, hrest⟩
    rw [← hrest] at h
    simp at h
  unfold opensWith message
  cases fault with
  | singleChildOnly name =>
    dsimp only
    rw [String.append_assoc, String.toList_append]
    exact isPrefixOf_iff_prefix.mpr (prefix_append _ _)
  | _ => exact first (by simp)

/-- What is told of a child beyond the first in a containment. -/
def Schema.surplusProblem (s : Schema) (m : Model) (p : FeatureId × ElementId) : Problem :=
  ⟨.singleChildOnly (s.featureAt p.1).name, BuildM.childLine m p.2, none⟩

theorem Schema.surplusProblem_congr {s : Schema} {m : Model} {p : FeatureId × ElementId}
    (h : (m'.elementAt p.2).line = (m.elementAt p.2).line) :
    s.surplusProblem m' p = s.surplusProblem m p := by
  rw [surplusProblem, surplusProblem, BuildM.childLine, BuildM.childLine, h]

variable {α : Type}

theorem Model.TakesAll.mono {s : Schema} {id : ElementId} {P Q : ElementId → Prop} {m : Model}
    (h : TakesAll s id P m m') (hsub : ∀ child, P child → Q child) : TakesAll s id Q m m' := by
  refine Relation.ReflTransGen.mono ?_ _ _ h
  rintro m m' ⟨f, child, hchild, hstep⟩
  exact ⟨f, child, hsub child hchild, hstep⟩

theorem take_one_append (xs ys : List α) : (xs.take 1 ++ ys).take 1 = (xs ++ ys).take 1 := by
  cases xs <;> rfl

theorem drop_one_append (xs ys : List α) :
    (xs ++ ys).drop 1 = xs.drop 1 ++ (xs.take 1 ++ ys).drop 1 := by
  cases xs <;> rfl

namespace BuildM

variable {τ : Type} {s : Schema} {classes : ElementId → ClassId} {c : ClassId} {id : ElementId}
  {children children' : List ElementId} {directed directed' : FeatureId → List ElementId}
  {b b₁ b₂ : Building τ} {surplus surplus' : List (FeatureId × ElementId)}
variable {child : ElementId} {g : FeatureId}

/-! ### Sorting children -/

/-- Children wait to be placed in an element that holds one child at most in each single
containment. -/
structure Ready (s : Schema) (classes : ElementId → ClassId) (c : ClassId) (id : ElementId)
    (pending : List ElementId) (b : Building τ) : Prop extends Awaits s c id pending b where
  same : b.model.classOf = classes
  room : ∀ f, s.IsSingle c f → (b.model.values id f).length ≤ 1

/-- Children have been placed. Of those directed to a single containment, it holds the first one,
and each later one is free and told of. -/
structure Sorts (s : Schema) (c : ClassId) (id : ElementId) (children : List ElementId)
    (directed : FeatureId → List ElementId) (b b' : Building τ)
    (surplus : List (FeatureId × ElementId)) : Prop where
  takes : Model.TakesAll s id (· ∈ children) b.model b'.model
  values : ∀ f, s.IsSingle c f →
    b'.model.values id f = (b.model.values id f ++ (directed f).map Value.element).take 1
  later : ∀ f, s.IsSingle c f → ∀ d,
    Value.element d ∈ (b.model.values id f ++ (directed f).map Value.element).drop 1 →
      (f, d) ∈ surplus
  sublist : (surplus.map Prod.snd).Sublist children
  free : ∀ p ∈ surplus, b'.model.container p.2 = none
  told : b'.told isSecondChild =
    b.told isSecondChild ++ surplus.map (s.surplusProblem b.model)

theorem Ready.of_append (h : Ready s classes c id (children ++ children') b) :
    Ready s classes c id children b := ⟨h.toAwaits.of_append, h.same, h.room⟩

theorem Ready.of_sorts (h : Ready s classes c id (children ++ children') b)
    (hsorts : Sorts s c id children directed b b₁ surplus) :
    Ready s classes c id children' b₁ := by
  refine ⟨h.toAwaits.of_takesAll hsorts.takes, ?_, fun f hf => ?_⟩
  · rw [← h.same]
    exact funext hsorts.takes.classOf
  · rw [hsorts.values f hf, length_take]
    exact Nat.min_le_left _ _

theorem Ready.tended (h : Ready s classes c id children b)
    (htakes : Model.TakesAll s id (· ∈ children) b.model b₁.model) :
    Model.Tended s id b.model b₁.model := .of_takesAll htakes h.older h.parent

theorem Sorts.of_eq (hmodel : b₁.model = b.model)
    (htold : b₁.told isSecondChild = b.told isSecondChild)
    (hroom : ∀ f, s.IsSingle c f → (b.model.values id f).length ≤ 1)
    (hdirected : ∀ f, s.IsSingle c f → directed f = []) :
    Sorts s c id children directed b b₁ [] := by
  refine ⟨hmodel ▸ .refl, fun f hf => ?_, fun f hf d hd => ?_, nil_sublist _, nofun, ?_⟩
  · rw [hdirected f hf, map_nil, append_nil, take_of_length_le (hroom f hf), hmodel]
  · rw [hdirected f hf, map_nil, append_nil, drop_of_length_le (hroom f hf)] at hd
    cases hd
  · rw [htold, map_nil, append_nil]

theorem Sorts.of_problem (hfault : fault.isSecondChild = false) (line : Nat)
    (hready : Ready s classes c id children b) (hdirected : ∀ f, s.IsSingle c f → directed f = []) :
    Sorts s c id children directed b (problem fault line b).2 [] :=
  .of_eq rfl (avoids_problem hfault line b) hready.room hdirected

theorem Sorts.congr (h : Sorts s c id children directed b b₁ surplus)
    (hdirected : ∀ f, s.IsSingle c f → directed' f = directed f) :
    Sorts s c id children directed' b b₁ surplus :=
  { h with
    values := fun f hf => hdirected f hf ▸ h.values f hf
    later := fun f hf => hdirected f hf ▸ h.later f hf }

theorem Sorts.append (hready : Ready s classes c id (children ++ children') b)
    (h : Sorts s c id children directed b b₁ surplus)
    (h' : Sorts s c id children' directed' b₁ b₂ surplus') :
    Sorts s c id (children ++ children') (fun f => directed f ++ directed' f) b b₂
      (surplus ++ surplus') := by
  have hready₁ := hready.of_sorts h
  have htended := hready.of_append.tended h.takes
  have hmem {p : FeatureId × ElementId} (hp : p ∈ surplus) : p.2 ∈ children :=
    h.sublist.subset (mem_map_of_mem hp)
  refine ⟨?_, fun f hf => ?_, fun f hf d hd => ?_, ?_, fun p hp => ?_, ?_⟩
  · exact (h.takes.mono fun _ => mem_append_left _).trans
      (h'.takes.mono fun _ => mem_append_right _)
  · rw [h'.values f hf, h.values f hf, map_append, ← append_assoc]
    exact take_one_append _ _
  · rw [map_append, ← append_assoc, drop_one_append] at hd
    -- surplus among the first ones, or behind the one that is kept of them
    rcases mem_append.mp hd with hd | hd
    · exact mem_append_left _ (h.later f hf d hd)
    · rw [← h.values f hf] at hd
      exact mem_append_right _ (h'.later f hf d hd)
  · rw [map_append]
    exact h.sublist.append h'.sublist
  · rcases mem_append.mp hp with hp | hp
    · rw [h'.takes.container_eq hready₁.older hready₁.parent, h.free p hp]
      exact fun hp' => (nodup_append.mp hready.nodup).2.2 _ (hmem hp) _ hp' rfl
    · exact h'.free p hp
  · rw [h'.told, h.told, append_assoc, map_append]
    congr 2
    exact map_congr_left fun p _ => Schema.surplusProblem_congr (htended.lineOf p.2)

theorem exists_sorts_forM {α : Type} {f : α → BuildM τ Unit} {answers : α → List ElementId}
    {directed : α → FeatureId → List ElementId}
    (hstep : ∀ a b, Ready s classes c id (answers a) b →
      ∃ surplus, Sorts s c id (answers a) (directed a) b (f a b).2 surplus)
    {as : List α} (h : Ready s classes c id (as.flatMap answers) b) :
    ∃ surplus, Sorts s c id (as.flatMap answers) (fun g => as.flatMap (directed · g)) b
      (as.forM f b).2 surplus := by
  induction as generalizing b with
  | nil => exact ⟨[], .of_eq rfl rfl h.room fun _ _ => rfl⟩
  | cons a as ih =>
    rw [flatMap_cons] at h
    obtain ⟨surplus, hsorts⟩ := hstep a b h.of_append
    obtain ⟨surplus', hsorts'⟩ := ih (h.of_sorts hsorts)
    exact ⟨surplus ++ surplus', hsorts.append h hsorts'⟩

/-! ### Placing children -/

theorem Sorts.of_set (h : Ready s classes c id [child] b) (hg : s.IsSingle c g)
    (hset : b.model.values id g ≠ []) :
    Sorts s c id [child] (fun f => if f = g then [child] else []) b
      (problem (.singleChildOnly (s.featureAt g).name) (childLine b.model child) b).2
      [(g, child)] := by
  obtain ⟨v, hv⟩ : ∃ v, b.model.values id g = [v] :=
    length_eq_one_iff.mp
      (Nat.le_antisymm (h.room g hg) (length_pos_iff.mpr hset))
  refine ⟨.refl, fun f hf => ?_, fun f hf d hd => ?_, .refl _, fun p hp => ?_, ?_⟩
  · show b.model.values id f = _
    split
    · next hfg =>
      subst hfg
      rw [hv]
      rfl
    · rw [map_nil, append_nil, take_of_length_le (h.room f hf)]
  · split at hd
    · next hfg =>
      subst hfg
      rw [hv] at hd
      obtain rfl : d = child := by simpa using hd
      exact mem_singleton_self _
    · rw [map_nil, append_nil, drop_of_length_le (h.room f hf)] at hd
      cases hd
  · obtain rfl := mem_singleton.mp hp
    exact (h.fits child (mem_singleton_self child)).free
  · exact told_problem _ _ b

theorem Sorts.of_attach? (h : Ready s classes c id [child] b) (hg : g ∈ s.containments c)
    (htarget : (s.featureAt g).target?.any (s.conforms (b.model.classOf child)) = true)
    (hroom : (s.featureAt g).many = false → b.model.values id g = [])
    (hattach : b.model.attach? id g child = some m') :
    Sorts s c id [child] (fun f => if f = g then [child] else []) b { b with model := m' } [] := by
  have hmem := mem_singleton_self child
  have hattached := b.model.attached_of_attach? hattach h.parent
    (Nat.lt_trans (h.older child hmem) h.parent)
  refine ⟨.single ⟨g, child, hmem, h.classOf.symm ▸ hg, htarget, hroom, hattach⟩,
    fun f hf => ?_, fun f hf d hd => ?_, nil_sublist _, nofun, (append_nil _).symm⟩
  · rw [hattached.values]
    by_cases hfg : f = g
    · subst hfg
      rw [if_pos ⟨rfl, rfl⟩, if_pos rfl, hroom hf.single]
      rfl
    · rw [if_neg (fun h => hfg h.2), if_neg hfg, map_nil, append_nil,
        take_of_length_le (h.room f hf)]
  · by_cases hfg : f = g
    · subst hfg
      rw [if_pos rfl, hroom hf.single] at hd
      cases hd
    · rw [if_neg hfg, map_nil, append_nil, drop_of_length_le (h.room f hf)] at hd
      cases hd

theorem exists_sorts_attachInRole (h : Ready s classes c id [child] b) (hg : g ∈ s.containments c) :
    ∃ surplus, Sorts s c id [child]
      (fun f => if f = g then
        [child].filter fun id => (s.featureAt g).target?.any (s.conforms (classes id)) else [])
      b (attachInRole s id g child b).2 surplus := by
  have hmem := mem_singleton_self child
  have hclass : b.model.classOf child = classes child := congrFun h.same child
  rcases attachInRole_cases hg id child b with
    ⟨fault, line, hfault, hconforms | hnone, happly⟩ | ⟨hconforms, ⟨hmany, hset, happly⟩ |
      ⟨hroom, m', hattach, happly⟩⟩
  · rw [happly]
    rw [hclass] at hconforms
    refine ⟨[], .of_problem hfault line h fun f _ => ?_⟩
    rw [filter_cons_of_neg (by simp [hconforms]), filter_nil, ite_self]
  · rw [b.model.attach?_eq_some_iff.mpr
      ⟨(h.fits child hmem).free, Nat.ne_of_gt (h.older child hmem), rfl⟩] at hnone
    cases hnone
  · rw [happly, filter_cons_of_pos (hclass ▸ hconforms), filter_nil]
    exact ⟨_, .of_set h ⟨hg, hmany⟩ hset⟩
  · rw [happly, filter_cons_of_pos (hclass ▸ hconforms), filter_nil]
    exact ⟨_, .of_attach? h hg hconforms hroom hattach⟩

theorem exists_sorts_attachAll (h : Ready s classes c id children b) (hg : g ∈ s.containments c) :
    ∃ surplus, Sorts s c id children
      (fun f => if f = g then
        children.filter fun id => (s.featureAt g).target?.any (s.conforms (classes id)) else [])
      b (children.forM (attachInRole s id g) b).2 surplus := by
  rw [← flatMap_singleton' children] at h
  obtain ⟨surplus, hsorts⟩ := exists_sorts_forM (fun child b h => exists_sorts_attachInRole h hg) h
  rw [flatMap_singleton' children] at hsorts
  refine ⟨surplus, hsorts.congr fun f _ => ?_⟩
  split
  · rw [← filter_flatMap, flatMap_singleton']
  · exact (flatMap_eq_nil_iff.mpr fun _ _ => rfl).symm

theorem exists_sorts_attachUnlabeled (h : Ready s classes c id [child] b) :
    ∃ surplus, Sorts s c id [child] (fun f => Member.directed s classes c f (.child child)) b
      (attachUnlabeled s id child b).2 surplus := by
  have hclass : b.model.classOf child = classes child := congrFun h.same child
  rw [attachUnlabeled, getModel_bind_apply, h.classOf, hclass]
  rcases hg : s.containmentsAccepting c (classes child) with _ | ⟨g, _ | ⟨g', gs⟩⟩
  · exact ⟨[], .of_problem rfl _ h fun f _ => by simp [Member.directed, hg]⟩
  · have hmem : g ∈ s.containmentsAccepting c (classes child) := hg ▸ mem_singleton_self g
    obtain ⟨hmem, htarget⟩ := mem_filter.mp hmem
    dsimp only
    split
    · next hlabeled =>
      refine ⟨[], .of_problem rfl _ h fun f _ => ?_⟩
      rw [Member.directed, hg, if_neg]
      rintro ⟨hfg, hunlabeled⟩
      rw [← singleton_inj.mp hfg, hlabeled] at hunlabeled
      cases hunlabeled
    · next hlabeled =>
      obtain ⟨surplus, hsorts⟩ := exists_sorts_attachInRole h hmem
      refine ⟨surplus, hsorts.congr fun f _ => ?_⟩
      rw [filter_singleton, htarget, cond_true, Member.directed, hg]
      refine if_congr ⟨fun hf => (singleton_inj.mp hf.1).symm, ?_⟩ rfl rfl
      rintro rfl
      exact ⟨rfl, by simpa using hlabeled⟩
  · exact ⟨[], .of_problem rfl _ h fun f _ => by simp [Member.directed, hg]⟩

theorem exists_sorts_placeMember (hs : s.Accepted) {member : Member ElementId}
    (h : Ready s classes c id member.answers b) :
    ∃ surplus, Sorts s c id member.answers (fun f => member.directed s classes c f) b
      (placeMember s id member b).2 surplus := by
  cases member with
  | child child => exact exists_sorts_attachUnlabeled h
  | role label children list =>
    have hchildren : Ready s classes c id children b := h
    have hnamed {f : FeatureId} : s.featureNamed? c label.text = some f ↔
        f ∈ s.featuresOf c ∧ (s.featureAt f).name = label.text :=
      Lineage.named?_eq_some_iff (hs.nodup_names c)
    have hname {f : FeatureId} (hf : s.IsSingle c f) :
        label.text = (s.featureAt f).name ↔ s.featureNamed? c label.text = some f := by
      rw [hnamed, and_iff_right (mem_filter.mp hf.mem).1, eq_comm]
    rw [placeMember, getModel_bind_apply, h.classOf]
    cases hg : s.featureNamed? c label.text with
    | none =>
      refine ⟨[], .of_problem rfl _ h fun f hf => ?_⟩
      rw [directed, if_neg]
      rw [hname hf, hg]
      exact Option.some_ne_none f ∘ Eq.symm
    | some g =>
      have hself {f : FeatureId} (hf : s.IsSingle c f) :
          label.text = (s.featureAt f).name ↔ f = g := by
        rw [hname hf, hg, Option.some_inj, eq_comm]
      dsimp only
      split
      · next hkind =>
        obtain ⟨surplus, hsorts⟩ :=
          exists_sorts_attachAll hchildren (mem_filter.mpr ⟨(hnamed.mp hg).1, hkind⟩)
        refine ⟨surplus, hsorts.congr fun f hf => ?_⟩
        rw [directed]
        by_cases hfg : f = g
        · rw [if_pos ((hself hf).mpr hfg), if_pos hfg, hfg]
        · rw [if_neg fun h => hfg ((hself hf).mp h), if_neg hfg]
      · next hkind =>
        refine ⟨[], .of_problem rfl _ h fun f hf => ?_⟩
        rw [directed, if_neg]
        intro h
        rw [(hself hf).mp h] at hf
        exact hkind (mem_filter.mp hf.mem).2

theorem exists_sorts_placeChildren (hs : s.Accepted) {members : List (Member ElementId)}
    (h : Ready s classes c id (members.flatMap Member.answers) b) :
    ∃ surplus, Sorts s c id (members.flatMap Member.answers)
      (fun f => members.flatMap (Member.directed s classes c f)) b
      (placeChildren s id members b).2 surplus :=
  exists_sorts_forM (fun _ _ => exists_sorts_placeMember hs) h

end BuildM

end CommandText
