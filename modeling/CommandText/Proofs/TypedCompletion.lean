import CommandText.Proofs.BlockCompletion

/-!
# Completion of what is typed

What is typed at the cursor sifts what is offered there, and does nothing else. Command words are
sifted before they are sorted and before repetitions are dropped, which makes no difference: classes
that are offered at one place have distinct words, so a sorted list of them is given by its members.
-/

namespace CommandText

open List Schema SchemaDefinition

/-- Whether a completion goes on from what is typed, by its command word or by the name in front of
its colon. Values and blocks are offered whatever is typed. -/
def Completion.goesOn (typed : List Char) (o : Completion) : Bool :=
  match o.kind with
  | .command => extendsTyped typed o.insert
  | .label => typed.isPrefixOf o.display.toList.dropLast
  | _ => true

theorem eq_of_pairwise_lt {α κ : Type} [LinearOrder κ] {key : α → κ} {l l' : List α}
    (h : l.Pairwise fun a b => key a < key b) (h' : l'.Pairwise fun a b => key a < key b)
    (hmem : ∀ a, a ∈ l ↔ a ∈ l') : l = l' := by
  have hnodup {l : List α} (h : l.Pairwise fun a b => key a < key b) : l.Nodup :=
    h.imp fun hlt => ne_of_apply_ne key hlt.ne
  exact ((perm_ext_iff_of_nodup (hnodup h) (hnodup h')).mpr hmem).eq_of_pairwise
    (fun _ _ _ _ hab hba => (lt_asymm hab hba).elim) h h'

namespace Schema

variable {s : Schema} {c : ClassId} {f : FeatureId} {classes : List ClassId}
  {offered : List Char → List ClassId}

/-! ### Classes -/

/-- Of some classes, those are offered whose words go on from what is typed. -/
structure Sifts (s : Schema) (classes : List ClassId) (offered : List Char → List ClassId) :
    Prop where
  sorted : ∀ typed, (offered typed).Pairwise fun a b => s.commandOf a < s.commandOf b
  mem_iff : ∀ typed d, d ∈ offered typed ↔ d ∈ classes ∧ extendsTyped typed (s.commandOf d) = true

theorem Sifts.eq_filter (h : s.Sifts classes offered) (typed : List Char) :
    offered typed = (offered []).filter fun d => extendsTyped typed (s.commandOf d) := by
  refine eq_of_pairwise_lt (h.sorted typed) ((h.sorted []).filter _) fun d => ?_
  rw [mem_filter, h.mem_iff, h.mem_iff]
  exact and_congr_left fun _ => (and_iff_left rfl).symm

theorem mem_classesMatching_iff {typed : List Char} {d : ClassId} :
    d ∈ s.classesMatching typed classes ↔
      d ∈ classes ∧ extendsTyped typed (s.commandOf d) = true := by
  rw [classesMatching, sortByCommand, mem_mergeSort, mem_filter]

/-- No two of some classes share a command word. -/
def DistinctWords (s : Schema) (classes : List ClassId) : Prop :=
  ∀ a ∈ classes, ∀ b ∈ classes, s.commandOf a = s.commandOf b → a = b

theorem DistinctWords.matching (h : s.DistinctWords classes) (typed : List Char) :
    s.DistinctWords (s.classesMatching typed classes) := fun a ha b hb =>
  h a (mem_classesMatching_iff.mp ha).1 b (mem_classesMatching_iff.mp hb).1

theorem DistinctWords.sifts_dropRepeats (h : s.DistinctWords classes)
    {same : ClassId → ClassId → Bool}
    (hsame : ∀ a ∈ classes, ∀ b ∈ classes, same a b = true ↔ a = b) :
    s.Sifts classes fun typed => dropRepeats same (s.classesMatching typed classes) := by
  have hsame (typed : List Char) : ∀ a ∈ s.classesMatching typed classes,
      ∀ b ∈ s.classesMatching typed classes, same a b = true ↔ a = b := fun a ha b hb =>
    hsame a (mem_classesMatching_iff.mp ha).1 b (mem_classesMatching_iff.mp hb).1
  exact {
    sorted := fun typed =>
      pairwise_dropRepeats (hsame typed) (pairwise_sortByCommand _) (h.matching typed)
    mem_iff := fun typed d => (mem_dropRepeats_iff (hsame typed)).trans mem_classesMatching_iff }

theorem DistinctWords.sifts (h : s.DistinctWords classes) (hnodup : classes.Nodup) :
    s.Sifts classes fun typed => s.classesMatching typed classes where
  sorted typed := by
    have hnodup : (s.classesMatching typed classes).Nodup :=
      (mergeSort_perm _ _).nodup_iff.mpr (hnodup.filter _)
    refine ((pairwise_sortByCommand _).and hnodup).imp_of_mem fun {a b} ha hb hab => ?_
    exact lt_of_le_of_ne hab.1 fun hword => hab.2 (h.matching typed a ha b hb hword)
  mem_iff _ _ := mem_classesMatching_iff

theorem Accepted.distinctWords_rootClasses (hs : s.Accepted) : s.DistinctWords s.rootClasses := by
  intro a ha b hb hword
  have hroot {a : ClassId} (ha : a ∈ s.rootClasses) :
      a ∈ s.classIds ∧ (s.classAt a).root = true := by
    obtain ⟨hid, hroot⟩ := mem_filter.mp ha
    exact ⟨hid, (Bool.and_eq_true_iff.mp hroot).1⟩
  have ha := hs.classForCommand?_none_eq_some_iff.mpr ⟨hroot ha, hword⟩
  have hb := hs.classForCommand?_none_eq_some_iff.mpr ⟨hroot hb, rfl⟩
  exact Option.some.inj (ha.symm.trans hb)

theorem Accepted.exists_mem_containments (hs : s.Accepted)
    (hf : (s.featureAt f).isContainment = true) : ∃ c, f ∈ s.containments c := by
  obtain ⟨d, hd⟩ := hs
  obtain ⟨supertypes, table, hbuilds⟩ := exists_builds hd
  have hlt : f < s.features.length := by
    by_contra hlt
    rw [featureAt, getD_eq_default _ _ (not_lt.mp hlt)] at hf
    cases hf
  -- the owner is a class, since each feature stands for a declaration in one
  obtain ⟨x, hx, howner⟩ := (exists_mem_iff_of_forall₂
    (forall₂_declared hbuilds.features)
    (P := fun x => x.1.2 = (s.featureAt f).owner) (Q := fun g => g.owner = (s.featureAt f).owner)
    fun x g hg => by rw [hg.owner]).mpr ⟨_, getElem_mem hlt, by
      rw [featureAt, getD_eq_getElem _ _ hlt]⟩
  have hid : (s.featureAt f).owner ∈ s.classIds :=
    hbuilds.mem_classIds_iff.mpr ⟨x.1.1, howner ▸ (mem_declared_iff.mp hx).1⟩
  refine ⟨(s.featureAt f).owner, mem_filter.mpr ⟨?_, hf⟩⟩
  exact (hbuilds.mem_featuresOf_iff hid).mpr ⟨hlt, (hbuilds.conforms_iff hid).mpr .refl⟩

theorem Accepted.distinctWords_takenClasses (hs : s.Accepted)
    (hf : (s.featureAt f).isContainment = true) : s.DistinctWords (s.takenClasses f) := by
  obtain ⟨c, hf⟩ := hs.exists_mem_containments hf
  exact fun a ha b hb => hs.eq_of_commandOf_eq (mem_childClasses_of_taken hf ha)
    (mem_childClasses_of_taken hf hb)

end Schema

/-! ### Completions -/

/-- Completions that are sifted by what is typed and offer commands in the order of their words. -/
structure Sifted (offered : List Char → List Completion) : Prop where
  eq_filter : ∀ typed, offered typed = (offered []).filter (Completion.goesOn typed)
  sorted : (((offered []).filter (·.kind = .command)).map (·.insert)).Pairwise (· < ·)

namespace Sifted

variable {offered : List Char → List Completion} {s : Schema}

theorem const {completions : List Completion}
    (h : ∀ o ∈ completions, o.kind ≠ .command ∧ o.kind ≠ .label) : Sifted fun _ => completions where
  eq_filter typed := by
    refine (filter_eq_self.mpr fun o ho => ?_).symm
    obtain ⟨hcommand, hlabel⟩ := h o ho
    rw [Completion.goesOn]
    split
    · contradiction
    · contradiction
    · rfl
  sorted := by
    rw [filter_eq_nil_iff.mpr fun o ho => by simpa using (h o ho).1]
    exact .nil

theorem commands {classes : List ClassId} {listed : List Char → List ClassId}
    (h : s.Sifts classes listed) :
    Sifted fun typed => (listed typed).map s.commandCompletion where
  eq_filter typed := by
    rw [h.eq_filter typed, filter_map]
    rfl
  sorted := by
    rw [filter_eq_self.mpr (forall_mem_map.mpr fun _ _ => rfl), map_map]
    exact pairwise_map.mpr (h.sorted [])

theorem append_labels (h : Sifted offered) (s : Schema) (features : List FeatureId) :
    Sifted fun typed => offered typed ++
      (features.filter fun f => extendsTyped typed (s.featureAt f).name).map s.labelCompletion where
  eq_filter typed := by
    have hname (f : FeatureId) :
        (s.labelCompletion f).goesOn typed = extendsTyped typed (s.featureAt f).name := by
      have hname : ((s.featureAt f).name ++ ":").toList.dropLast = (s.featureAt f).name.toList := by
        rw [String.toList_append]
        exact dropLast_concat
      exact congrArg typed.isPrefixOf hname
    rw [h.eq_filter typed, filter_append, filter_map,
      filter_eq_self (p := fun f => extendsTyped [] (s.featureAt f).name) |>.mpr fun _ _ => rfl]
    congr 2
    exact filter_congr fun f _ => (hname f).symm
  sorted := by
    have hlabels (fs : List FeatureId) :
        (fs.map s.labelCompletion).filter (·.kind = .command) = [] :=
      filter_eq_nil_iff.mpr (forall_mem_map.mpr fun f _ => by simp [labelCompletion])
    rw [filter_append, hlabels, append_nil]
    exact h.sorted

end Sifted

section Places

variable {s : Schema} (hs : s.Accepted)

include hs

theorem sifted_rootCompletions : Sifted s.rootCompletions := by
  have hwords := hs.distinctWords_rootClasses
  refine .commands (hwords.sifts_dropRepeats fun a ha b hb => ?_)
  rw [beq_iff_eq]
  exact ⟨hwords a ha b hb, congrArg s.commandOf⟩

theorem sifted_childCompletions {f : FeatureId} (hf : (s.featureAt f).isContainment = true) :
    Sifted (s.childCompletions f) := by
  refine .commands ((hs.distinctWords_takenClasses hf).sifts ?_)
  rw [takenClasses]
  split
  · exact (nodup_range.filter _).filter _
  · exact .nil

theorem sifted_memberCompletions (c : ClassId) : Sifted (s.memberCompletions c) := by
  have hwords : s.DistinctWords
      (((s.containments c).filter fun f => !s.needsLabel c f).flatMap s.takenClasses) :=
    fun a ha b hb => hs.eq_of_commandOf_eq (mem_childClasses_of_mem_flatMap ha)
      (mem_childClasses_of_mem_flatMap hb)
  have heq : s.memberCompletions c = fun typed =>
      (dropRepeats (· == ·) (s.classesMatching typed
        (((s.containments c).filter fun f => !s.needsLabel c f).flatMap s.takenClasses))).map
          s.commandCompletion ++
        ((s.labeledContainments c).filter fun f => extendsTyped typed (s.featureAt f).name).map
          s.labelCompletion := by
    funext typed
    simp only [memberCompletions, partition_eq_filter_filter]
    rfl
  rw [heq]
  exact .append_labels (.commands (hwords.sifts_dropRepeats fun _ _ _ _ => beq_iff_eq)) _ _

theorem sifted_inBlock (c : ClassId) (context : Context) :
    Sifted fun typed => s.inBlockCompletions c { context with typed } := by
  simp only [inBlockCompletions]
  cases h : context.feature.filter fun f => (s.featureAt f).isContainment with
  | none => exact sifted_memberCompletions hs c
  | some f => exact sifted_childCompletions hs (Option.filter_eq_some_iff.mp h).2

theorem sifted_features (f : FeatureId) (context : Context) (version : Nat) :
    Sifted fun typed => s.featureCompletions f { context with typed } { version } := by
  simp only [featureCompletions]
  cases hkind : (s.featureAt f).kind with
  | reference target => exact .const (forall_mem_nil _)
  | containment target => exact sifted_childCompletions hs (by rw [Feature.isContainment, hkind])
  | data t => exact .const (forall_mem_map.mpr fun _ _ => by simp [valueCompletion])

theorem sifted_arguments (c : ClassId) (id : ElementId) (context : Context) (version : Nat) :
    Sifted fun typed => s.argumentCompletions c id { context with typed } { version } := by
  have hlabels {offered : List Char → List Completion} (h : Sifted offered) :
      Sifted fun typed => offered typed ++ s.freeLabelCompletions c id { context with typed } := by
    simp only [freeLabelCompletions, Bool.and_comm (!context.model.isSet id _),
      ← filter_filter]
    cases context.flags.afterLabel || context.flags.inArray with
    | true => simpa only [if_true, append_nil] using h
    | false => exact h.append_labels s _
  simp only [argumentCompletions]
  cases context.feature with
  | none => exact hlabels (.const (forall_mem_nil _))
  | some f => exact hlabels (sifted_features hs f context version)

end Places

theorem sifted_newBlock (s : Schema) (c : ClassId) (context : Context) (version : Nat) :
    Sifted fun typed => s.newBlockCompletions c { context with typed } version := by
  have hblock : ∀ o ∈ s.newBlockCompletions c context version,
      o.kind ≠ .command ∧ o.kind ≠ .label := by
    rw [newBlockCompletions]
    split
    · exact forall_mem_nil _
    · simp [blockCompletion]
  exact .const hblock

/-- At every place and for every text that is typed there, what is offered is what is offered where
nothing is typed, in the same order, without the commands and labels whose names do not go on from
the text. The commands stand in the order of their words, each once. -/
theorem complete_typed {s : Schema} (hs : s.Accepted) (context : Context) (version : Nat)
    (typed : List Char) :
    complete s { context with typed } { version } =
      (complete s { context with typed := [] } { version }).filter (Completion.goesOn typed) ∧
    (((complete s { context with typed } { version }).filter (·.kind = .command)).map
      (·.insert)).Pairwise (· < ·) := by
  have hsifted : Sifted fun typed => complete s { context with typed } { version } := by
    simp only [complete]
    cases context.element with
    | none => exact sifted_rootCompletions hs
    | some id =>
      simp only
      split
      · exact sifted_newBlock s _ context version
      · split
        · exact sifted_inBlock hs _ context
        · exact sifted_arguments hs _ id context version
  refine ⟨hsifted.eq_filter typed, hsifted.sorted.sublist ?_⟩
  rw [show complete s { context with typed } { version } = _ from hsifted.eq_filter typed]
  exact (filter_sublist.filter _).map _

theorem complete_typed_racks : ∃ s, racks.build = .ok s ∧
    ∃ context, context? s ["Rack \x7b".toList, "  N".toList] none = some context ∧
      context.element = some 0 ∧ context.typed = ['N'] ∧
      complete s context {} =
        (complete s { context with typed := [] } {}).filter (Completion.goesOn ['N']) ∧
      (((complete s context {}).filter (·.kind = .command)).map (·.insert)).Pairwise (· < ·) := by
  obtain ⟨s, hs, hcontext⟩ : ∃ s, racks.build = .ok s ∧
      (context? s ["Rack \x7b".toList, "  N".toList] none).any (fun context =>
        context.element = some 0 ∧ context.typed = ['N']) = true := ⟨_, rfl, by decide +kernel⟩
  obtain ⟨context, hcontext, h⟩ := (Option.any_eq_true _ _).mp hcontext
  obtain ⟨helement, htyped⟩ := of_decide_eq_true h
  exact ⟨s, hs, context, hcontext, helement, htyped,
    htyped ▸ complete_typed ⟨racks, hs⟩ context 1 context.typed⟩

end CommandText
