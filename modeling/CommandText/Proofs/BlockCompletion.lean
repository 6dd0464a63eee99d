import CommandText.Editor.Completion
import CommandText.Proofs.SchemaTables
import CommandText.Proofs.SoundRuns
import Mathlib.Data.String.Basic

/-!
# Completion in a block

What is offered inside of a block is what the binding of children takes there. A command is offered
where a child of its class finds its containment without a role label, and where it does not, the
label of a containment that takes it is offered. The commands come first, in the order of their
words.
-/

namespace CommandText

open List BuildM

/-! ### Repetitions -/

section DropRepeats

variable {α : Type} {same : α → α → Bool}

theorem dropRepeats_cons (a : α) (items : List α) :
    dropRepeats same (a :: items) =
      match dropRepeats same items with
      | b :: rest => if same a b then a :: rest else a :: b :: rest
      | [] => [a] := by
  rw [dropRepeats, foldr_cons, ← dropRepeats]
  cases dropRepeats same items <;> rfl

variable {items : List α} (hsame : ∀ a ∈ items, ∀ b ∈ items, same a b = true ↔ a = b)

include hsame

theorem mem_dropRepeats_iff {x : α} : x ∈ dropRepeats same items ↔ x ∈ items := by
  induction items generalizing x with
  | nil => simp [dropRepeats]
  | cons a items ih =>
    replace ih {x : α} := @ih (fun b hb c hc => hsame b (.tail a hb) c (.tail a hc)) x
    rw [dropRepeats_cons, mem_cons, ← ih]
    cases hitems : dropRepeats same items with
    | nil => simp
    | cons b rest =>
      have hb : b ∈ items := ih.mp (hitems ▸ mem_cons_self)
      have hab := hsame a mem_cons_self b (.tail a hb)
      by_cases h : a = b
      · subst h
        simp [hab]
      · simp [hab, h]

/-- A sorted list in which only repetitions share a key is strictly sorted without them. -/
theorem pairwise_dropRepeats {κ : Type} [LinearOrder κ] {key : α → κ}
    (hsorted : items.Pairwise fun a b => key a ≤ key b)
    (hkey : ∀ a ∈ items, ∀ b ∈ items, key a = key b → a = b) :
    (dropRepeats same items).Pairwise fun a b => key a < key b := by
  induction items with
  | nil => simp [dropRepeats]
  | cons a items ih =>
    obtain ⟨hle, hsorted⟩ := pairwise_cons.mp hsorted
    have hsame' : ∀ b ∈ items, ∀ c ∈ items, same b c = true ↔ b = c :=
      fun b hb c hc => hsame b (.tail a hb) c (.tail a hc)
    have hrest := ih hsame' hsorted fun b hb c hc => hkey b (.tail a hb) c (.tail a hc)
    rw [dropRepeats_cons]
    cases hitems : dropRepeats same items with
    | nil => simp
    | cons b rest =>
      rw [hitems] at hrest
      have hb : b ∈ items := (mem_dropRepeats_iff hsame').mp (hitems ▸ mem_cons_self)
      have hab := hsame a mem_cons_self b (.tail a hb)
      by_cases h : a = b
      · subst h
        simpa [hab] using hrest
      · have hlt : key a < key b := lt_of_le_of_ne (hle b hb) fun heq =>
          h (hkey a mem_cons_self b (.tail a hb) heq)
        simp only [hab, h, if_false]
        refine pairwise_cons.mpr ⟨?_, hrest⟩
        rw [forall_mem_cons]
        exact ⟨hlt, fun c hc => hlt.trans ((pairwise_cons.mp hrest).1 c hc)⟩

end DropRepeats

namespace Schema

variable {s : Schema} {c d : ClassId} {f : FeatureId}

/-! ### Classes that a containment takes -/

theorem mem_takenClasses_iff :
    d ∈ s.takenClasses f ↔
      s.isConcrete d = true ∧ (s.featureAt f).target?.any (s.conforms d) = true := by
  rw [takenClasses]
  cases (s.featureAt f).target? with
  | none => simp
  | some target =>
    simp only [concreteSubtypes, subtypes, classIds, mem_filter, mem_range,
      Option.any_some]
    constructor
    · rintro ⟨⟨-, hconforms⟩, hconcrete⟩
      exact ⟨hconcrete, hconforms⟩
    · rintro ⟨hconcrete, hconforms⟩
      exact ⟨⟨lt_length_of_conforms hconforms, hconforms⟩, hconcrete⟩

theorem mem_containmentsAccepting_iff (hd : s.isConcrete d = true) :
    f ∈ s.containmentsAccepting c d ↔ f ∈ s.containments c ∧ d ∈ s.takenClasses f := by
  rw [containmentsAccepting, mem_filter, mem_takenClasses_iff]
  exact and_congr_right fun _ => (and_iff_right hd).symm

theorem mem_childClasses_of_taken (hf : f ∈ s.containments c) (hd : d ∈ s.takenClasses f) :
    d ∈ s.childClasses c := by
  obtain ⟨-, hany⟩ := mem_takenClasses_iff.mp hd
  obtain ⟨target, htarget, hconforms⟩ := (Option.any_eq_true _ _).mp hany
  refine mem_childClasses_iff.mpr ⟨f, hf, target, htarget, mem_filter.mpr ⟨?_, hconforms⟩⟩
  exact mem_range.mpr (lt_length_of_conforms hconforms)

theorem mem_childClasses_of_mem_flatMap {p : FeatureId → Bool}
    (hd : d ∈ ((s.containments c).filter p).flatMap s.takenClasses) : d ∈ s.childClasses c := by
  obtain ⟨f, hf, hd⟩ := mem_flatMap.mp hd
  exact mem_childClasses_of_taken (mem_filter.mp hf).1 hd

/-! ### What is offered -/

/-- The containments whose children must be given under a label. -/
def labeledContainments (s : Schema) (c : ClassId) : List FeatureId :=
  (s.containments c).filter (s.needsLabel c)

/-- The classes of the children that can be given without a label, in the order of their words. -/
def plainClasses (s : Schema) (c : ClassId) : List ClassId :=
  dropRepeats (· == ·) (s.sortByCommand
    (((s.containments c).filter fun f => !s.needsLabel c f).flatMap s.takenClasses))

theorem memberCompletions_eq (s : Schema) (c : ClassId) :
    s.memberCompletions c [] =
      (s.plainClasses c).map s.commandCompletion ++
        (s.labeledContainments c).map s.labelCompletion := by
  have hall (name : String) : extendsTyped [] name = true := rfl
  simp only [memberCompletions, classesMatching, hall, filter_true,
    partition_eq_filter_filter]
  rfl

theorem mem_plainClasses_iff :
    d ∈ s.plainClasses c ↔
      ∃ f ∈ s.containments c, s.needsLabel c f = false ∧ d ∈ s.takenClasses f := by
  rw [plainClasses, mem_dropRepeats_iff fun _ _ _ _ => beq_iff_eq, sortByCommand,
    mem_mergeSort, mem_flatMap]
  simp only [mem_filter, Bool.not_eq_true', and_assoc]

theorem accepting_eq_of_not_needsLabel (hf : f ∈ s.containments c)
    (hlabel : s.needsLabel c f = false) (hd : d ∈ s.takenClasses f) :
    s.containmentsAccepting c d = [f] ∧ (s.featureAt f).labeled = false := by
  obtain ⟨hlabeled, hone⟩ := Bool.or_eq_false_iff.mp hlabel
  refine ⟨?_, hlabeled⟩
  have hmem : f ∈ s.containmentsAccepting c d :=
    (mem_containmentsAccepting_iff (mem_takenClasses_iff.mp hd).1).mpr ⟨hf, hd⟩
  have hlength : (s.containmentsAccepting c d).length ≤ 1 := by
    simpa using any_eq_false.mp hone d hd
  obtain ⟨g, hg⟩ := length_eq_one_iff.mp
    (le_antisymm hlength (length_pos_of_mem hmem))
  rw [hg] at hmem
  rw [hg, mem_singleton.mp hmem]

theorem pairwise_sortByCommand (classes : List ClassId) :
    (s.sortByCommand classes).Pairwise fun a b => s.commandOf a ≤ s.commandOf b := by
  have hle (a b : ClassId) :
      (!decide (s.commandOf b < s.commandOf a)) = true ↔ s.commandOf a ≤ s.commandOf b := by
    rw [Bool.not_eq_true', decide_eq_false_iff_not, not_lt]
  refine (pairwise_mergeSort (fun a b d hab hbd => ?_) (fun a b => ?_) classes).imp
    fun {a b} h => (hle a b).mp h
  · rw [hle] at hab hbd ⊢
    exact hab.trans hbd
  · rw [Bool.or_eq_true, hle, hle]
    exact le_total _ _

theorem Accepted.eq_of_commandOf_eq (h : s.Accepted) {e : ClassId} (hd : d ∈ s.childClasses c)
    (he : e ∈ s.childClasses c) (hword : s.commandOf d = s.commandOf e) : d = e := by
  have hd := h.classForCommand?_eq_some_iff.mpr ⟨hd, hword⟩
  have he := h.classForCommand?_eq_some_iff.mpr ⟨he, rfl⟩
  exact Option.some.inj (hd.symm.trans he)

theorem Accepted.pairwise_plainClasses (h : s.Accepted) (c : ClassId) :
    (s.plainClasses c).Pairwise fun a b => s.commandOf a < s.commandOf b := by
  refine pairwise_dropRepeats (fun _ _ _ _ => beq_iff_eq) (pairwise_sortByCommand _)
    fun a ha b hb => ?_
  rw [sortByCommand, mem_mergeSort] at ha hb
  exact h.eq_of_commandOf_eq (mem_childClasses_of_mem_flatMap ha)
    (mem_childClasses_of_mem_flatMap hb)

theorem Accepted.nodup_labels (h : s.Accepted) (c : ClassId) :
    ((s.labeledContainments c).map s.labelCompletion).Nodup := by
  have hsub : (s.labeledContainments c).Sublist (s.featuresOf c) :=
    filter_sublist.trans filter_sublist
  have hnames := (h.nodup_names c).sublist (hsub.map _)
  refine List.Nodup.of_map (fun completion => completion.insert) ?_
  have hinsert : (s.labeledContainments c).map (fun f => (s.labelCompletion f).insert) =
      ((s.labeledContainments c).map fun f => (s.featureAt f).name).map (· ++ ": ") := by
    rw [map_map]
    rfl
  rw [map_map]
  change ((s.labeledContainments c).map fun f => (s.labelCompletion f).insert).Nodup
  rw [hinsert]
  exact hnames.map fun a b hab => String.append_left_inj _ |>.mp hab

/-! ### Against the binding of children -/

theorem attachUnlabeled_eq {τ : Type} {parent child : ElementId} {b : Building τ}
    (hf : s.containmentsAccepting (b.model.classOf parent) (b.model.classOf child) = [f])
    (hlabeled : (s.featureAt f).labeled = false) :
    attachUnlabeled s parent child b = attachInRole s parent f child b := by
  rw [attachUnlabeled, getModel_bind_apply]
  simp only [hf, hlabeled, Bool.false_eq_true, if_false]

/-- Commands and labels fit a block of an element of a class: children of the commands are placed
without a label, all children that can be placed are covered, and nothing is repeated. -/
structure FitBlock (s : Schema) (c : ClassId) (classes : List ClassId) (labels : List FeatureId) :
    Prop where
  concrete : ∀ d ∈ classes, s.isConcrete d = true
  created : ∀ d ∈ classes, s.classForCommand? (s.commandOf d) (some c) = some d
  placed : ∀ d ∈ classes, ∃ f, s.containmentsAccepting c d = [f] ∧ (s.featureAt f).labeled = false ∧
    ∀ {τ : Type} (b : Building τ) (parent child : ElementId), b.model.classOf parent = c →
      b.model.classOf child = d →
      attachUnlabeled s parent child b = attachInRole s parent f child b
  covered : ∀ d, s.isConcrete d = true → s.containmentsAccepting c d ≠ [] →
    d ∈ classes ∨ ∃ f ∈ labels, f ∈ s.containmentsAccepting c d
  commands_sorted : (classes.map s.commandOf).Pairwise (· < ·)
  labels_nodup : (labels.map s.labelCompletion).Nodup

theorem Accepted.fitBlock (h : s.Accepted) (c : ClassId) :
    s.FitBlock c (s.plainClasses c) (s.labeledContainments c) where
  concrete d hd := by
    obtain ⟨f, -, -, hd⟩ := mem_plainClasses_iff.mp hd
    exact (mem_takenClasses_iff.mp hd).1
  created d hd := by
    obtain ⟨f, hf, -, hd⟩ := mem_plainClasses_iff.mp hd
    exact h.classForCommand?_eq_some_iff.mpr ⟨mem_childClasses_of_taken hf hd, rfl⟩
  placed d hd := by
    obtain ⟨f, hf, hlabel, hd⟩ := mem_plainClasses_iff.mp hd
    obtain ⟨haccepting, hlabeled⟩ := accepting_eq_of_not_needsLabel hf hlabel hd
    refine ⟨f, haccepting, hlabeled, fun b parent child hparent hchild => ?_⟩
    exact attachUnlabeled_eq (by rw [hparent, hchild, haccepting]) hlabeled
  covered d hconcrete haccepting := by
    obtain ⟨f, hmem⟩ := exists_mem_of_ne_nil _ haccepting
    obtain ⟨hf, hd⟩ := (mem_containmentsAccepting_iff hconcrete).mp hmem
    cases hlabel : s.needsLabel c f with
    | false => exact .inl (mem_plainClasses_iff.mpr ⟨f, hf, hlabel, hd⟩)
    | true => exact .inr ⟨f, mem_filter.mpr ⟨hf, hlabel⟩, hmem⟩
  commands_sorted := pairwise_map.mpr (h.pairwise_plainClasses c)
  labels_nodup := h.nodup_labels c

end Schema

/-- In a block, with nothing typed yet and no role label in front of the cursor, the commands that
are offered and then the labels fit the block. -/
theorem complete_inBlock {s : Schema} (hs : s.Accepted) {context : Context} {id : ElementId}
    (helement : context.element = some id) (hblock : context.flags.inBlock = true)
    (hproblem : context.problem = none)
    (hfeature : context.feature.filter (fun f => (s.featureAt f).isContainment) = none)
    (htyped : context.typed = []) (options : CompletionOptions) :
    ∃ classes labels, complete s context options =
        classes.map s.commandCompletion ++ labels.map s.labelCompletion ∧
      s.FitBlock (context.model.classOf id) classes labels := by
  refine ⟨_, _, ?_, hs.fitBlock (context.model.classOf id)⟩
  rw [← Schema.memberCompletions_eq]
  simp only [complete, helement, hproblem, hblock, Schema.inBlockCompletions, hfeature, htyped,
    Option.isSome_none, Bool.false_eq_true, if_false, if_true]

/-- Racks take bolts and nuts as they come, and a lid in two roles. -/
def racks : SchemaDefinition where
  classes := [
    { name := "Rack", features := [
      { name := "parts", sort := .containment, target := some "Part", many := true },
      { name := "top", sort := .containment, target := some "Lid" },
      { name := "bottom", sort := .containment, target := some "Lid" }] },
    { name := "Part", isAbstract := true },
    { name := "Nut", supertypes := ["Part"] },
    { name := "Bolt", supertypes := ["Part"] },
    { name := "Lid" }]

theorem complete_inBlock_racks : ∃ s, racks.build = .ok s ∧
    ∃ context, context? s ["Rack \x7b".toList, "  ".toList] none = some context ∧
      s.containmentsAccepting (context.model.classOf 0) 3 = [0] ∧
      s.containmentsAccepting (context.model.classOf 0) 4 = [1, 2] ∧
      ∃ classes labels, complete s context {} =
          classes.map s.commandCompletion ++ labels.map s.labelCompletion ∧
        s.FitBlock (context.model.classOf 0) classes labels := by
  obtain ⟨s, hs, hcontext⟩ : ∃ s, racks.build = .ok s ∧
      (context? s ["Rack \x7b".toList, "  ".toList] none).any (fun context =>
        context.element = some 0 ∧ context.flags.inBlock = true ∧ context.problem = none ∧
        context.feature = none ∧ context.typed = [] ∧
        s.containmentsAccepting (context.model.classOf 0) 3 = [0] ∧
        s.containmentsAccepting (context.model.classOf 0) 4 = [1, 2]) = true :=
    ⟨_, rfl, by decide +kernel⟩
  obtain ⟨context, hcontext, h⟩ := (Option.any_eq_true _ _).mp hcontext
  obtain ⟨helement, hblock, hproblem, hfeature, htyped, hbolt, hlid⟩ := of_decide_eq_true h
  exact ⟨s, hs, context, hcontext, hbolt, hlid,
    complete_inBlock ⟨racks, hs⟩ helement hblock hproblem (by rw [hfeature]; rfl) htyped {}⟩

end CommandText
