import CommandText.Proofs.SchemaFeatures
import Mathlib.Data.List.Induction

/-!
# Tables of command words

A table of command words is filled class by class and refuses a word under which another class
stands. So it can be filled exactly if no two classes share a word, and it then leads from each word
to the class that has it.
-/

namespace CommandText

open List CommandText.Except

variable {word : String}

theorem addCommand_eq_ok_iff {context : String} {table table' : List (String × ClassId)}
    {c : ClassId} :
    addCommand context table word c = .ok table' ↔
      table.lookup word = none ∧ table ++ [(word, c)] = table' ∨
      table.lookup word = some c ∧ table = table' := by
  rw [addCommand]
  cases table.lookup word with
  | none => simp
  | some other => by_cases h : other = c <;> simp [h]

namespace Schema

variable {s : Schema} {context : String} {classes : List ClassId}
  {table table' : List (String × ClassId)}
variable {c d : ClassId} {t : Schema}

/-- A table holds some classes under their command words. -/
def Enters (s : Schema) (classes : List ClassId) (table : List (String × ClassId)) : Prop :=
  ∀ word c, table.lookup word = some c ↔ c ∈ classes ∧ s.commandOf c = word

theorem Enters.addCommand (h : s.Enters classes table)
    (hadd : addCommand context table (s.commandOf c) c = .ok table') :
    s.Enters (classes ++ [c]) table' := by
  intro word d
  rcases addCommand_eq_ok_iff.mp hadd with ⟨hnone, rfl⟩ | ⟨hsome, rfl⟩
  · rw [lookup_append, Option.or_eq_some_iff, h word d, mem_append, mem_singleton]
    have hlast : List.lookup word [(s.commandOf c, c)] = some d ↔ word = s.commandOf c ∧ c = d := by
      by_cases hword : word = s.commandOf c
      · simp [hword]
      · simp [lookup_cons, beq_eq_false_iff_ne.mpr hword, hword]
    rw [hlast]
    constructor
    · rintro (⟨hd, hword⟩ | ⟨-, rfl, rfl⟩)
      · exact ⟨.inl hd, hword⟩
      · exact ⟨.inr rfl, rfl⟩
    · rintro ⟨hd | rfl, rfl⟩
      · exact .inl ⟨hd, rfl⟩
      · exact .inr ⟨hnone, rfl, rfl⟩
  · rw [h word d, mem_append, mem_singleton]
    constructor
    · exact fun ⟨hd, hword⟩ => ⟨.inl hd, hword⟩
    · rintro ⟨hd | rfl, hword⟩
      · exact ⟨hd, hword⟩
      · exact ⟨((h _ _).mp hsome).1, hword⟩

theorem commandTable_append_singleton :
    s.commandTable context (classes ++ [c]) = .ok table' ↔
      ∃ table, s.commandTable context classes = .ok table ∧
        CommandText.addCommand context table (s.commandOf c) c = .ok table' := by
  rw [commandTable, foldlM_append, bind_eq_ok_iff]
  simp [commandTable]

theorem lookup_commandTable (h : s.commandTable context classes = .ok table) :
    s.Enters classes table := by
  induction classes using List.reverseRecOn generalizing table with
  | nil =>
    cases h
    simp [Enters]
  | append_singleton classes c ih =>
    obtain ⟨before, hbefore, hadd⟩ := commandTable_append_singleton.mp h
    exact (ih hbefore).addCommand hadd

theorem exists_commandTable_iff :
    (∃ table, s.commandTable context classes = .ok table) ↔
      ∀ c ∈ classes, ∀ d ∈ classes, s.commandOf c = s.commandOf d → c = d := by
  constructor
  · rintro ⟨table, h⟩ c hc d hd hword
    have henters := lookup_commandTable h (s.commandOf d)
    exact Option.some.inj (((henters c).mpr ⟨hc, hword⟩).symm.trans ((henters d).mpr ⟨hd, rfl⟩))
  · intro hwords
    induction classes using List.reverseRecOn with
    | nil => exact ⟨[], rfl⟩
    | append_singleton classes c ih =>
      obtain ⟨table, htable⟩ := ih fun d hd e he =>
        hwords d (mem_append_left _ hd) e (mem_append_left _ he)
      simp only [commandTable_append_singleton, addCommand_eq_ok_iff]
      cases hlookup : table.lookup (s.commandOf c) with
      | none => exact ⟨_, table, htable, .inl ⟨hlookup, rfl⟩⟩
      | some other =>
        obtain ⟨hother, hword⟩ := (lookup_commandTable htable _ other).mp hlookup
        obtain rfl : other = c := hwords other (by simp [hother]) c (by simp) hword
        exact ⟨table, table, htable, .inr ⟨hlookup, rfl⟩⟩

theorem exists_withCommands_iff :
    (∃ t, s.withCommands = .ok t) ↔
      (∀ c ∈ s.classIds.filter fun c => (s.classAt c).root,
        ∀ d ∈ s.classIds.filter fun c => (s.classAt c).root,
          s.commandOf c = s.commandOf d → c = d) ∧
      ∀ c ∈ s.classIds, ∀ d ∈ s.childClasses c, ∀ e ∈ s.childClasses c,
        s.commandOf d = s.commandOf e → d = e := by
  have htables : (∃ t, s.withCommands = .ok t) ↔
      (∃ roots, s.commandTable "<root>" (s.classIds.filter fun c => (s.classAt c).root) =
        .ok roots) ∧
      ∃ tables, s.classIds.mapM (fun c => s.commandTable (s.className c) (s.childClasses c)) =
        .ok tables := by
    simp only [withCommands, bind_eq_ok_iff]
    constructor
    · rintro ⟨t, roots, hroots, tables, htables, -⟩
      exact ⟨⟨roots, hroots⟩, tables, htables⟩
    · rintro ⟨⟨roots, hroots⟩, tables, htables⟩
      exact ⟨_, roots, hroots, tables, htables, rfl⟩
  simp only [htables, exists_mapM_iff, exists_commandTable_iff]

theorem mem_childClasses_iff :
    d ∈ s.childClasses c ↔
      ∃ f ∈ s.containments c, ∃ target ∈ (s.featureAt f).target?, d ∈ s.subtypes target := by
  rw [childClasses, mem_flatMap]
  refine exists_congr fun f => and_congr Iff.rfl ?_
  cases (s.featureAt f).target? <;> simp

/-! ### Accepted schemas -/

section

variable (h : t.withCommands = .ok s)
include h

theorem classAt_of_withCommands (c : ClassId) :
    ∃ commands, s.classAt c = { t.classAt c with commands } ∧
      t.Enters (t.childClasses c) commands := by
  rw [withCommands] at h
  obtain ⟨roots, -, h⟩ := bind_eq_ok_iff.mp h
  obtain ⟨tables, htables, h⟩ := bind_eq_ok_iff.mp h
  cases h
  obtain ⟨hlength, htables⟩ := forall₂_iff_get.mp (mapM_eq_ok_iff.mp htables)
  rw [classIds, length_range] at hlength
  by_cases hc : c < t.classes.length
  · refine ⟨tables.get ⟨c, hlength ▸ hc⟩, ?_, ?_⟩
    · have hc' : c < tables.length := hlength ▸ hc
      simp [classAt, getD_eq_getElem?_getD, List.zip, List.getElem?_zipWith, hc, hc']
    · have htable := htables c (by simpa [classIds] using hc) (hlength ▸ hc)
      simp only [classIds, get_eq_getElem, getElem_range] at htable
      exact lookup_commandTable htable
  · have hc' : t.classes.length ≤ c := Nat.le_of_not_lt hc
    have hclass : t.classAt c = default := by
      simp [classAt, getD_eq_getElem?_getD, hc']
    refine ⟨[], ?_, ?_⟩
    · simp [classAt, getD_eq_getElem?_getD, hc', ← hlength]
      rfl
    · have hnone : t.childClasses c = [] := by
        rw [childClasses, containments, featuresOf, hclass]
        rfl
      simp [Enters, hnone]

theorem length_of_withCommands : s.classes.length = t.classes.length := by
  rw [withCommands] at h
  obtain ⟨roots, -, h⟩ := bind_eq_ok_iff.mp h
  obtain ⟨tables, htables, h⟩ := bind_eq_ok_iff.mp h
  cases h
  have hlength := (mapM_eq_ok_iff.mp htables).length_eq
  rw [classIds, length_range] at hlength
  simp [← hlength]

theorem classIds_of_withCommands : s.classIds = t.classIds := by
  rw [classIds, classIds, length_of_withCommands h]

theorem enters_rootCommands :
    t.Enters (t.classIds.filter fun c => (t.classAt c).root) s.rootCommands := by
  rw [withCommands] at h
  obtain ⟨roots, hroots, h⟩ := bind_eq_ok_iff.mp h
  obtain ⟨tables, -, h⟩ := bind_eq_ok_iff.mp h
  cases h
  exact lookup_commandTable hroots

theorem childClasses_of_withCommands (c : ClassId) : s.childClasses c = t.childClasses c := by
  have hfeatureAt : s.featureAt = t.featureAt := by
    funext f
    rw [featureAt, featureAt, (withCommands_spec h).1]
  have hclass (d : ClassId) : ∃ commands, s.classAt d = { t.classAt d with commands } :=
    (classAt_of_withCommands h d).imp fun _ h => h.1
  have hcontainments : s.containments c = t.containments c := by
    obtain ⟨_, hc⟩ := hclass c
    rw [containments, containments, featuresOf, featuresOf, hc, hfeatureAt]
  have hsubtypes : s.subtypes = t.subtypes := by
    funext target
    rw [subtypes, subtypes, classIds_of_withCommands h]
    refine filter_congr fun d _ => ?_
    obtain ⟨_, hd⟩ := hclass d
    rw [conforms, conforms, hd]
  rw [childClasses, childClasses, hcontainments, hfeatureAt, hsubtypes]

end

theorem Accepted.classForCommand?_eq_some_iff (h : s.Accepted) :
    s.classForCommand? word (some c) = some d ↔ d ∈ s.childClasses c ∧ s.commandOf d = word := by
  obtain ⟨_, _, _, _, draft, -, -, h⟩ := h.exists_draft
  obtain ⟨commands, hc, henters⟩ := classAt_of_withCommands h c
  obtain ⟨_, hd, -⟩ := classAt_of_withCommands h d
  rw [classForCommand?, hc, commandOf, hd, childClasses_of_withCommands h]
  exact henters word d

theorem Accepted.classForCommand?_none_eq_some_iff (h : s.Accepted) :
    s.classForCommand? word none = some d ↔
      (d ∈ s.classIds ∧ (s.classAt d).root = true) ∧ s.commandOf d = word := by
  obtain ⟨_, _, _, _, draft, -, -, h⟩ := h.exists_draft
  obtain ⟨_, hd, -⟩ := classAt_of_withCommands h d
  have henters := enters_rootCommands h word d
  rw [mem_filter] at henters
  rw [classForCommand?, commandOf, hd, classIds_of_withCommands h]
  exact henters

end Schema

end CommandText
