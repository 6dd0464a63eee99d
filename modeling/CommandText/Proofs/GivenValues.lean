import CommandText.Proofs.AddressedFeatures
import CommandText.Proofs.BoundArguments
import CommandText.Proofs.RealizedStatements
import CommandText.Proofs.SparedValues

/-!
# Values from arguments

Where a text is turned into elements without a problem, each element holds what the arguments of its
statement say, and nothing else: a feature holds the values that the tokens of one argument denote,
in their order, or nothing if no argument addresses it. Only containments are filled from the block,
and the location is written over whatever stands in the attributes that are reserved for it.
-/

namespace CommandText

open List Model BuildM

namespace Schema

variable {s : Schema} {c : ClassId} {position : Nat} {given : List FeatureId}
  {arguments : List Argument} {f : FeatureId}

/-- A list of values is what the arguments of a statement give a feature: the tokens of the one
argument that addresses it denote the values, one by one, or there is no such argument and no
value. -/
inductive HoldsGiven (s : Schema) (c : ClassId) (arguments : List Argument) (f : FeatureId) :
    List Value → Prop
  | given {i : Nat} {a : Argument} {vs : List Value} (ha : arguments[i]? = some a)
      (haddresses : s.Addresses c arguments i f)
      (honly : ∀ j, s.Addresses c arguments j f → j = i)
      (hvalues : List.Forall₂ (fun t v => s.Denotes (s.featureAt f).kind t.lexeme v)
        a.value.tokens vs) : HoldsGiven s c arguments f vs
  | absent (h : ∀ i, ¬s.Addresses c arguments i f) : HoldsGiven s c arguments f []

theorem TakesArguments.nodup (h : s.TakesArguments c position given arguments)
    (hgiven : given.Nodup) : (given ++ s.addressed c position arguments).Nodup := by
  induction h with
  | nil =>
    rw [addressed, destinations, filterMap_nil, append_nil]
    exact hgiven
  | cons haddress hnew _ _ _ ih =>
    rw [addressed_of_ok haddress, nodup_middle, ← cons_append]
    exact ih (nodup_cons.mpr ⟨hnew, hgiven⟩)

theorem TakesArguments.acceptsAll (h : s.TakesArguments c position given arguments) {a : Argument}
    (hmem : (.ok f, a) ∈ s.destinations c position arguments) :
    s.AcceptsAll f a.value.tokens (s.acceptedValues f a.value.tokens) := by
  induction h with
  | nil => cases hmem
  | cons haddress hnew hcount hvalues _ ih =>
    rw [destinations, haddress] at hmem
    rcases mem_cons.mp hmem with heq | hmem
    · cases heq
      rwa [acceptedValues_eq hcount hvalues]
    · exact ih hmem

theorem TakesArguments.holdsGiven (hs : s.Accepted) (h : s.TakesArguments c 0 [] arguments)
    (f : FeatureId) :
    s.HoldsGiven c arguments f ((s.argumentSlots c 0 [] arguments []).get f) := by
  have hnodup : (s.addressed c 0 arguments).Nodup := h.nodup nodup_nil
  by_cases hf : ∃ i, s.Addresses c arguments i f
  · obtain ⟨i, hi⟩ := hf
    obtain ⟨a, ha⟩ := hs.addresses_iff.mp hi
    have hmem := mem_of_getElem? ha
    have hargument : arguments[i]? = some a := by
      rw [getElem?_destinations] at ha
      obtain ⟨a', ha', heq⟩ := Option.map_eq_some_iff.mp ha
      obtain rfl : a' = a := congrArg Prod.snd heq
      exact ha'
    rw [get_argumentSlots_of_mem_destinations hnodup hmem]
    refine .given hargument hi (fun j hj => hs.nodup_addressed_iff.mp hnodup f j i hj hi) ?_
    exact (h.acceptsAll hmem).imp fun _ _ => accept_eq_ok_iff.mp
  · rw [not_exists] at hf
    have hnone : ∀ a, (.ok f, a) ∉ s.destinations c 0 arguments := by
      intro a ha
      obtain ⟨i, hi⟩ := mem_iff_getElem?.mp ha
      exact hf i (hs.addresses_iff.mpr ⟨a, hi⟩)
    rw [get_argumentSlots_of_not_addressed hnodup hnone]
    exact .absent hf

end Schema

variable {τ : Type} {s : Schema} {origin : Origin}

/-! ### Elements and their arguments -/

/-- Elements hold what the arguments of their statements give, except in containments and in
attributes that are reserved for the location. -/
def Model.Bound (s : Schema) (m : Model) (statements : List (Statement ElementId)) : Prop :=
  ∀ k statement, statements[k]? = some statement →
    s.TakesArguments (m.classOf k) 0 [] statement.arguments ∧
    ∀ f, (s.featureAt f).isContainment = false → ¬s.IsReserved f →
      m.values k f = (s.argumentSlots (m.classOf k) 0 [] statement.arguments []).get f

theorem bound_furnish :
    KeptAtEnd s origin fun (b : Building τ) told => b.model.Bound s told := by
  intro c statement b told hsize hbound hproblems k st hk
  have hspares : (begin s c statement b).Spares b.model.size
      (fun f => (s.featureAt f).isContainment = false ∧ ¬s.IsReserved f)
      (conclude s origin none c statement b) :=
    spares_furnish (fun f hf => hf.1) (fun f hf h => absurd h hf.2) (by simp) origin c statement b
  rw [hspares.model.classOf, classOf_begin]
  rcases getElem?_concat_cases hk with ⟨hlt, hk⟩ | ⟨rfl, rfl⟩
  · have hne : k ≠ b.model.size := Nat.ne_of_lt (hsize ▸ hlt)
    obtain ⟨htakes, hvalues⟩ := hbound k st hk
    rw [if_neg hne]
    refine ⟨htakes, fun f hf hreserved => ?_⟩
    rw [hspares.model.values k f fun h => absurd h hne, values_begin, if_neg hne]
    exact hvalues f hf hreserved
  · rw [← hsize, if_pos rfl]
    refine ⟨takesArguments_of_furnish c st hproblems, fun f hf hreserved => ?_⟩
    rw [hspares.model.values _ f fun _ => ⟨hf, hreserved⟩, values_begin, if_pos rfl]

/-! ### A whole text -/

/-- If a text is turned into elements without a problem, then each statement has its element, and
each feature of the element that is given as an argument holds what the arguments of the statement
give it. Attributes that are reserved for the location hold the location. -/
theorem holdsGiven_instantiateWith (hs : s.Accepted) (origin : Origin) (state : τ)
    (text : List Char) (hproblems : (instantiateWith s origin none state {} text).problems = []) :
    let r := instantiateWith s origin none state {} text
    let statements := Entry.statements (parse (tokenize s.pattern text)).entries
    r.elements = List.range statements.length ∧ r.model.Realizes s statements ∧
      ∀ k statement, statements[k]? = some statement →
        ∀ f ∈ s.arguments (r.model.classOf k), ¬s.IsReserved f →
          s.HoldsGiven (r.model.classOf k) statement.arguments f (r.model.values k f) := by
  intro r statements
  obtain ⟨hmodel, -, hbound⟩ : r.model.Realizes s statements ∧ _ ∧ r.model.Bound s statements :=
    kept_text hs bound_furnish nofun hproblems
  obtain ⟨-, helements, -⟩ :=
    sound_instantiateWith hs origin CommentKeeper.tame_of_mem_none state text
  refine ⟨?_, hmodel, fun k statement hk f hf hreserved => ?_⟩
  · rw [← hmodel.size]
    exact helements
  · obtain ⟨htakes, hvalues⟩ := hbound k statement hk
    rw [hvalues f (s.mem_arguments_iff.mp hf).2 hreserved]
    exact htakes.holdsGiven hs f

/-- A parcel whose arguments stand in another order than its features, and one inside it. -/
def parcelText : List Char :=
  "Parcel route: [/a, b], \"crate\", fragile: true, 7 \x7b\nParcel \"lid\"\n\x7d\n".toList

theorem holdsGiven_parcelText : ∃ s, parcels.build = .ok s ∧
    (instantiateWith s {} none () {} parcelText).problems = [] ∧
    (instantiateWith s {} none () {} parcelText).model.values 1 1 = [.integer 7] ∧
    (instantiateWith s {} none () {} parcelText).model.values 1 2 = [.proxy "/a", .proxy "b"] ∧
    (s.IsReserved 4 ∧
      (instantiateWith s {} none () {} parcelText).model.values 1 4 = [.integer 1]) ∧
    ∀ k statement, (Entry.statements (parse (tokenize s.pattern parcelText)).entries)[k]? =
        some statement →
      ∀ f ∈ s.arguments ((instantiateWith s {} none () {} parcelText).model.classOf k),
        ¬s.IsReserved f →
          s.HoldsGiven ((instantiateWith s {} none () {} parcelText).model.classOf k)
            statement.arguments f
            ((instantiateWith s {} none () {} parcelText).model.values k f) := by
  refine ⟨_, rfl, by decide +kernel, by decide +kernel, by decide +kernel, by decide +kernel, ?_⟩
  exact (holdsGiven_instantiateWith ⟨parcels, rfl⟩ {} () parcelText (by decide +kernel)).2.2

end CommandText
