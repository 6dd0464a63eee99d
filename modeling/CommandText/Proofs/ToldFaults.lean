import CommandText.Proofs.GivenUp
import CommandText.Proofs.SoundRuns

/-!
# Which faults are told

Problems with the place of a child are told when the children of a statement are placed, and nowhere
else: not by reading, and not by the work on arguments, locations and comments.
-/

namespace CommandText

open List Fault

variable {fault : Fault}

/-- Whether a child is said not to fit where it stands. -/
def Fault.concernsPlace : Fault → Bool
  | unknownRole _ | noChildrenIn _ | notContained _ | ambiguousRole | wrongClass _ _ _
  | singleChildOnly _ | containedElsewhere => true
  | _ => false

/-! ### Reading -/

theorem Reading.Reaches.concernsPlace {r r' : Reading} (h : r.Reaches r')
    (hr : ∀ m ∈ r.log, m.fault.concernsPlace = false) :
    ∀ m ∈ r'.log, m.fault.concernsPlace = false := by
  induction h with
  | refl => exact hr
  | @tail s _ _ hstep ih =>
    cases hstep with
    | advance | skipLine => simpa using ih
    | looseNote line => exact forall_mem_cons.mpr ⟨rfl, ih⟩
    | consume expected =>
      have hc := Reading.consumed expected s
      generalize s.consume expected = c at hc ⊢
      cases hc with
      | givenUp | fits => exact ih
      | atEnd | bad => exact forall_mem_cons.mpr ⟨rfl, ih⟩
      | missed =>
        rw [Reading.fail]
        split
        · exact forall_mem_cons.mpr ⟨rfl, ih⟩
        · exact forall_mem_cons.mpr ⟨rfl, forall_mem_cons.mpr ⟨rfl, ih⟩⟩

theorem concernsPlace_parse (tokens : List Token) :
    ∀ p ∈ (parse tokens).problems, p.fault.concernsPlace = false := by
  have hreach : Reading.Reaches { rest := tokens } (readAll tokens).2 :=
    ReadM.Moves.reaches (m := ReadM.items none (2 * tokens.length + 2)) _
  intro p hp
  obtain ⟨m, hm, rfl⟩ := mem_map.mp hp
  exact hreach.concernsPlace (by simp) m (mem_reverse.mp (mem_filter.mp hm).1)

theorem concernsPlace_of_command {s : Schema} {word : String} {isRoot : Bool} {fault : Fault}
    (h : fault = s.missingCommand word isRoot ∨ ∃ name, fault = .abstractClass word name) :
    fault.concernsPlace = false := by
  rcases h with rfl | ⟨name, rfl⟩
  · rw [Schema.missingCommand]
    split
    · rfl
    · split <;> rfl
  · rfl

/-! ### The work on an element -/

/-- The problems told so far that are of a kind. -/
def Building.told {τ : Type} (kind : Fault → Bool) (b : Building τ) : List Problem :=
  b.problems.filter (kind ·.fault)

namespace BuildM

variable {τ α β : Type} {kind : Fault → Bool}

/-- No problem of a kind is told. -/
def Avoids (kind : Fault → Bool) (x : BuildM τ α) : Prop := ∀ b, (x b).2.told kind = b.told kind

theorem Avoids.pure (a : α) : Avoids kind (pure a : BuildM τ α) := fun _ => rfl

theorem Avoids.bind {x : BuildM τ α} {f : α → BuildM τ β} (hx : Avoids kind x)
    (hf : ∀ a, Avoids kind (f a)) : Avoids kind (x >>= f) := fun b => (hf _ _).trans (hx b)

theorem Avoids.forM {f : α → BuildM τ Unit} (hf : ∀ a, Avoids kind (f a)) (as : List α) :
    Avoids kind (as.forM f) := by
  induction as with
  | nil => exact .pure ()
  | cons a as ih => exact .bind (hf a) fun _ => ih

theorem told_problem (fault : Fault) (line : Nat) (b : Building τ) :
    (problem fault line b).2.told kind =
      b.told kind ++ if kind fault then [⟨fault, line, none⟩] else [] := by
  show (b.problems ++ [(⟨fault, line, none⟩ : Problem)]).filter (fun p => kind p.fault) = _
  rw [filter_append, Building.told]
  cases hkind : kind fault <;> simp [hkind]

theorem avoids_problem (h : kind fault = false) (line : Nat) :
    Avoids kind (problem fault line : BuildM τ Unit) := by
  intro b
  rw [told_problem, h, if_neg Bool.false_ne_true, append_nil]

theorem Avoids.mono {x : BuildM τ α} {part : Fault → Bool} (hx : Avoids kind x)
    (h : ∀ fault, part fault = true → kind fault = true) : Avoids part x := by
  have hpart (b : Building τ) : b.told part = (b.told kind).filter (part ·.fault) := by
    rw [Building.told, Building.told, filter_filter]
    refine filter_congr fun p _ => ?_
    cases hp : part p.fault with
    | false => rfl
    | true => rw [h _ hp]; rfl
  intro b
  rw [hpart, hpart, hx b]

variable (s : Schema) (id : ElementId)

theorem concernsPlace_of_accept {f : Feature} {t : Token} (h : s.accept f t = .error fault) :
    fault.concernsPlace = false := by
  rw [Schema.accept, Schema.convert] at h
  repeat' split at h
  all_goals cases h <;> rfl

theorem concernsPlace_of_address {c : ClassId} {position : Nat} {label : Option Token}
    (h : s.address c position label = .error fault) : fault.concernsPlace = false := by
  unfold Schema.address at h
  repeat' split at h
  all_goals cases h <;> rfl

theorem avoids_bindValue (f : FeatureId) (t : Token) :
    Avoids concernsPlace (bindValue s id f t : BuildM τ Unit) := by
  rw [bindValue]
  cases hvalue : s.accept (s.featureAt f) t with
  | error fault => exact avoids_problem (concernsPlace_of_accept s hvalue) _
  | ok value =>
    intro b
    cases value <;> rfl

theorem avoids_bindArguments (arguments : List Argument) (line : Nat) :
    Avoids concernsPlace (bindArguments s id arguments line : BuildM τ Unit) := by
  refine .bind (fun _ => rfl) fun m => ?_
  generalize m.classOf id = c
  generalize (0 : Nat) = position
  generalize ([] : List FeatureId) = given
  induction arguments generalizing position given with
  | nil => exact .pure ()
  | cons a rest ih =>
    rw [bindRest]
    cases haddress : s.address c position a.label with
    | error fault =>
      exact .bind (avoids_problem (concernsPlace_of_address s haddress) _) fun _ => ih _ _
    | ok f =>
      simp only
      split
      · exact .bind (avoids_problem rfl _) fun _ => ih _ _
      · refine .bind ?_ fun _ => ih _ _
        rw [bindValues]
        split
        · exact avoids_problem rfl _
        · exact .forM (avoids_bindValue s id f) _

theorem avoids_setLocation (origin : Origin) (line : Nat) :
    Avoids concernsPlace (setLocation s origin id line : BuildM τ Unit) :=
  relates_setLocation (R := fun b b' => b'.told _ = b.told _) (fun _ => rfl)
    (fun h h' => h'.trans h)
    (fun _ _ _ _ _ _ _ => rfl) origin line

theorem avoids_offer (ask : StateM (Model × τ) Bool) (h : fault.concernsPlace = false)
    (line : Nat) :
    Avoids concernsPlace (do unless ← offer ask do problem fault line) := by
  refine .bind (fun _ => rfl) fun taken => ?_
  cases taken with
  | true => exact .pure ()
  | false => exact avoids_problem h line

theorem avoids_offerComments (keeper : Option (CommentKeeper τ)) (comments : List Comment)
    (note : Option String) (line : Nat) :
    Avoids concernsPlace (offerComments s keeper id comments note line) :=
  relates_offerComments (R := fun b b' => b'.told _ = b.told _) (fun _ => rfl)
    (fun h h' => h'.trans h)
    (fun k _ c _ => avoids_offer (k.comment s (some id) c) rfl c.line)
    (fun k _ text => avoids_offer (k.note s id text) rfl line) (avoids_problem rfl line)

end BuildM

end CommandText
