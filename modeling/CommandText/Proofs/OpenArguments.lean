import CommandText.Proofs.ArgumentFronts
import CommandText.Proofs.OpenReading

/-!
# Reading an argument list that breaks off

In front of one of its values an argument list breaks off: a value is called for, but the line ends,
or the list that the value stands in is closed. The value is missed, and the command is read with
the arguments in front of it.
-/

namespace CommandText

open Token List

variable {inBlock : Bool} {rows : List Row} {lead tokens : List Token} {bound : Nat}
  {row : Option Row} {l role role' : Option Token} {r : Row} {w : Token}

namespace ReadM

open Reading Form

/-! ### Parts that break off -/

section Rounds

variable {α : Type} {begins : Token → Bool} {one : ReadM (Option α)}
  {One : List Token → α → List Token → Prop}
variable {us : List Token} {bound : Nat} {as : List α}

theorem Leads.commaRounds_stop {rest : List Token} (hrest : startsWith begins rest = false)
    (bound : Nat) (isFirst : Bool) :
    Leads (At rest) (commaRounds begins one bound isFirst) [] (At rest) := by
  cases bound with
  | zero => exact .pure [] _
  | succ bound =>
    rw [commaRounds_succ]
    refine .nextIs_bind (fun _ hr => hr) ?_
    rw [hrest]
    exact .pure [] _

theorem Leads.round {P Q R : Reading → Prop} {a : Option α} (ha : Leads P one a Q)
    (has : Leads Q (commaRounds begins one bound false) as R) :
    Leads P (partRounds begins one bound) (a.toList ++ as) R :=
  ha.bind (has.bind (.pure _ _))

variable (hcomma : ∀ c : Token, c.isPunct .comma = true → begins c = true)
  (hone : ∀ {input a rest}, One input a rest → Leads (Quiet input) one (some a) (Quiet rest))
  {move : Nat → α → α} (hmove : Movable move One) {x rest : List Token} {last : Option α}
  (hx : Leads (Quiet x) one last (At rest)) (hrest : startsWith begins rest = false)
include hcomma hone hmove hx hrest

theorem Leads.parts (hparts : Parts One us as) (hbound : as.length ≤ bound) :
    Leads (Quiet (us ++ x)) (partRounds begins one bound) (as ++ last.toList) (At rest) := by
  induction hparts generalizing bound with
  | nil =>
    have hround := Leads.round hx (.commaRounds_stop hrest bound false)
    rwa [append_nil] at hround
  | @cons w a c us as ha hc _ ih =>
    obtain ⟨bound, rfl⟩ := Nat.exists_eq_add_one_of_ne_zero (Nat.ne_zero_of_lt hbound)
    obtain ⟨w, rfl, -, hkeep, -⟩ := hmove ha
    rw [append_nil, append_assoc, cons_append]
    refine Leads.round (hone (hkeep _)) ?_
    rw [commaRounds_succ]
    refine .nextIs_bind (fun _ => At.of_quiet) ?_
    rw [startsWith_cons, hcomma c hc]
    exact (Leads.consume_quiet (e := .punct .comma) hc _).discard.bind
      (ih (Nat.le_of_succ_le_succ hbound))

theorem Leads.commaRounds
    (hstarts : ∀ {input a rest}, One input a rest → startsWith begins input = true)
    (hlast : startsWith begins x = true ∨ last = none ∧ x = rest) (hparts : Parts One us as)
    (hbound : as.length ≤ bound) :
    Leads (Quiet (us ++ x)) (commaRounds begins one (bound + 1) true) (as ++ last.toList)
      (At rest) := by
  have hround := Leads.parts hcomma hone hmove hx hrest hparts hbound
  have hbegins : startsWith begins (us ++ x) = true ∨ as ++ last.toList = [] ∧ us ++ x = rest := by
    cases hparts with
    | nil =>
      rcases hlast with hlast | ⟨rfl, rfl⟩
      · exact .inl hlast
      · exact .inr ⟨rfl, rfl⟩
    | cons ha =>
      obtain ⟨w, rfl, -, hkeep, -⟩ := hmove ha
      rw [append_nil, append_assoc]
      exact .inl (hstarts (hkeep _))
  rcases hbegins with hbegins | ⟨has, hus⟩
  · rw [commaRounds_succ]
    refine .nextIs_bind (fun _ => At.of_quiet) ?_
    rw [hbegins]
    exact hround
  · rw [has, hus]
    exact (Leads.commaRounds_stop hrest _ true).mono fun _ => At.of_quiet

end Rounds

/-! ### Values and arguments -/

section Arguments

variable {n : Token} {rest : List Token}
variable {closers us : List Token} {list : Option (List Token)}

theorem startsArgument_newline (hn : n.isKind .newline = true) : startsArgument n = false := by
  have hkind := isKind_iff.mp hn
  simp [startsArgument, isValue, isKind, isPunct_eq_false (t := n) (by simp [hkind]),
    hkind, TokenKind.isValue, TokenKind.values]

theorem Leads.value_missed {t : Token} (hvalue : t.isValue = false) (hkind : t.kind ≠ .error)
    (rest : List Token) :
    Leads (Quiet (t :: rest)) (ReadM.consume valueKinds) none (At (t :: rest)) :=
  .missed (by rw [any_fits_valueKinds, hvalue]) hkind rest

theorem Leads.values_front {vs : List Token} (h : Parts ValueToken us vs) {c : Token}
    (hc : c.isPunct .closeBracket = true) {bound : Nat} (hbound : vs.length ≤ bound) :
    Leads (Quiet (us ++ c :: rest)) (ReadM.values (bound + 1) true) vs (At (c :: rest)) := by
  have hkind := kind_of_isPunct hc
  have hvalue : c.isValue = false := by
    simp [isValue, hkind, TokenKind.isValue, TokenKind.values]
  have hstop : startsWith continuesList (c :: rest) = false := by
    simp [continuesList, hvalue, isKind, hkind, isPunct_of_isPunct hc]
  have hvalues := Leads.commaRounds (fun c hc => by simp [continuesList, hc])
    (fun ha => (Exact.value _).leads ⟨_, rfl, ha⟩) ValueToken.movable
    (Leads.value_missed hvalue (by simp [hkind]) rest) hstop ValueToken.starts
      (.inr ⟨rfl, rfl⟩) h hbound
  rwa [Option.toList_none, append_nil, ← values_eq] at hvalues

theorem Leads.argumentValue_front (h : ValueFront us list)
    (hlength : closers.length = list.toList.length)
    (hclosers : ∀ c ∈ closers, c.isPunct .closeBracket = true) (hn : n.isKind .newline = true) :
    Leads (Quiet (us ++ (closers ++ n :: rest))) argumentValue (list.map .list)
      (At (n :: rest)) := by
  have hkind := isKind_iff.mp hn
  cases h with
  | single =>
    obtain rfl := length_eq_zero_iff.mp hlength
    refine .nextIs_bind (fun _ => At.of_quiet) ?_
    rw [nil_append, nil_append, startsWith_cons, isPunct_eq_false (by simp [hkind])]
    have hvalue : n.isValue = false := by
      simp [isValue, hkind, TokenKind.isValue, TokenKind.values]
    exact (Leads.value_missed hvalue (by simp [hkind]) rest).bind (.pure _ _)
  | @list o us vs ho h =>
    obtain ⟨c, rfl⟩ := length_eq_one_iff.mp hlength
    have hc := hclosers c (by simp)
    refine .nextIs_bind (fun _ => At.of_quiet) ?_
    rw [cons_append, startsWith_cons, ho]
    refine (Leads.consume_quiet (e := .punct .openBracket) ho _).discard.bind ?_
    refine .get_bind fun r hr => ?_
    have hvalues : Leads (Eq r) (ReadM.values (r.rest.length + 1) true) vs
        (At (c :: n :: rest)) := by
      refine (Leads.values_front h hc ?_).mono fun _ heq => heq ▸ hr
      have hle := h.length_le
      obtain ⟨line, rfl⟩ := hr
      simp
      omega
    refine hvalues.bind ?_
    exact (Leads.consume (e := .punct .closeBracket) hc _).discard.bind (.pure _ _)

/-- The argument that is read if it breaks off behind its label and the values of its list. -/
def brokenOff (label : Option Token) (list : Option (List Token)) : Option Argument :=
  match label with
  | some l => some ⟨some l, (list.map .list).getD (.list [])⟩
  | none => (list.map .list).map fun value => ⟨none, value⟩

theorem Leads.argument_front {label : Option Token} (hlabel : ∀ l ∈ label, l.isKind .label = true)
    (h : ValueFront us list) (hlength : closers.length = list.toList.length)
    (hclosers : ∀ c ∈ closers, c.isPunct .closeBracket = true) (hn : n.isKind .newline = true)
    (rest : List Token) :
    Leads (Quiet (label.toList ++ us ++ (closers ++ n :: rest))) argument (brokenOff label list)
        (At (n :: rest)) ∧
      (startsWith startsArgument (label.toList ++ us ++ (closers ++ n :: rest)) = true ∨
        brokenOff label list = none ∧
          label.toList ++ us ++ (closers ++ n :: rest) = n :: rest) := by
  cases label with
  | some l =>
    have hl := hlabel l rfl
    refine ⟨?_, .inl ?_⟩
    · refine .nextIs_bind (fun _ => At.of_quiet) ?_
      rw [Option.toList_some, append_assoc, singleton_append, startsWith_cons, hl]
      refine (Leads.take l _).bind ?_
      exact (argumentValue_front h hlength hclosers hn).bind (.pure _ _)
    · rw [Option.toList_some, append_assoc, singleton_append, startsWith_cons]
      simp [startsArgument, hl]
  | none =>
    refine ⟨.nextIs_bind (fun _ => At.of_quiet) ?_, ?_⟩
    · have hother : startsWith (·.isKind .label)
          (Option.toList none ++ us ++ (closers ++ n :: rest)) = false := by
        cases h with
        | single =>
          obtain rfl := length_eq_zero_iff.mp hlength
          simp [isKind, isKind_iff.mp hn]
        | list ho => simp [isKind, kind_of_isPunct ho]
      rw [hother]
      exact (argumentValue_front h hlength hclosers hn).bind (.pure _ _)
    · cases h with
      | single =>
        obtain rfl := length_eq_zero_iff.mp hlength
        exact .inr ⟨rfl, rfl⟩
      | list ho => exact .inl (by simp [startsArgument, ho])

end Arguments

theorem Leads.command_leaf {members : ReadM Body} {w n : Token} {input : List Token}
    {args : List Argument} {after : List Token} (hw : w.isKind .identifier = true)
    (ha : Leads (Quiet input) arguments args (At (n :: after))) (hn : n.isKind .newline = true) :
    Leads (Quiet (w :: input)) (ReadM.command members [] [])
      [.statement w args [] (some ⟨[], none⟩)] (At after) := by
  refine (Leads.consume_quiet (e := .kind .identifier) hw input).bind (ha.bind ?_)
  refine .nextIs_bind (fun _ hr => hr) ?_
  rw [startsWith_cons, isPunct_eq_false (by simp [isKind_iff.mp hn])]
  refine (Leads.pure ([], []) _).bind (.closeLine hn after fun r hr => ?_)
  show [Entry.statement w args [] (if r.halted then none else _)] = _ ∧ At after r
  rw [hr.2]
  exact ⟨rfl, hr⟩

/-- Tokens that are read as arguments up to the end of their line, whatever is missed. -/
def EndsArguments (tokens : List Token) : Prop :=
  ∃ args, ∀ n rest, n.isKind .newline = true →
    Leads (Quiet (tokens ++ n :: rest)) arguments args (At (n :: rest))

end ReadM

open ReadM Reading Form

section Front

variable {us closers : List Token} {before : List Argument} {label : Option Token}
  {list : Option (List Token)} (h : Front us before label list)
  (hlength : closers.length = list.toList.length)
  (hclosers : ∀ c ∈ closers, c.isPunct .closeBracket = true)
include h hlength hclosers

theorem Form.Front.leads_arguments {n : Token} (hn : n.isKind .newline = true)
    (rest : List Token) : Leads (Quiet (us ++ closers ++ n :: rest)) arguments
      (before ++ (brokenOff label list).toList) (At (n :: rest)) := by
  refine .get_bind fun r hr => ?_
  obtain ⟨hparts, hlabel, hvalue⟩ := h
  obtain ⟨hx, hlast⟩ := Leads.argument_front hlabel hvalue hlength hclosers hn rest
  have hrest : startsWith startsArgument (n :: rest) = false := startsArgument_newline hn
  have hfirst := Leads.commaRounds (fun c hc => by simp [startsArgument, hc])
    (fun ha => (Exact.argument _).leads ⟨_, rfl, ha⟩) OneArgument.movable hx hrest
    OneArgument.starts hlast hparts
    (show before.length ≤ r.rest.length by
      have hle := hparts.length_le
      obtain ⟨line, rfl⟩ := hr
      simp
      omega)
  rw [← append_assoc, ← append_assoc, ← argumentRounds_eq] at hfirst
  exact hfirst.mono fun _ heq => heq ▸ hr

theorem Form.Front.endsArguments : EndsArguments (us ++ closers) :=
  ⟨_, fun _ rest hn => h.leads_arguments hlength hclosers hn rest⟩

end Front

theorem finishes_line (hrole : role'.map text = role.map text)
    (hlead : Lead inBlock role row lead l) (hrows : List.Forall₂ Row.Copy row.toList rows)
    (hw : w.isKind .identifier = true) (hargs : EndsArguments tokens)
    (htokens : r.tokens = (lead ++ [w]).map (onLine r.number) ++ tokens) (hbound : 1 < bound)
    (args : List Argument) :
    ∃ es comments stage, Stage.Kin ⟨l.or role, w, args⟩ stage ∧ Thin role' es [stage] ∧
      Finishes inBlock bound (Row.stream (rows ++ [r])) (es, comments) := by
  obtain ⟨bound, rfl⟩ : ∃ b, bound = b + 2 := ⟨bound - 2, by omega⟩
  obtain ⟨args', hargs⟩ := hargs
  have hs (after : List Token) : ∃ mid, Row.stream [r] ++ after =
        lead.map (onLine r.number) ++ w.onLine r.number :: mid ∧
      ∀ isLoose, Leads (Quiet (w.onLine r.number :: mid)) (statement (bound + 1) isLoose)
        [.statement (w.onLine r.number) args' [] (some ⟨[], none⟩)] (At after) := by
    refine ⟨tokens ++ r.newline :: after, ?_, fun isLoose => ?_⟩
    · simp [Row.stream, htokens]
    · exact .statement isLoose hw (.command_leaf hw (hargs _ _ rfl) rfl)
  obtain ⟨es, comments, role'', hrole'', hthin, hfinishes⟩ := finishes_lead hrole hlead hrows hw hs
  rw [Row.stream_append]
  exact ⟨es, comments, ⟨role'', w.onLine r.number, args'⟩, ⟨hrole'', rfl⟩, hthin .here, hfinishes⟩

theorem Framed.finishes_line {frames : List Frame} {stages : List Stage}
    (h : Framed inBlock role frames row stages)
    (hlead : Lead (innermost inBlock role frames).1 (innermost inBlock role frames).2 row lead l)
    (hrole : role'.map text = role.map text) {shut : List Row}
    (hrows : List.Forall₂ Row.Copy (openRows frames row) rows)
    (hshut : List.Forall₂ Frame.ClosedBy frames shut) (hw : w.isKind .identifier = true)
    (hargs : EndsArguments tokens)
    (htokens : r.tokens = (lead ++ [w]).map (onLine r.number) ++ tokens)
    (hbound : 1 + 2 * frames.length < bound) (args : List Argument) :
    ∃ es comments stages', List.Forall₂ Stage.Kin
        (stages ++ [⟨l.or (innermost inBlock role frames).2, w, args⟩]) stages' ∧
      Thin role' es stages' ∧
      Finishes inBlock bound (Row.stream (rows ++ [r]) ++ Row.stream shut.reverse)
        (es, comments) := by
  rw [openRows_eq_append] at hrows
  obtain ⟨rows, labels, rfl, hrows, hlabels⟩ := exists_append_of_forall₂ hrows
  have hinside (role' : Option Token) (bound : Nat)
      (hrole : role'.map text = (innermost inBlock role frames).2.map text)
      (hbound : 1 < bound) : ∃ es comments inner,
        List.Forall₂ Stage.Kin [⟨l.or (innermost inBlock role frames).2, w, args⟩] inner ∧
        Thin role' es inner ∧ Finishes (innermost inBlock role frames).1 bound
          (Row.stream (labels ++ [r])) (es, comments) := by
    obtain ⟨es, comments, stage, hkin, hthin, hfinishes⟩ :=
      CommandText.finishes_line hrole hlead hlabels hw hargs htokens hbound args
    exact ⟨es, comments, [stage], .cons hkin .nil, hthin, hfinishes⟩
  obtain ⟨es, comments, stages', inner, halike, hkin, hthin, hfinishes⟩ :=
    h.finishes_around hinside hrole hrows hshut hbound
  rw [append_assoc]
  exact ⟨es, comments, stages' ++ inner,
    rel_append (halike.imp fun _ _ h => h.toKin) hkin, hthin, hfinishes⟩

end CommandText
