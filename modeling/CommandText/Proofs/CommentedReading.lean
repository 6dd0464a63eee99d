import CommandText.Proofs.CommentedTokens
import CommandText.Proofs.TwinReading
import CommandText.Proofs.Visiting

/-!
# Reading with a comment behind a line

A text and the same text with a comment behind one of its lines are read to the same entries, apart
from the comments of statements. So a visitor that does not look at those cannot tell the texts
apart. The readers are taken one after the other: each keeps the two readings side by side, and each
line begins where both see the same token.
-/

namespace CommandText

variable {bound : Nat} {expected : List Expected}

/-! ### Entries -/

/-- A visitor that does not look at the comments of statements. -/
def Visitor.Unheeding {σ Scope α : Type} (v : Visitor σ Scope α) : Prop :=
  ∀ (x : Statement α) (comments : List Comment), v.leave { x with comments } = v.leave x

namespace Entry

variable {σ Scope α : Type} {v : Visitor σ Scope α} {es es' fs fs' : List Entry}

/-- Entries that a visitor cannot tell apart. -/
def Alike (v : Visitor σ Scope α) (es es' : List Entry) : Prop :=
  ∀ enclosing, visitAll v enclosing es = visitAll v enclosing es'

theorem Alike.refl (es : List Entry) : Alike v es es := fun _ => rfl

theorem Alike.append (h : Alike v es es') (h' : Alike v fs fs') :
    Alike v (es ++ fs) (es' ++ fs') := by
  intro enclosing
  funext st
  rw [visitAll_append, visitAll_append, h enclosing, h' enclosing]

theorem Alike.role (label : Token) (list : Bool) (h : Alike v es es') :
    Alike v [.role label list es] [.role label list es'] := by
  intro enclosing
  simp only [visitAll, visit, h enclosing]

theorem Alike.statement (hv : v.Unheeding) (command : Token) (arguments : List Argument)
    (h : Alike v es es') (comments comments' : List Comment) (note : Option String)
    (isGone : Bool) :
    Alike v [.statement command arguments es (if isGone then none else some ⟨comments, note⟩)]
      [.statement command arguments es' (if isGone then none else some ⟨comments', note⟩)] := by
  intro enclosing
  have hleave (members : List (Member α)) (scope : Scope) :
      v.leave ⟨command, arguments, members, comments, note, enclosing.isNone⟩ scope =
        v.leave ⟨command, arguments, members, comments', note, enclosing.isNone⟩ scope :=
    congrFun (hv ⟨command, arguments, members, comments', note, enclosing.isNone⟩ comments) scope
  simp only [visitAll, visit, h _]
  cases isGone with
  | true => rfl
  | false => simp only [Bool.false_eq_true, if_false, hleave]

end Entry

namespace ReadM

open Reading Entry

variable {o : Ending} {k l n : Nat} {α β : Type} {R : α → α → Prop} {S : β → β → Prop}
  {m m' : ReadM α}

/-! ### Rules -/

/-- Readers that keep the readings side by side. The numbers are of tokens that stand in front of
the comment before and after. -/
def Runs (o : Ending) (k l : Nat) (R : α → α → Prop) (m m' : ReadM α) : Prop :=
  ∀ ⦃r r' : Reading⦄, Beside o k r r' → R (m r).1 (m' r').1 ∧ Beside o l (m r).2 (m' r').2

/-- The same reader in both readings. -/
abbrev Steady (o : Ending) (k l : Nat) (R : α → α → Prop) (m : ReadM α) : Prop := Runs o k l R m m

theorem Runs.pure {a a' : α} (h : R a a') : Runs o k k R (pure a) (pure a') :=
  fun _ _ hr => ⟨h, hr⟩

theorem Runs.bind {f f' : α → ReadM β} (hm : Runs o k l R m m')
    (hf : ∀ a a', R a a' → Runs o l n S (f a) (f' a')) : Runs o k n S (m >>= f) (m' >>= f') := by
  intro r r' h
  obtain ⟨hanswer, hbeside⟩ := hm h
  exact hf _ _ hanswer hbeside

theorem Runs.then {f f' : α → ReadM β} (hm : Runs o k l Eq m m')
    (hf : ∀ a, Runs o l n S (f a) (f' a)) : Runs o k n S (m >>= f) (m' >>= f') :=
  hm.bind fun a _ h => h ▸ hf a

theorem Runs.ite {c : Prop} [Decidable c] {f f' : ReadM α} (hm : Runs o k l R m m')
    (hf : Runs o k l R f f') : Runs o k l R (if c then m else f) (if c then m' else f') := by
  split
  · exact hm
  · exact hf

theorem Runs.ifNext {p : Token → Bool} {f f' : Bool → ReadM α}
    (hp : 0 < k ∨ p o.comment = p o.newline) (hf : ∀ b, Runs o k l R (f b) (f' b)) :
    Runs o k l R (nextIs p >>= f) (nextIs p >>= f') := by
  intro r r' h
  rw [nextIs_bind_apply, nextIs_bind_apply, h.nextIs hp]
  exact hf _ h

theorem Runs.atToken {p : Token → Bool} {f f' : ReadM α} (hcomment : p o.comment = false)
    (hnewline : p o.newline = false) (hm : Runs o 1 l R m m') (hf : Runs o 0 l R f f') :
    Runs o 0 l R (do if ← nextIs p then m else f) (do if ← nextIs p then m' else f') := by
  intro r r' h
  rw [nextIs_bind_apply, nextIs_bind_apply, h.nextIs (.inr (hcomment.trans hnewline.symm))]
  cases hnext : r.nextIs p with
  | true => exact hm (h.atToken hnewline hnext)
  | false => exact hf h

theorem Runs.get {f f' : Reading → ReadM α}
    (hf : ∀ r r', Beside o k r r' → Runs o k l R (f r) (f' r')) :
    Runs o k l R (do f (← get)) (do f' (← get)) :=
  fun r r' h => hf r r' h h

theorem Runs.modify {f : Reading → Reading}
    (hf : ∀ {r r' : Reading}, Beside o k r r' → Beside o l (f r) (f r')) :
    Steady o k l Eq (modify f) :=
  fun _ _ h => ⟨rfl, hf h⟩

theorem Runs.consume (h : 0 < k ∨ o.Foreign expected) : Steady o k (k - 1) Eq (consume expected) :=
  fun _ _ hr => hr.consume h

theorem Runs.discard_consume (h : 0 < k ∨ o.Foreign expected) :
    Steady o k (k - 1) Eq (discard (ReadM.consume expected)) :=
  fun _ _ hr => ⟨rfl, (hr.consume h).2⟩

theorem Runs.punct (p : Punct) :
    Steady o 0 0 Eq (discard (ReadM.consume [.punct p])) :=
  .discard_consume (.inr (o.foreign_punct p))

theorem Runs.value : Steady o 0 0 Eq (ReadM.consume valueKinds) :=
  .consume (.inr o.foreign_valueKinds)

theorem Runs.take (h : 0 < k) : Steady o k (k - 1) Eq take :=
  fun _ _ hr => ⟨hr.next? h, hr.advance h⟩

theorem Runs.of_rounds (rounds : Nat → ReadM α) (hrounds : ∀ n, Steady o k l R (rounds n))
    (h : ∀ (r : Reading) n, r.rest.length + 1 < n → rounds n r = m r) : Steady o k l R m := by
  intro r r' hbeside
  rw [← h r (r.rest.length + r'.rest.length + 2) (by omega),
    ← h r' (r.rest.length + r'.rest.length + 2) (by omega)]
  exact hrounds _ hbeside

/-! ### Lines -/

theorem consume_newline_eq_none {r : Reading} (h : r.nextIs (·.isKind .newline) = false) :
    (ReadM.consume [.kind .newline] r).1 = none := by
  have hc := consumed [.kind .newline] r
  change (r.consume [.kind .newline]).1 = none
  generalize r.consume [.kind .newline] = c at hc ⊢
  cases hc with
  | fits hr hrest hfits =>
    rw [Reading.nextIs, next?_of_rest hr, hrest, List.head?_cons, Option.any_some] at h
    simp [Expected.fits, h] at hfits
  | givenUp | atEnd | bad | missed => rfl

theorem steady_lineEnd : Steady o 1 1 Eq lineEnd := by
  intro r r' h
  cases hnext : r.nextIs (·.isKind .newline) with
  | true =>
    have hruns : Steady o 2 1 Eq lineEnd :=
      (Runs.consume (.inl Nat.two_pos)).then fun a => .ite (.modify Beside.resync) (.pure rfl)
    exact hruns (h.atNewline hnext)
  | false =>
    have hnext' : r'.nextIs (·.isKind .newline) = false := (h.nextIs (.inl Nat.one_pos)).trans hnext
    rw [lineEnd, bind_apply, bind_apply, consume_newline_eq_none hnext,
      consume_newline_eq_none hnext']
    exact ⟨rfl, (h.consume (.inl Nat.one_pos)).2.resync⟩

theorem steady_endComment : Steady o 0 1 (fun _ _ => True) endComment := by
  intro r r' h
  refine ⟨trivial, ?_⟩
  rw [endComment, nextIs_bind_apply, nextIs_bind_apply]
  rcases h.cases_zero with h | ⟨hr, hrest, hrest'⟩
  · rw [h.nextIs (.inl Nat.one_pos)]
    cases hnext : r.nextIs (·.isKind .comment) with
    | false => exact h
    | true =>
      have h := (h.atAside (.inl rfl) hnext).advance (Nat.succ_pos _)
      exact h.mono (by omega)
  · have hr' := h.halted.trans hr
    have hnext : r.nextIs (·.isKind .comment) = false := by
      simp [Reading.nextIs, next?_of_rest hr, hrest, Ending.bare, o.isKind_newline]
    have hnext' : r'.nextIs (·.isKind .comment) = true := by
      simp [Reading.nextIs, next?_of_rest hr', hrest', Ending.commented, o.isKind_comment]
    rw [hnext, hnext']
    change Beside o 1 r r'.advance
    rw [advance_of_rest hr' hrest']
    exact ⟨h.failures, h.halted, fun _ => .inl hrest⟩

theorem steady_lineBlock {kind : TokenKind} (hkind : kind = .comment ∨ kind = .note) :
    Steady o 1 1 Eq (lineBlock kind) := by
  refine .of_rounds (fun n => (linesRound kind)^[n] (Pure.pure [])) (fun n => ?_)
    fun r n hn => iterate_linesRound kind _ (by omega)
  induction n with
  | zero => exact .pure rfl
  | succ n ih =>
    intro r r' h
    rw [Function.iterate_succ_apply', linesRound, nextIs_bind_apply, nextIs_bind_apply,
      h.nextIs (.inl Nat.one_pos)]
    cases hnext : r.nextIs (·.isKind kind) with
    | false => exact ⟨rfl, h⟩
    | true =>
      have hnewline : Steady o 2 1 Eq (discard (ReadM.consume [.kind .newline])) :=
        .discard_consume (.inl Nat.two_pos)
      have htake : Steady o 3 2 Eq ReadM.take := .take (Nat.succ_pos _)
      have hline : Steady o 3 1 Eq
          (do
            let first ← ReadM.take
            discard (ReadM.consume [.kind .newline])
            return first.toList ++ (← (linesRound kind)^[n] (Pure.pure []))) :=
        htake.then fun _ => hnewline.then fun _ => ih.then fun _ => .pure rfl
      exact hline (h.atAside hkind hnext)

/-! ### Arguments -/

theorem steady_commaRounds {begins : Token → Bool} {one : ReadM (Option α)}
    (hbegins : begins o.comment = begins o.newline) (hone : Steady o 0 0 Eq one) (n : Nat)
    (isFirst : Bool) : Steady o 0 0 Eq (commaRounds begins one n isFirst) := by
  induction n generalizing isFirst with
  | zero => exact .pure rfl
  | succ n ih =>
    rw [commaRounds_succ, commaRound]
    have hpart : Steady o 0 0 Eq (partRounds begins one n) :=
      hone.then fun a => (ih false).then fun as => .pure rfl
    refine .ifNext (.inr hbegins) fun b => .ite ?_ (.pure rfl)
    exact .ite hpart ((Runs.punct .comma).then fun _ => hpart)

theorem steady_valueList : Steady o 0 0 Eq valueList := by
  refine .of_rounds (fun n => commaRounds continuesList (ReadM.consume valueKinds) n true)
    (fun n => steady_commaRounds ?_ .value n true)
    fun _ _ hn => iterate_valuesRound _ hn
  simp [continuesList, Token.isValue, o.isKind_comment, o.isKind_newline, o.isPunct_comment,
    o.isPunct_newline, o.kind_comment, o.kind_newline]
  decide

theorem steady_argumentValue : Steady o 0 0 Eq argumentValue := by
  refine .atToken (o.isPunct_comment _) (o.isPunct_newline _) ?_
    (Runs.value.then fun _ => .pure rfl)
  change Steady o 1 0 Eq
    (do
      discard (ReadM.consume [.punct .openBracket])
      let tokens ← valueList
      discard (ReadM.consume [.punct .closeBracket])
      return some (ArgumentValue.list tokens))
  refine (Runs.discard_consume (.inl Nat.one_pos)).then fun _ => steady_valueList.then fun ts => ?_
  exact (Runs.punct _).then fun _ => .pure rfl

theorem steady_argument : Steady o 0 0 Eq argument := by
  refine .atToken (o.isKind_comment _) (o.isKind_newline _) ?_
    (steady_argumentValue.then fun _ => .pure rfl)
  exact (Runs.take Nat.one_pos).then fun _ => steady_argumentValue.then fun _ => .pure rfl

theorem steady_arguments : Steady o 0 0 Eq arguments := by
  refine .of_rounds (fun n => commaRounds startsArgument argument n true)
    (fun n => steady_commaRounds ?_ steady_argument n true) fun _ _ hn => iterate_argumentRound _ hn
  simp only [startsArgument, Token.isValue, o.isKind_comment, o.isKind_newline, o.isPunct_comment,
    o.isPunct_newline, o.kind_comment, o.kind_newline]
  decide

/-! ### Statements -/

section Statements

variable {σ Scope : Type} {v : Visitor σ Scope α}

/-- Bodies with the same entries for a visitor. -/
def AlikeBody (v : Visitor σ Scope α) (b b' : Body) : Prop := Alike v b.1 b'.1

theorem steady_block {members : ReadM Body} (h : Steady o 1 1 (AlikeBody v) members) :
    Steady o 1 0 (AlikeBody v) (block members) := by
  refine (Runs.discard_consume (.inl Nat.one_pos)).then fun _ => ?_
  refine steady_endComment.bind fun header header' _ => steady_lineEnd.then fun _ => ?_
  refine h.bind fun b b' hb => ?_
  exact (Runs.discard_consume (.inl Nat.one_pos)).then fun _ => .pure hb

theorem steady_elementList {items : ReadM (List Entry)} (h : Steady o 1 1 (Alike v) items) :
    Steady o 1 1 (AlikeBody v) (elementList items) := by
  refine (Runs.discard_consume (.inl Nat.one_pos)).then fun _ => ?_
  refine steady_endComment.bind fun header header' _ => steady_lineEnd.then fun _ => ?_
  refine h.bind fun es es' hes => ?_
  refine (Runs.discard_consume (.inl Nat.one_pos)).then fun _ => ?_
  exact steady_endComment.bind fun footer footer' _ => steady_lineEnd.then fun _ => .pure hes

theorem steady_roleBody {items statement : ReadM (List Entry)}
    (hitems : Steady o 1 1 (Alike v) items) (hstatement : Steady o 1 1 (Alike v) statement) :
    Steady o 0 1 (fun x x' => x.1 = x'.1 ∧ AlikeBody v x.2 x'.2) (roleBody items statement) := by
  refine .atToken (o.isPunct_comment _) (o.isPunct_newline _) ?_ ?_
  · exact (steady_elementList hitems).bind fun b b' hb => .pure ⟨rfl, hb⟩
  · have hbody (header header' : List Comment) :
        Runs o 1 1 (fun x x' => x.1 = x'.1 ∧ AlikeBody v x.2 x'.2)
          (do return (false, ← statement, header)) (do return (false, ← statement, header')) :=
      hstatement.bind fun es es' hes => .pure ⟨rfl, hes⟩
    intro r r' h
    have hnext : r'.nextIs (fun t => t.isKind .comment || t.isKind .newline) =
        r.nextIs (fun t => t.isKind .comment || t.isKind .newline) :=
      h.nextIs (.inr (by simp [o.isKind_comment, o.isKind_newline]))
    rw [nextIs_bind_apply, nextIs_bind_apply, hnext]
    cases hend : r.nextIs fun t => t.isKind .comment || t.isKind .newline with
    | true =>
      have hline := steady_endComment.bind fun header header' _ =>
        steady_lineEnd.then fun _ => hbody header header'
      exact hline h
    | false =>
      refine hbody [] [] (h.cases_zero.resolve_right ?_)
      rintro ⟨hr, hrest, -⟩
      simp [Reading.nextIs, next?_of_rest hr, hrest, Ending.bare, o.isKind_newline] at hend

theorem steady_looseLines (comments notes : List Token) :
    Steady o 1 1 (Alike v) (looseLines comments notes) := by
  have hline : Steady o 1 1 (Alike v)
      (do
        if comments.isEmpty && notes.isEmpty then
          discard (ReadM.consume [.kind .identifier])
          modify Reading.skipLine
        return (commentOf .loose comments).map .comment) := by
    refine .ite ?_ (.pure (.refl _))
    refine (Runs.discard_consume (.inl Nat.one_pos)).then fun _ => ?_
    exact (Runs.modify Beside.skipLine).then fun _ => .pure (.refl _)
  rw [looseLines]
  cases notes.head? with
  | none => exact hline
  | some note =>
    have hmiss : Steady o 1 1 Eq (modify (·.miss .looseNote note.line true)) :=
      .modify fun h => ⟨h.failures, h.halted, h.rest⟩
    exact hmiss.then fun _ => hline

theorem steady_command (hv : v.Unheeding) {members : ReadM Body}
    (h : Steady o 1 1 (AlikeBody v) members) (above notes : List Token) :
    Steady o 1 1 (Alike v) (command members above notes) := by
  refine (Runs.consume (.inl Nat.one_pos)).then fun word => ?_
  cases word with
  | none => exact (Runs.modify Beside.resync).then fun _ => .pure (.refl [])
  | some word =>
    refine steady_arguments.then fun args => ?_
    -- behind the block, or where there is none
    have hend (b b' : Body) (hb : AlikeBody v b b') : Runs o 0 1 (Alike v)
        (do
          let footer ← endComment
          lineEnd
          return [.statement word args b.1 (if (← get).halted then none
            else some ⟨commentOf .above above ++ b.2 ++ footer, noteOf notes⟩)])
        (do
          let footer ← endComment
          lineEnd
          return [.statement word args b'.1 (if (← get).halted then none
            else some ⟨commentOf .above above ++ b'.2 ++ footer, noteOf notes⟩)]) := by
      refine steady_endComment.bind fun footer footer' _ => steady_lineEnd.then fun _ => ?_
      refine .get fun r r' hr => ?_
      rw [hr.halted]
      exact .pure (.statement hv word args hb _ _ _ _)
    exact .atToken (o.isPunct_comment _) (o.isPunct_newline _) ((steady_block h).bind hend)
      (hend ([], []) ([], []) (.refl []))

theorem steady_statement (hv : v.Unheeding) (h : Steady o 1 1 (AlikeBody v) (members bound))
    (isLoose : Bool) : Steady o 1 1 (Alike v) (statement (bound + 1) isLoose) := by
  refine (steady_lineBlock (.inl rfl)).then fun comments => ?_
  refine (steady_lineBlock (.inr rfl)).then fun notes => ?_
  refine .get fun r r' hr => ?_
  rw [hr.halted]
  refine .ite (.pure (.refl [])) (.ifNext (.inl Nat.one_pos) fun isWord => ?_)
  exact .ite (steady_looseLines comments notes) (steady_command hv h comments notes)

theorem steady_members (hstatement : ∀ isLoose, Steady o 1 1 (Alike v) (statement bound isLoose))
    (hmembers : Steady o 1 1 (AlikeBody v) (members bound))
    (hitems : Steady o 1 1 (Alike v) (items (some .closeBracket) bound)) :
    Steady o 1 1 (AlikeBody v) (members (bound + 1)) := by
  refine .ifNext (.inl Nat.one_pos) fun goesOn => .ite (.pure (.refl [])) ?_
  refine .ifNext (.inl Nat.one_pos) fun isLabel => .ite ?_ ?_
  · refine (Runs.take Nat.one_pos).then fun label => ?_
    refine (steady_roleBody hitems (hstatement false)).bind fun x x' hx => ?_
    obtain ⟨list, es, comments⟩ := x
    obtain ⟨list', es', comments'⟩ := x'
    obtain ⟨rfl, hes⟩ : list = list' ∧ Alike v es es' := hx
    refine hmembers.bind fun b b' hb => .pure (Alike.append ?_ hb)
    cases label with
    | none => exact .refl []
    | some label => exact .role label list hes
  · refine (hstatement true).bind fun es es' hes => ?_
    exact hmembers.bind fun b b' hb => .pure (Alike.append hes hb)

theorem steady_items (stop : Option Punct)
    (hstatement : Steady o 1 1 (Alike v) (statement bound true))
    (hitems : Steady o 1 1 (Alike v) (items stop bound)) :
    Steady o 1 1 (Alike v) (items stop (bound + 1)) := by
  refine .ifNext (.inl Nat.one_pos) fun goesOn => .ite (.pure (.refl [])) ?_
  exact hstatement.bind fun es es' hes => hitems.bind fun fs fs' hfs => .pure (hes.append hfs)

theorem steady_readers (hv : v.Unheeding) (bound : Nat) :
    (∀ isLoose, Steady o 1 1 (Alike v) (statement bound isLoose)) ∧
    Steady o 1 1 (AlikeBody v) (members bound) ∧
    ∀ stop, Steady o 1 1 (Alike v) (items stop bound) := by
  induction bound with
  | zero => exact ⟨fun _ => .pure (.refl []), .pure (.refl []), fun _ => .pure (.refl [])⟩
  | succ bound ih =>
    obtain ⟨hstatement, hmembers, hitems⟩ := ih
    exact ⟨steady_statement hv hmembers, steady_members hstatement hmembers (hitems _),
      fun stop => steady_items stop (hstatement true) (hitems stop)⟩

end Statements

end ReadM

theorem alike_readAll {σ Scope α : Type} {v : Visitor σ Scope α} (hv : v.Unheeding) (o : Ending)
    {front : List Token} (hends : EndsInCode front) (hne : front ≠ []) :
    Entry.Alike v (readAll (front ++ o.bare)).1 (readAll (front ++ o.commented)).1 := by
  have hlength : (front ++ o.bare).length ≤ (front ++ o.commented).length := by
    simp [Ending.bare, Ending.commented]
  have hbound : 2 * (front ++ o.bare).length + 2 ≤ 2 * (front ++ o.commented).length + 2 := by omega
  rw [← readAll_eq hbound, ← readAll_eq (Nat.le_refl (2 * (front ++ o.commented).length + 2))]
  have hbeside : Reading.Beside o 1 { rest := front ++ o.bare } { rest := front ++ o.commented } :=
    ⟨rfl, rfl, fun _ => .inr ⟨front, hends, List.length_pos_iff.mpr hne, rfl, rfl⟩⟩
  exact ((ReadM.steady_readers hv _).2.2 none hbeside).1

end CommandText
