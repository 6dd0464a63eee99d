import CommandText.Proofs.DeliveredStatements
import CommandText.Proofs.LiveReading
import CommandText.Proofs.TokenSpans

/-!
# Commands on lines of their own

A statement is looked for at the start of a line only, perhaps behind labels. This holds of
malformed texts as well: wherever something else is called for, the rest of the line is passed over,
unless a closing bracket comes next, which begins no statement. So no two commands stand on one
line, and the lines of the commands that are read from a text increase.
-/

namespace CommandText

open Entry Token List

variable {tokens : List Token} (begins : Bool) (pattern : Pattern)

/-! ### Words that may begin a statement -/

/-- Nothing of a line is left behind the token. -/
def Token.endsLine (t : Token) : Bool := t.isKind .newline || t.isKind .comment || t.isKind .note

/-- A label in front of a statement, or a piece of text that is passed over. -/
def Token.isPassed (t : Token) : Bool := t.isKind .label || t.isKind .error

/-- The words that may begin a statement. The flag says that one may begin here. -/
def openingWords : Bool → List Token → List Token
  | _, [] => []
  | begins, t :: rest =>
    if begins && t.isKind .identifier then t :: openingWords false rest
    else openingWords (t.endsLine || begins && t.isPassed) rest

theorem openingWords_word {w : Token} (hw : w.isKind .identifier = true) (rest : List Token) :
    openingWords true (w :: rest) = w :: openingWords false rest := by
  rw [openingWords, hw]
  rfl

theorem openingWords_pass {t : Token} (ht : (t.endsLine || t.isPassed) = true)
    (rest : List Token) : openingWords true (t :: rest) = openingWords true rest := by
  have hword : t.isKind .identifier = false := by
    rw [isKind_eq_false_iff]
    intro hkind
    rw [endsLine, isPassed, isKind, isKind, isKind, isKind,
      isKind, hkind] at ht
    exact absurd ht (by decide)
  rw [openingWords, hword, Bool.and_false, if_neg Bool.false_ne_true, Bool.true_and, ht]

theorem openingWords_newline {n : Token} (hn : n.isKind .newline = true) (rest : List Token) :
    openingWords begins (n :: rest) = openingWords true rest := by
  have hword : n.isKind .identifier = false := by
    simp [isKind, isKind_iff.mp hn]
  rw [openingWords, hword, Bool.and_false, if_neg Bool.false_ne_true, endsLine, hn]
  rfl

theorem openingWords_punct {t : Token} {p : Punct} (ht : t.isPunct p = true) (rest : List Token) :
    openingWords begins (t :: rest) = openingWords false rest := by
  have hkind (k : TokenKind) (hk : k ≠ .punctuation) : t.isKind k = false := by
    rw [isKind_eq_false_iff, kind_of_isPunct ht]
    exact hk.symm
  simp [openingWords, endsLine, isPassed, hkind]

theorem openingWords_sublist (tokens : List Token) :
    (openingWords false tokens).Sublist (openingWords begins tokens) := by
  induction tokens generalizing begins with
  | nil => exact .refl _
  | cons t rest ih =>
    cases begins with
    | false => exact .refl _
    | true =>
      cases hword : t.isKind .identifier with
      | true =>
        have hends : t.endsLine = false := by
          simp [endsLine, isKind, isKind_iff.mp hword]
        rw [openingWords_word hword, openingWords, Bool.false_and, if_neg Bool.false_ne_true, hends]
        exact sublist_cons_self _ _
      | false =>
        rw [openingWords, openingWords, hword, Bool.false_and, Bool.and_false,
          if_neg Bool.false_ne_true, if_neg Bool.false_ne_true]
        cases t.endsLine with
        | true => exact .refl _
        | false => exact ih _

theorem openingWords_of_suffix {rest : List Token} (h : rest <:+ tokens) :
    (openingWords false rest).Sublist (openingWords false tokens) := by
  obtain ⟨x, rfl⟩ := h
  induction x with
  | nil => exact .refl _
  | cons t x ih =>
    rw [cons_append, openingWords, Bool.false_and, if_neg Bool.false_ne_true]
    exact ih.trans (openingWords_sublist _ _)

/-! ### The tokens that are left -/

namespace Reading

/-- The tokens that can still be read. -/
def unread (r : Reading) : List Token := if r.halted then [] else r.rest

variable {r s : Reading}

theorem unread_of_halted (h : r.halted = true) : r.unread = [] := if_pos h

theorem unread_of_not_halted (h : r.halted = false) : r.unread = r.rest := by
  rw [unread, h, if_neg Bool.false_ne_true]

theorem unread_suffix_of_rest (hr : r.halted = false) (h : s.rest <:+ r.rest) :
    s.unread <:+ r.unread := by
  rw [unread_of_not_halted hr, unread]
  split
  · exact nil_suffix
  · exact h

theorem Step.unread_suffix (h : Step r s) : s.unread <:+ r.unread := by
  cases hr : r.halted with
  | true => exact h.eq_of_halted hr ▸ suffix_refl _
  | false => exact unread_suffix_of_rest hr (h.rest_suffix hr)

theorem Reaches.unread_suffix (h : r.Reaches s) : s.unread <:+ r.unread := by
  induction h with
  | refl => exact suffix_refl _
  | tail _ hstep ih => exact hstep.unread_suffix.trans ih

theorem unread_consume (expected : List Expected) (r : Reading) :
    (∃ t rest, r.unread = t :: rest ∧ expected.any (·.fits t) = true ∧
      (r.consume expected).1 = some t ∧ (r.consume expected).2.unread = rest) ∨
    (r.consume expected).1 = none ∧
      ((∃ t rest, r.unread = t :: rest ∧ t.isKind .error = true ∧
        (r.consume expected).2.unread = rest) ∨
      (r.consume expected).2.unread = r.unread ∨ (r.consume expected).2.unread = []) := by
  have hc := consumed expected r
  generalize r.consume expected = c at hc ⊢
  cases hc with
  | givenUp => exact .inr ⟨rfl, .inr (.inl rfl)⟩
  | atEnd => exact .inr ⟨rfl, .inr (.inl rfl)⟩
  | @fits t rest hr hrest hfits =>
    refine .inl ⟨t, rest, (unread_of_not_halted hr).trans hrest, hfits, rfl, ?_⟩
    exact if_neg (by simp [hr])
  | @bad t rest hr hrest _ hkind =>
    refine .inr ⟨rfl, .inl ⟨t, rest, (unread_of_not_halted hr).trans hrest,
      isKind_iff.mpr hkind, ?_⟩⟩
    exact if_neg (by simp [hr, miss])
  | @missed t rest hr hrest =>
    refine .inr ⟨rfl, .inr ?_⟩
    cases hs : ((r.report (.unexpected t.lexeme expected) t.line).fail t.line).halted with
    | true => exact .inr (unread_of_halted hs)
    | false =>
      refine .inl ((unread_of_not_halted hs).trans ?_)
      rw [rest_fail, rest_report, unread_of_not_halted hr]

/-- The lines on which a statement may still begin. -/
def openings (begins : Bool) (r : Reading) : List Nat :=
  (openingWords begins r.unread).map (·.line)

theorem openings_sublist (r : Reading) :
    (r.openings false).Sublist (r.openings begins) := (openingWords_sublist begins _).map _

theorem Reaches.openings (h : r.Reaches s) : (s.openings false).Sublist (r.openings false) :=
  (openingWords_of_suffix h.unread_suffix).map _

theorem openings_skipLine (r : Reading) :
    (r.skipLine.openings true).Sublist (r.openings false) := by
  cases hr : r.halted with
  | true =>
    rw [skipLine, if_pos hr, openings, unread_of_halted hr]
    exact nil_sublist _
  | false =>
    refine List.Sublist.map _ ?_
    rw [skipLine, if_neg (by simp [hr]), unread_of_not_halted hr]
    simp only
    split
    · next n rest hdrop =>
      have hsuffix : n :: rest <:+ r.rest := hdrop ▸ dropWhile_suffix _
      have hn : n.isKind .newline = true := by
        have hhead := head?_dropWhile_not (fun t : Token => !t.isKind .newline) r.rest
        rw [hdrop] at hhead
        simpa using hhead
      rw [unread, if_neg (by simp [hr]), ← openingWords_newline false hn]
      exact openingWords_of_suffix hsuffix
    · rw [unread, if_neg (by simp [hr])]
      exact nil_sublist _

theorem openings_resync (r : Reading) : (r.resync.openings true).Sublist (r.openings false) := by
  rw [resync]
  split
  · next h =>
    obtain ⟨hr, t, rest, hrest⟩ := exists_rest_of_pending_pos (pending_pos_of_nextIs h)
    rw [nextIs, next?_of_rest hr, hrest, head?_cons, Option.any_some] at h
    rw [openings, openings, unread_of_not_halted hr, hrest]
    -- no statement begins with a closing bracket
    rcases Bool.or_eq_true _ _ ▸ h with h | h <;>
      rw [openingWords_punct true h, openingWords_punct false h]
  · exact openings_skipLine r

end Reading

namespace ReadM

open Reading

/-! ### Lines that are spent -/

variable {α β : Type} {m n : ReadM α} {f : α → ReadM β} {front : List Nat} {a b c : Bool}
  {L : α → List Nat} {M : β → List Nat}

/-- The reader takes the lines of its answer out of those on which a statement may begin, behind
some lines that have been taken before. The flags say whether a statement may begin where it starts
and where it ends. -/
def Spends (front : List Nat) (m : ReadM α) (L : α → List Nat) (a b : Bool) : Prop :=
  ∀ r : Reading, (L (m r).1 ++ (m r).2.openings b).Sublist (front ++ r.openings a)

theorem Spends.pure {x : α} (h : (L x).Sublist front) : Spends front (pure x) L a a :=
  fun _ => h.append (.refl _)

theorem Spends.bind (hm : Spends front m L a b) (hf : ∀ x, Spends (L x) (f x) M b c) :
    Spends front (m >>= f) M a c := fun r => (hf _ _).trans (hm r)

theorem Spends.ite {p : Prop} [Decidable p] (hm : Spends front m L a b)
    (hn : Spends front n L a b) : Spends front (if p then m else n) L a b := by
  split
  · exact hm
  · exact hn

theorem Spends.nextIs {p : Token → Bool} {f : Bool → ReadM β} (h : ∀ x, Spends front (f x) M a c) :
    Spends front (nextIs p >>= f) M a c := fun r => h _ r

theorem Spends.get {f : Reading → ReadM β} (h : ∀ r, Spends front (f r) M a c) :
    Spends front (get >>= f) M a c := fun r => h r r

theorem Spends.within (h : Spends front m L false b) : Spends front m L a b :=
  fun r => (h r).trans ((List.Sublist.refl _).append (r.openings_sublist a))

theorem Spends.of_moves [hm : Moves m] : Spends front m (fun _ => front) a false :=
  .within fun r => (List.Sublist.refl _).append (hm.reaches r).openings

theorem Spends.takeNext {p : Token → Bool}
    (hp : ∀ t, p t = true → (t.endsLine || t.isPassed) = true) {f : Option Token → ReadM β}
    {g : ReadM β} (hf : ∀ t, Spends front (f t) M true c) (hg : Spends front g M true c) :
    Spends front (do if ← ReadM.nextIs p then f (← take) else g) M true c := by
  intro r
  rw [nextIs_bind_apply]
  cases hnext : r.nextIs p with
  | false => exact hg r
  | true =>
    refine (hf r.next? r.advance).trans ((List.Sublist.refl _).append ?_)
    obtain ⟨hr, t, rest, hrest⟩ := exists_rest_of_pending_pos (pending_pos_of_nextIs hnext)
    rw [Reading.nextIs, next?_of_rest hr, hrest, head?_cons, Option.any_some] at hnext
    rw [openings, openings, unread_of_not_halted hr, hrest, openingWords_pass (hp t hnext),
      advance_of_rest hr hrest, unread, if_neg (by simp [hr])]

theorem spends_lineEnd : Spends front lineEnd (fun _ => front) a true := by
  refine .within fun r => (List.Sublist.refl _).append ?_
  change ((if (r.consume [.kind .newline]).1.isNone then modify resync else pure () : ReadM Unit)
    (r.consume [.kind .newline]).2).2.openings true |>.Sublist _
  have hmoves := (Step.consume [.kind .newline] r).reaches.openings
  rcases r.unread_consume [.kind .newline] with ⟨n, rest, hr, hn, htaken, hrest⟩ | ⟨hnone, -⟩
  · have hn : n.isKind .newline = true := by simpa [Expected.fits] using hn
    rw [htaken, openings, openings, hr, openingWords_newline false hn, ← hrest]
    exact .refl _
  · rw [hnone]
    exact (openings_resync _).trans hmoves

theorem spends_closeLine : Spends front closeLine (fun _ => front) a true :=
  Spends.bind (L := fun _ => front) .of_moves fun _ => spends_lineEnd.bind fun _ => .pure (.refl _)

theorem spends_newline :
    Spends front (discard (consume [.kind .newline])) (fun _ => front) true true := by
  refine fun r => (List.Sublist.refl _).append (List.Sublist.map _ ?_)
  change (openingWords true (r.consume [.kind .newline]).2.unread).Sublist _
  rcases r.unread_consume [.kind .newline] with ⟨n, rest, hr, hn, -, hrest⟩ |
    ⟨-, ⟨t, rest, hr, ht, hrest⟩ | hrest | hrest⟩
  · rw [hr, hrest, openingWords_newline true (by simpa [Expected.fits] using hn)]
  · rw [hr, hrest, openingWords_pass (by simp [isPassed, ht])]
  · rw [hrest]
  · rw [hrest]
    exact nil_sublist _

theorem spends_lineBlock {kind : TokenKind} (hkind : kind = .comment ∨ kind = .note) :
    Spends front (lineBlock kind) (fun _ => front) true true := by
  have hp (t : Token) (ht : t.isKind kind = true) : (t.endsLine || t.isPassed) = true := by
    rcases hkind with rfl | rfl <;> simp [endsLine, ht]
  have hlines (bound : Nat) : Spends front (wholeLines kind bound) (fun _ => front) true true := by
    induction bound with
    | zero => exact .pure (.refl _)
    | succ bound ih =>
      refine .takeNext hp (fun t => ?_) (.pure (.refl _))
      exact spends_newline.bind fun _ => ih.bind fun _ => .pure (.refl _)
  exact .get fun r => hlines _

/-! ### Statements -/

/-- A reader of entries that starts and ends where a statement may begin. -/
def SpendsEntries (m : ReadM (List Entry)) : Prop :=
  ∀ front, Spends front m (fun es => front ++ Entry.linesAll es) true true

/-- A reader of members that starts and ends where a statement may begin. -/
def SpendsBody (m : ReadM Body) : Prop :=
  ∀ front, Spends front m (fun body => front ++ Entry.linesAll body.1) true true

section Parts

variable {members : ReadM Body} {items statement : ReadM (List Entry)}

theorem spends_block (hm : SpendsBody members) :
    Spends front (block members) (fun body => front ++ linesAll body.1) a false := by
  refine Spends.bind (L := fun _ => front) .of_moves fun _ =>
    Spends.bind (L := fun _ => front) (.of_moves (a := false)) fun header =>
    spends_lineEnd.bind fun _ => (hm front).bind fun body =>
    Spends.bind (L := fun _ => front ++ linesAll body.1) .of_moves fun _ => .pure (.refl _)

theorem spends_elementList (hi : SpendsEntries items) :
    Spends front (elementList items) (fun body => front ++ linesAll body.1) a true := by
  refine Spends.bind (L := fun _ => front) .of_moves fun _ =>
    Spends.bind (L := fun _ => front) (.of_moves (a := false)) fun header =>
    spends_lineEnd.bind fun _ => (hi front).bind fun es => ?_
  exact Spends.bind (L := fun _ => front ++ linesAll es) .of_moves fun _ =>
    Spends.bind (L := fun _ => front ++ linesAll es) (.of_moves (a := false)) fun footer =>
    spends_lineEnd.bind fun _ => .pure (.refl _)

theorem spends_roleBody (hi : SpendsEntries items) (hs : SpendsEntries statement) :
    Spends front (roleBody items statement) (fun x => front ++ linesAll x.2.1) true true := by
  rw [roleBody_eq]
  refine .nextIs fun _ => .ite ((spends_elementList hi).bind fun body => .pure (.refl _)) ?_
  have hbreak : Spends front breakLine (fun _ => front) true true :=
    .nextIs fun _ => .ite spends_closeLine (.pure (.refl _))
  exact hbreak.bind fun header => (hs front).bind fun es => .pure (.refl _)

theorem spends_modify {f : Reading → Reading}
    (h : ∀ r, ((f r).openings b).Sublist (r.openings a)) :
    Spends front (modify f) (fun _ => front) a b :=
  fun r => (List.Sublist.refl _).append (h r)

theorem spends_looseLines (comments notes : List Token) :
    SpendsEntries (looseLines comments notes) := by
  intro front
  have hlines : (front ++ linesAll ((commentOf .loose comments).map .comment)).Sublist
      front := by
    rw [linesAll_comments, append_nil]
  have hskip : Spends front (do
      if comments.isEmpty && notes.isEmpty then
        discard (consume [.kind .identifier])
        modify Reading.skipLine
      return (commentOf .loose comments).map comment)
      (fun es => front ++ linesAll es) true true := by
    refine .ite (Spends.bind (L := fun _ => front) .of_moves fun _ => ?_) (.pure hlines)
    exact (spends_modify openings_skipLine).bind fun _ => .pure hlines
  cases notes with
  | nil => exact hskip
  | cons note notes =>
    have hmiss (r : Reading) : ((r.miss .looseNote note.line true).openings true).Sublist
      (r.openings true) := .refl _
    exact (spends_modify hmiss).bind fun _ => hskip

theorem spends_word : Spends front (consume [.kind .identifier])
    (fun o => front ++ o.toList.map (·.line)) true false := by
  intro r
  change (front ++ (r.consume [.kind .identifier]).1.toList.map (·.line) ++
    (r.consume [.kind .identifier]).2.openings false).Sublist _
  rcases r.unread_consume [.kind .identifier] with ⟨w, rest, hr, hw, htaken, hrest⟩ | ⟨hnone, -⟩
  · rw [htaken, openings, openings, hr, hrest,
      openingWords_word (by simpa [Expected.fits] using hw), append_assoc]
    exact .refl _
  · rw [hnone]
    have hmoves := (Step.consume [.kind .identifier] r).reaches.openings
    simpa using hmoves.trans (r.openings_sublist true)

theorem spends_command (hm : SpendsBody members) (above notes : List Token) :
    SpendsEntries (command members above notes) := by
  intro front r
  have hword := @spends_word front r
  generalize hc : consume [.kind .identifier] r = c at hword
  obtain ⟨_ | word, s⟩ := c
  · rw [command, bind_apply, hc]
    refine List.Sublist.trans ?_ hword
    exact (List.Sublist.refl _).append (openings_resync s)
  · have hblock (front : List Nat) : Spends front (ownBlock members)
        (fun body => front ++ linesAll body.1) false false :=
      .nextIs fun _ => .ite (spends_block hm) (.pure (by rw [linesAll, append_nil]))
    rw [command_of_word hc]
    refine List.Sublist.trans ?_ hword
    refine Spends.bind (L := fun _ => front ++ [word.line])
      (M := fun es => front ++ linesAll es) (.of_moves (a := false))
      (fun args => (hblock _).bind fun body => ?_) s
    refine spends_closeLine.bind fun footer => .get fun r => .pure ?_
    rw [linesAll_singleton, lines, append_assoc]
    exact .refl _

end Parts

theorem spends_recursive (bound : Nat) : (∀ isLoose, SpendsEntries (statement bound isLoose)) ∧
    SpendsBody (members bound) ∧ ∀ stop, SpendsEntries (items stop bound) := by
  have hnil {front : List Nat} : (front ++ linesAll []).Sublist front := by
    rw [linesAll, append_nil]
  induction bound with
  | zero => exact ⟨fun _ _ => .pure hnil, fun _ => .pure hnil, fun _ _ => .pure hnil⟩
  | succ bound ih =>
    obtain ⟨ihs, ihm, ihi⟩ := ih
    have happend (front : List Nat) (es es' : List Entry) :
        (front ++ linesAll (es ++ es')).Sublist
          (front ++ linesAll es ++ linesAll es') := by
      rw [linesAll_append, append_assoc]
    refine ⟨fun isLoose front => ?_, fun front => ?_, fun stop front => ?_⟩
    · refine (spends_lineBlock (.inl rfl)).bind fun above =>
        (spends_lineBlock (.inr rfl)).bind fun notes => .get fun r => ?_
      refine .ite (.pure hnil) (.nextIs fun _ => .ite ?_ ?_)
      · exact spends_looseLines above notes front
      · exact spends_command ihm above notes front
    · refine .nextIs fun _ => .ite (.pure hnil) (.takeNext ?_ (fun label => ?_) ?_)
      · intro t ht
        simp [isPassed, ht]
      · refine (spends_roleBody (ihi _) (ihs false)).bind fun x => (ihm _).bind fun later =>
          .pure ?_
        cases label with
        | none => exact ((sublist_append_left _ _).append (.refl _))
        | some l =>
          refine (happend front [.role l x.1 x.2.1] later.1).trans ?_
          rw [linesAll_singleton, lines]
      · exact (ihs true front).bind fun es => (ihm _).bind fun later => .pure (happend _ _ _)
    · refine .nextIs fun _ => .ite (.pure hnil) ?_
      exact (ihs true front).bind fun es => (ihi stop _).bind fun later => .pure (happend _ _ _)

end ReadM

theorem linesAll_parse_sublist (tokens : List Token) :
    (linesAll (parse tokens).entries).Sublist ((openingWords true tokens).map (·.line)) :=
  (sublist_append_left _ _).trans
    ((ReadM.spends_recursive (2 * tokens.length + 2)).2.2 none [] { rest := tokens })

/-! ### The words of a text -/

/-- The tokens of one line, in which a comment or a note stands last. -/
structure SingleLine (number : Nat) (tokens : List Token) : Prop where
  line : ∀ t ∈ tokens, t.line = number
  ends : ∃ x y, tokens = x ++ y ∧ (∀ t ∈ x, t.endsLine = false) ∧
    ∀ t ∈ y, t.isKind .identifier = false

theorem openingWords_within {x : List Token} (hx : ∀ t ∈ x, t.endsLine = false)
    (more : List Token) : openingWords false (x ++ more) = openingWords false more := by
  induction x with
  | nil => rfl
  | cons t x ih =>
    obtain ⟨ht, hx⟩ := forall_mem_cons.mp hx
    rw [cons_append, openingWords, Bool.false_and, if_neg Bool.false_ne_true, ht,
      Bool.false_and, Bool.or_false, ih hx]

theorem openingWords_wordless {y : List Token} (hy : ∀ t ∈ y, t.isKind .identifier = false)
    (begins : Bool) (more : List Token) :
    ∃ begins', openingWords begins (y ++ more) = openingWords begins' more := by
  induction y generalizing begins with
  | nil => exact ⟨begins, rfl⟩
  | cons t y ih =>
    obtain ⟨ht, hy⟩ := forall_mem_cons.mp hy
    rw [cons_append, openingWords, ht, Bool.and_false, if_neg Bool.false_ne_true]
    exact ih hy _

theorem SingleLine.opens {number : Nat} (h : SingleLine number tokens) (begins : Bool)
    (more : List Token) : ∃ begins',
      openingWords begins (tokens ++ more) = openingWords begins' more ∨
      ∃ w, w.line = number ∧
        openingWords begins (tokens ++ more) = w :: openingWords begins' more := by
  obtain ⟨hline, x, y, rfl, hx, hy⟩ := h
  rw [append_assoc]
  replace hline : ∀ t ∈ x, t.line = number := fun t ht => hline t (mem_append_left _ ht)
  induction x generalizing begins with
  | nil =>
    obtain ⟨begins', h⟩ := openingWords_wordless hy begins more
    exact ⟨begins', .inl h⟩
  | cons t x ih =>
    obtain ⟨ht, hx⟩ := forall_mem_cons.mp hx
    obtain ⟨htline, hline⟩ := forall_mem_cons.mp hline
    rw [cons_append, openingWords]
    split
    · obtain ⟨begins', h⟩ := openingWords_wordless hy false more
      exact ⟨begins', .inr ⟨t, htline, by rw [openingWords_within hx, h]⟩⟩
    · exact ih _ hx hline

theorem singleLine_scanLine (index : Nat) (joined : Bool) (line : Line) :
    SingleLine (index + 1) (scanLine pattern index joined line).tokens := by
  simp only [scanLine]
  split
  · next t ht =>
    have ht : wholeLine? (index + 1) (bareLine index line) = some t := by
      cases joined with
      | true => cases ht
      | false => exact ht
    obtain ⟨hline, hkind⟩ := wholeLine?_kind ht
    refine ⟨forall_mem_singleton.mpr hline, [], [t], rfl, forall_mem_nil _, ?_⟩
    refine forall_mem_singleton.mpr (isKind_eq_false_iff.mpr ?_)
    rcases hkind with hkind | hkind <;> simp [hkind]
  · have hplain := @plainTokens_scanFrom pattern (index + 1) 1 0 (bareLine index line)
    obtain ⟨x, y, htokens, hx, hy⟩ := hplain.tail
    refine ⟨hplain.line, x, y, htokens, fun t ht => ?_, fun t ht => ?_⟩
    · have hmem : t ∈ (scanFrom pattern (index + 1) 1 0 (bareLine index line)).1 :=
        htokens ▸ mem_append_left _ ht
      rw [endsLine, hplain.newline t hmem, hx t ht, hplain.note t hmem]
      rfl
    · rcases hy with rfl | ⟨c, rfl, hc⟩
      · cases ht
      · rw [mem_singleton.mp ht]
        simp [isKind, isKind_iff.mp hc]

/-- Words on increasing lines behind a line. -/
structure Rising (number : Nat) (words : List Token) : Prop where
  sorted : (words.map (·.line)).Pairwise (· < ·)
  lt_line : ∀ w ∈ words, number < w.line

theorem SingleLine.rising {number : Nat} (h : SingleLine (number + 1) tokens) {more : List Token}
    (hmore : ∀ begins, Rising (number + 1) (openingWords begins more)) (begins : Bool) :
    Rising number (openingWords begins (tokens ++ more)) := by
  obtain ⟨begins', hwords | ⟨w, hw, hwords⟩⟩ := h.opens begins more
  · rw [hwords]
    exact ⟨(hmore begins').sorted, fun w hw => Nat.lt_of_succ_lt ((hmore begins').lt_line w hw)⟩
  · rw [hwords]
    refine ⟨.cons (fun line hline => ?_) (hmore begins').sorted, forall_mem_cons.mpr
      ⟨hw ▸ Nat.lt_succ_self number, fun v hv => Nat.lt_of_succ_lt ((hmore begins').lt_line v hv)⟩⟩
    obtain ⟨v, hv, rfl⟩ := mem_map.mp hline
    show w.line < v.line
    rw [hw]
    exact (hmore begins').lt_line v hv

theorem rising_openingWords (index : Nat) (joined pending begins : Bool) (lines : List Line) :
    Rising index
      (openingWords begins (assemble pending (scanLines pattern index joined lines))) := by
  induction lines generalizing index joined pending begins with
  | nil => exact ⟨.nil, forall_mem_nil _⟩
  | cons line lines ih =>
    rw [scanLines, assemble]
    refine (singleLine_scanLine pattern index joined line).rising (fun begins => ?_) begins
    split
    · exact ih _ _ _ _
    · split
      · rw [openingWords_newline begins rfl]
        exact ih _ _ _ _
      · exact ih _ _ _ _

theorem sorted_linesAll_parse (text : List Char) :
    (linesAll (parse (tokenize pattern text)).entries).Pairwise (· < ·) :=
  (rising_openingWords pattern 0 false false true (linesOf text)).sorted.sublist
    (linesAll_parse_sublist _)

end CommandText
