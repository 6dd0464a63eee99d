import CommandText.Proofs.LiveReading

/-!
# The lines of what is read

Whatever is said about a text while it is read is said of a line on which one of its tokens stands,
whether the text can be read or not. The line of a miss is that of the next token or, at the end of
the text, that of the last one passed over; and all that is put into entries stands on the lines of
tokens that were there.
-/

namespace CommandText

open List

/-- Label and values stand on some lines. -/
def Argument.Within (lines : List Nat) (a : Argument) : Prop :=
  (∀ t ∈ a.label, t.line ∈ lines) ∧ ∀ t ∈ a.value.tokens, t.line ∈ lines

/-- A comment of a statement stands on some lines. -/
def Comment.Within (lines : List Nat) (c : Comment) : Prop := c.line ∈ lines ∧ c.kind ≠ .loose

/-- All tokens and comments of an entry stand on some lines. -/
inductive Entry.Within (lines : List Nat) : Entry → Prop
  | comment {c : Comment} (hc : c.line ∈ lines) : Within lines (.comment c)
  | role {label : Token} (list : Bool) {items : List Entry} (hlabel : label.line ∈ lines)
      (hitems : ∀ e ∈ items, Within lines e) : Within lines (.role label list items)
  | statement {word : Token} {args : List Argument} {body : List Entry} {closing : Option Closing}
      (hword : word.line ∈ lines) (hargs : ∀ a ∈ args, a.Within lines)
      (hbody : ∀ e ∈ body, Within lines e)
      (hclosing : ∀ cl ∈ closing, ∀ c ∈ cl.comments, c.Within lines) :
      Within lines (.statement word args body closing)

namespace Reading

variable {lines : List Nat} {r : Reading}

/-! ### Lines of tokens and misses -/

/-- All tokens and misses stand on some lines. -/
structure Within (lines : List Nat) (r : Reading) : Prop where
  rest : ∀ t ∈ r.rest, t.line ∈ lines
  log : ∀ m ∈ r.log, m.line ∈ lines
  /-- The text does not end before a token has been passed over. -/
  line : r.rest = [] → r.line ∈ lines

section

variable (h : r.Within lines)
include h

theorem Within.next? {t : Token} (ht : r.next? = some t) : t.line ∈ lines := by
  rw [Reading.next?] at ht
  split at ht
  · cases ht
  · exact h.rest t (mem_of_mem_head? ht)

theorem Within.of_suffix {s : Reading} (hrest : s.rest <:+ r.rest) (hlog : s.log = r.log)
    (hline : s.rest = [] → s.line ∈ lines) : s.Within lines :=
  ⟨fun t ht => h.rest t (hrest.subset ht), hlog ▸ h.log, hline⟩

theorem Within.advance : r.advance.Within lines := by
  rw [Reading.advance]
  split
  · next t ht => exact h.of_suffix (tail_suffix _) rfl fun _ => h.next? ht
  · exact h

theorem Within.skipLine : r.skipLine.Within lines := by
  cases hhalted : r.halted with
  | true => rwa [Reading.skipLine, if_pos hhalted]
  | false =>
    refine h.of_suffix ((rest_skipLine hhalted).trans (tail_suffix _)) (log_skipLine r) ?_
    rw [Reading.skipLine, if_neg (by simp [hhalted])]
    dsimp only
    split
    · next newline rest hdrop =>
      exact fun _ => h.rest newline ((dropWhile_suffix _).subset (hdrop ▸ mem_cons_self))
    · next hdrop =>
      intro _
      cases hlast : (r.rest.takeWhile fun t => !t.isKind .newline).getLast? with
      | some t =>
        exact h.rest t ((List.takeWhile_prefix _).subset (mem_of_getLast? hlast))
      | none =>
        -- no token was left, so the line is the one reached before
        refine h.line ?_
        rw [← takeWhile_append_dropWhile (p := fun t => !t.isKind .newline) (l := r.rest),
          hdrop, getLast?_eq_none_iff.mp hlast, append_nil]

theorem Within.resync : r.resync.Within lines := by
  rw [Reading.resync]
  split
  · exact h
  · exact h.skipLine

theorem Within.miss (fault : Fault) {line : Nat} (hline : line ∈ lines) (told : Bool) :
    (r.miss fault line told).Within lines :=
  ⟨h.rest, forall_mem_cons.mpr ⟨hline, h.log⟩, h.line⟩

theorem Within.consume (expected : List Expected) :
    (r.consume expected).2.Within lines ∧
      ∀ t ∈ (r.consume expected).1, t.line ∈ lines := by
  have hc := consumed expected r
  generalize r.consume expected = c at hc ⊢
  cases hc with
  | givenUp => exact ⟨h, nofun⟩
  | atEnd _ hrest =>
    obtain ⟨hrest', hlog, hline⟩ := h.miss (.unexpectedEnd expected) (h.line hrest) (!r.told)
    exact ⟨⟨hrest', hlog, hline⟩, nofun⟩
  | @fits t rest _ hrest =>
    have ht := h.rest t (hrest ▸ mem_cons_self)
    refine ⟨h.of_suffix (hrest ▸ suffix_cons t rest) rfl fun _ => ht, ?_⟩
    rintro _ ⟨⟩
    exact ht
  | @bad t rest _ hrest =>
    have ht := h.rest t (hrest ▸ mem_cons_self)
    exact ⟨(h.miss (.badToken t.text) ht true).of_suffix (hrest ▸ suffix_cons t rest) rfl
      fun _ => ht, nofun⟩
  | @missed t rest _ hrest =>
    have ht := h.rest t (hrest ▸ mem_cons_self)
    obtain ⟨hrest', hlog, hline⟩ := h.miss (.unexpected t.lexeme expected) ht (!r.told)
    refine ⟨?_, nofun⟩
    rw [Reading.fail]
    split
    · exact ⟨hrest', hlog, hline⟩
    · exact ⟨hrest', forall_mem_cons.mpr ⟨ht, hlog⟩, hline⟩

end

end Reading

namespace ReadM

open Reading

variable {α β : Type} {lines : List Nat}

/-- A reader that keeps to some lines, with what is known of its answers. -/
def Gives (lines : List Nat) (m : ReadM α) (P : α → Prop) : Prop :=
  ∀ r : Reading, r.Within lines → (m r).2.Within lines ∧ P (m r).1

section Rules

variable {m n : ReadM α} {f : α → ReadM β} {P : α → Prop} {Q : β → Prop}

theorem Gives.pure {a : α} (h : P a) : Gives lines (pure a) P := fun _ hr => ⟨hr, h⟩

theorem Gives.bind (hm : Gives lines m P) (hf : ∀ a, P a → Gives lines (f a) Q) :
    Gives lines (m >>= f) Q := by
  intro r hr
  obtain ⟨hend, ha⟩ := hm r hr
  exact hf _ ha _ hend

theorem Gives.ite {c : Prop} [Decidable c] (hm : Gives lines m P) (hn : Gives lines n P) :
    Gives lines (if c then m else n) P := by
  split
  · exact hm
  · exact hn

theorem Gives.nextIs {p : Token → Bool} {f : Bool → ReadM β} (h : ∀ b, Gives lines (f b) Q) :
    Gives lines (nextIs p >>= f) Q := by
  intro r hr
  rw [nextIs_bind_apply]
  exact h _ r hr

theorem Gives.get {f : Reading → ReadM β} (h : ∀ r, Gives lines (f r) Q) :
    Gives lines (get >>= f) Q := fun r hr => h r r hr

theorem gives_modify {f : Reading → Reading} (h : ∀ r, r.Within lines → (f r).Within lines) :
    Gives lines (modify f) fun _ => True := fun r hr => ⟨h r hr, trivial⟩

theorem gives_consume (expected : List Expected) :
    Gives lines (consume expected) fun o => ∀ t ∈ o, t.line ∈ lines :=
  fun _ hr => hr.consume expected

theorem gives_discard (expected : List Expected) :
    Gives lines (discard (consume expected)) fun _ => True :=
  fun _ hr => ⟨(hr.consume expected).1, trivial⟩

theorem Gives.ifTake {kind : TokenKind} {f : Option Token → ReadM β} {n : ReadM β}
    (hf : ∀ o, (∀ t ∈ o, t.line ∈ lines) → Gives lines (f o) Q) (hn : Gives lines n Q) :
    Gives lines (do if ← ReadM.nextIs (·.isKind kind) then f (← take) else n) Q := by
  intro r hr
  rw [nextIs_bind_apply]
  split
  · exact hf _ (fun _ ht => hr.next? ht) _ hr.advance
  · exact hn r hr

end Rules

theorem gives_lineEnd : Gives lines lineEnd fun _ => True := by
  refine (gives_consume _).bind fun _ _ => ?_
  exact .ite (gives_modify fun _ hr => hr.resync) (.pure trivial)

theorem gives_endComment : Gives lines endComment fun cs => ∀ c ∈ cs, c.Within lines := by
  refine .ifTake (fun o ho => .pure ?_) (.pure (forall_mem_nil _))
  cases o with
  | none => exact forall_mem_nil _
  | some t => exact forall_mem_singleton.mpr ⟨ho t rfl, by simp⟩

theorem gives_closeLine : Gives lines closeLine fun cs => ∀ c ∈ cs, c.Within lines :=
  gives_endComment.bind fun _ hcs => gives_lineEnd.bind fun _ _ => .pure hcs

theorem gives_lineBlock (kind : TokenKind) :
    Gives lines (lineBlock kind) fun ts => ∀ t ∈ ts, t.line ∈ lines := by
  have hlines (bound : Nat) :
      Gives lines (wholeLines kind bound) fun ts => ∀ t ∈ ts, t.line ∈ lines := by
    induction bound with
    | zero => exact .pure (forall_mem_nil _)
    | succ bound ih =>
      refine .ifTake (fun first hfirst => ?_) (.pure (forall_mem_nil _))
      refine (gives_discard _).bind fun _ _ => ih.bind fun ts hts => .pure ?_
      exact forall_mem_append.mpr ⟨by simpa using hfirst, hts⟩
  exact .get fun r => hlines r.rest.length

/-! ### Arguments -/

theorem gives_commaRounds {α : Type} {begins : Token → Bool} {one : ReadM (Option α)} {P : α → Prop}
    (hone : Gives lines one fun o => ∀ a ∈ o, P a) (n : Nat) (isFirst : Bool) :
    Gives lines (commaRounds begins one n isFirst) fun as => ∀ a ∈ as, P a := by
  induction n generalizing isFirst with
  | zero => exact .pure (forall_mem_nil _)
  | succ n ih =>
    have hpart : Gives lines (partRounds begins one n) fun as => ∀ a ∈ as, P a := by
      refine hone.bind fun o ho => (ih false).bind fun as has => .pure ?_
      exact forall_mem_append.mpr ⟨by simpa using ho, has⟩
    rw [commaRounds_succ]
    refine .nextIs fun _ => .ite ?_ (.pure (forall_mem_nil _))
    cases isFirst with
    | true => exact hpart
    | false => exact (gives_discard _).bind fun _ _ => hpart

theorem gives_argumentValue :
    Gives lines argumentValue fun o => ∀ v ∈ o, ∀ t ∈ v.tokens, t.line ∈ lines := by
  refine .nextIs fun _ => .ite ((gives_discard _).bind fun _ _ => ?_) ?_
  · refine .get fun r => ?_
    rw [values_eq]
    refine (gives_commaRounds (gives_consume _) _ true).bind fun ts hts =>
      (gives_discard _).bind fun _ _ => .pure ?_
    rintro _ ⟨⟩
    exact hts
  · refine (gives_consume _).bind fun o ho => .pure ?_
    rintro v hv
    obtain ⟨t, ht, rfl⟩ := Option.map_eq_some_iff.mp hv
    exact forall_mem_singleton.mpr (ho t ht)

theorem gives_argument : Gives lines argument fun o => ∀ a ∈ o, a.Within lines := by
  refine .ifTake (fun label hlabel => ?_) ?_
  · refine gives_argumentValue.bind fun o ho => .pure ?_
    rintro _ ⟨⟩
    refine ⟨hlabel, ?_⟩
    cases o with
    | none => exact forall_mem_nil _
    | some v => exact ho v rfl
  · refine gives_argumentValue.bind fun o ho => .pure ?_
    rintro a ha
    obtain ⟨v, hv, rfl⟩ := Option.map_eq_some_iff.mp ha
    exact ⟨nofun, ho v hv⟩

theorem gives_arguments : Gives lines arguments fun as => ∀ a ∈ as, a.Within lines := by
  refine .get fun r => ?_
  rw [argumentRounds_eq]
  exact gives_commaRounds gives_argument _ true

/-! ### Statements -/

/-- Entries and comments of a block stand on some lines. -/
def Body.Within (lines : List Nat) (b : Body) : Prop :=
  (∀ e ∈ b.1, e.Within lines) ∧ ∀ c ∈ b.2, c.Within lines

theorem Body.within_nil : Body.Within lines ([], []) :=
  ⟨forall_mem_nil _, forall_mem_nil _⟩

theorem within_commentOf (kind : CommentKind) {ts : List Token} (h : ∀ t ∈ ts, t.line ∈ lines) :
    ∀ c ∈ commentOf kind ts, c.line ∈ lines ∧ c.kind = kind := by
  cases ts with
  | nil => exact forall_mem_nil _
  | cons t ts => exact forall_mem_singleton.mpr ⟨h t mem_cons_self, rfl⟩

section Parts

variable {b : ReadM Body} {i s : ReadM (List Entry)}

theorem gives_block (hb : Gives lines b (Body.Within lines)) :
    Gives lines (block b) (Body.Within lines) := by
  refine (gives_discard _).bind fun _ _ => gives_endComment.bind fun header hheader => ?_
  refine gives_lineEnd.bind fun _ _ => hb.bind fun body hbody => ?_
  refine (gives_discard _).bind fun _ _ => .pure ?_
  exact ⟨hbody.1, forall_mem_append.mpr ⟨hheader, hbody.2⟩⟩

theorem gives_elementList (hi : Gives lines i fun es => ∀ e ∈ es, e.Within lines) :
    Gives lines (elementList i) (Body.Within lines) := by
  refine (gives_discard _).bind fun _ _ => gives_endComment.bind fun header hheader => ?_
  refine gives_lineEnd.bind fun _ _ => hi.bind fun es hes => ?_
  refine (gives_discard _).bind fun _ _ => gives_endComment.bind fun footer hfooter => ?_
  refine gives_lineEnd.bind fun _ _ => .pure ?_
  exact ⟨hes, forall_mem_append.mpr ⟨hheader, hfooter⟩⟩

theorem gives_roleBody (hi : Gives lines i fun es => ∀ e ∈ es, e.Within lines)
    (hs : Gives lines s fun es => ∀ e ∈ es, e.Within lines) :
    Gives lines (roleBody i s) fun x => Body.Within lines x.2 := by
  rw [roleBody_eq]
  refine .nextIs fun _ => .ite ?_ ?_
  · exact (gives_elementList hi).bind fun body hbody => .pure hbody
  · have hbreak : Gives lines breakLine fun cs => ∀ c ∈ cs, c.Within lines :=
      .nextIs fun _ => .ite gives_closeLine (.pure (forall_mem_nil _))
    refine hbreak.bind fun header hheader => hs.bind fun es hes => .pure ?_
    exact ⟨hes, hheader⟩

theorem gives_looseLines {comments notes : List Token} (hc : ∀ t ∈ comments, t.line ∈ lines)
    (hn : ∀ t ∈ notes, t.line ∈ lines) :
    Gives lines (looseLines comments notes) fun es => ∀ e ∈ es, e.Within lines := by
  have hentries : ∀ e ∈ (commentOf .loose comments).map Entry.comment, e.Within lines := by
    intro e he
    obtain ⟨c, hmem, rfl⟩ := mem_map.mp he
    exact .comment (within_commentOf .loose hc c hmem).1
  have hskip : Gives lines (do
      if comments.isEmpty && notes.isEmpty then
        discard (consume [.kind .identifier])
        modify Reading.skipLine
      return (commentOf .loose comments).map Entry.comment) fun es =>
        ∀ e ∈ es, e.Within lines := by
    refine .ite ((gives_discard _).bind fun _ _ => ?_) (.pure hentries)
    exact (gives_modify fun _ hr => hr.skipLine).bind fun _ _ => .pure hentries
  cases notes with
  | nil => exact hskip
  | cons note notes =>
    exact (gives_modify fun _ hr => hr.miss _ (hn note mem_cons_self) true).bind fun _ _ => hskip

theorem gives_command (hb : Gives lines b (Body.Within lines)) {above notes : List Token}
    (habove : ∀ t ∈ above, t.line ∈ lines) :
    Gives lines (command b above notes) fun es => ∀ e ∈ es, e.Within lines := by
  refine (gives_consume _).bind fun word hword => ?_
  cases word with
  | none =>
    exact (gives_modify fun _ hr => hr.resync).bind fun _ _ =>
      .pure (forall_mem_nil _)
  | some word =>
    refine gives_arguments.bind fun args hargs => ?_
    -- behind the block, or where there is none
    have hfoot : Gives lines endComment _ := gives_endComment
    have hclose (body : Body) (hbody : body.Within lines) := hfoot.bind
      fun footer hfooter => gives_lineEnd.bind fun _ _ => Gives.get
        (f := fun r => (pure [Entry.statement word args body.1 (if r.halted then none
          else some ⟨commentOf .above above ++ body.2 ++ footer, noteOf notes⟩)] :
            ReadM (List Entry)))
        (Q := fun es => ∀ e ∈ es, e.Within lines) fun r => by
      refine .pure (forall_mem_singleton.mpr (.statement (hword word rfl) hargs hbody.1 ?_))
      intro cl hcl
      split at hcl
      · cases hcl
      · obtain rfl := Option.some.inj hcl
        simp only [forall_mem_append]
        refine ⟨⟨fun c hc => ?_, hbody.2⟩, hfooter⟩
        obtain ⟨hline, hkind⟩ := within_commentOf .above habove c hc
        exact ⟨hline, by simp [hkind]⟩
    exact .nextIs fun _ => .ite ((gives_block hb).bind hclose)
      (hclose ([], []) Body.within_nil)

end Parts

theorem gives_recursive (bound : Nat) :
    (∀ isLoose, Gives lines (statement bound isLoose) fun es => ∀ e ∈ es, e.Within lines) ∧
    Gives lines (members bound) (Body.Within lines) ∧
    ∀ stop, Gives lines (items stop bound) fun es => ∀ e ∈ es, e.Within lines := by
  induction bound with
  | zero =>
    exact ⟨fun _ => .pure (forall_mem_nil _), .pure Body.within_nil,
      fun _ => .pure (forall_mem_nil _)⟩
  | succ bound ih =>
    obtain ⟨ihs, ihm, ihi⟩ := ih
    refine ⟨fun isLoose => ?_, ?_, fun stop => ?_⟩
    · refine (gives_lineBlock _).bind fun above habove => ?_
      refine (gives_lineBlock _).bind fun notes hnotes => .get fun r => ?_
      refine .ite (.pure (forall_mem_nil _)) (.nextIs fun _ => .ite ?_ ?_)
      · exact gives_looseLines habove hnotes
      · exact gives_command ihm habove
    · refine .nextIs fun _ => .ite (.pure Body.within_nil)
        (.ifTake (fun label hlabel => ?_) ?_)
      · refine (gives_roleBody (ihi _) (ihs false)).bind fun x hx => ihm.bind fun later hlater => ?_
        refine .pure ⟨forall_mem_append.mpr ⟨?_, hlater.1⟩,
          forall_mem_append.mpr ⟨hx.2, hlater.2⟩⟩
        cases label with
        | none => exact forall_mem_nil _
        | some l => exact forall_mem_singleton.mpr (.role _ (hlabel l rfl) hx.1)
      · refine (ihs true).bind fun es hes => ihm.bind fun later hlater => .pure ?_
        exact ⟨forall_mem_append.mpr ⟨hes, hlater.1⟩, hlater.2⟩
    · refine .nextIs fun _ => .ite (.pure (forall_mem_nil _)) ?_
      refine (ihs true).bind fun es hes => (ihi stop).bind fun later hlater => .pure ?_
      exact forall_mem_append.mpr ⟨hes, hlater⟩

end ReadM

theorem within_parse (tokens : List Token) :
    (∀ e ∈ (parse tokens).entries, e.Within (tokens.map (·.line))) ∧
      ∀ p ∈ (parse tokens).problems, p.line ∈ tokens.map (·.line) := by
  cases tokens with
  | nil => exact ⟨forall_mem_nil _, forall_mem_nil _⟩
  | cons t ts =>
    have hstart : Reading.Within ((t :: ts).map (·.line)) { rest := t :: ts } :=
      ⟨fun u hu => mem_map_of_mem hu, forall_mem_nil _, nofun⟩
    obtain ⟨hend, hentries⟩ := (ReadM.gives_recursive (2 * (t :: ts).length + 2)).2.2 none _ hstart
    refine ⟨hentries, fun p hp => ?_⟩
    obtain ⟨m, hm, rfl⟩ := mem_map.mp hp
    exact hend.log m (mem_reverse.mp (mem_filter.mp hm).1)

end CommandText
