import CommandText.Proofs.CommentTexts
import CommandText.Proofs.ToldContents

/-!
# Nothing is lost in reading

Where a text is read without a problem, a visitor is told all of it. Every word, label and value has
one place in one of the statements: as the command, as the label of an argument or a role, or as a
value. Every comment is a line of one comment, and every note a line of one note. Nothing else is
told, and the commands are entered in the order in which they stand in the text.
-/

namespace CommandText

open Token List Comment Content Use

variable {σ Scope α : Type} {ts input rest mid : List Token} {cs : Multiset Content} {t : Token}
variable {k : TokenKind} {use : Use}

/-! ### Pieces and tokens -/

/-- Some pieces use each of some tokens once. Line ends and punctuation are not told. -/
inductive Uses : List Token → Multiset Content → Prop
  | nil : Uses [] 0
  | token {use : Use} {t : Token} {ts : List Token} {cs : Multiset Content}
      (ht : use.fits t = true) (h : Uses ts cs) : Uses (t :: ts) (.token use t ::ₘ cs)
  | comment {t : Token} {ts : List Token} {cs : Multiset Content} (ht : t.isKind .comment = true)
      (h : Uses ts cs) : Uses (t :: ts) (.commentLine t.text.toList ::ₘ cs)
  | note {t : Token} {ts : List Token} {cs : Multiset Content} (ht : t.isKind .note = true)
      (h : Uses ts cs) : Uses (t :: ts) (.noteLine t.text.toList ::ₘ cs)
  | silent {t : Token} {ts : List Token} {cs : Multiset Content}
      (ht : t.kind = .newline ∨ t.kind = .punctuation) (h : Uses ts cs) : Uses (t :: ts) cs

theorem Uses.append {ts' : List Token} {cs' : Multiset Content} (h : Uses ts cs)
    (h' : Uses ts' cs') : Uses (ts ++ ts') (cs + cs') := by
  induction h with
  | nil => rwa [Multiset.zero_add]
  | token ht _ ih => exact Multiset.cons_add _ _ _ ▸ .token ht ih
  | comment ht _ ih => exact Multiset.cons_add _ _ _ ▸ .comment ht ih
  | note ht _ ih => exact Multiset.cons_add _ _ _ ▸ .note ht ih
  | silent ht _ ih => exact .silent ht ih

/-- Whether something is told of a token. -/
def Token.isTold (t : Token) : Bool := !(t.isKind .newline || t.isKind .punctuation)

theorem Token.isTold_of_kind (ht : t.isKind k = true) (hk : k ≠ .newline ∧ k ≠ .punctuation) :
    t.isTold = true := by
  rw [isTold, isKind, isKind, isKind_iff.mp ht]
  simp [hk]

/-- Words, labels and values. -/
def Token.isLabelOrValue (t : Token) : Bool := t.isKind .label || t.isValue

theorem Use.isLabelOrValue_of_fits (h : use.fits t = true) : t.isLabelOrValue = true := by
  rw [isLabelOrValue, Bool.or_eq_true]
  cases use with
  | command =>
    refine .inr (isValue_iff.mpr ?_)
    rw [isKind_iff.mp h]
    decide
  | argumentLabel | roleLabel => exact .inl h
  | value => exact .inr h

theorem Token.isLabelOrValue_eq_false (ht : t.kind = k) (hk : k ∉ .label :: TokenKind.values) :
    t.isLabelOrValue = false := by
  rw [Bool.eq_false_iff]
  intro h
  rw [isLabelOrValue, Bool.or_eq_true, isKind_iff, isValue_iff, ht] at h
  exact hk (mem_cons.mpr h)

theorem Use.kind_ne_of_fits (h : use.fits t = true) (hk : k ∉ .label :: TokenKind.values) :
    t.kind ≠ k := by
  intro ht
  have hfalse := isLabelOrValue_eq_false ht hk
  rw [isLabelOrValue_of_fits h] at hfalse
  cases hfalse

theorem Use.isTold_of_fits (h : use.fits t = true) : t.isTold = true := by
  simp [isTold, isKind, kind_ne_of_fits h (k := .newline) (by decide),
    kind_ne_of_fits h (k := .punctuation) (by decide)]

theorem Uses.filter (h : Uses ts cs) : Uses (ts.filter isTold) cs := by
  induction h with
  | nil => exact .nil
  | token ht _ ih => exact filter_cons_of_pos (isTold_of_fits ht) ▸ .token ht ih
  | comment ht _ ih =>
    exact filter_cons_of_pos (isTold_of_kind ht (by simp)) ▸ .comment ht ih
  | note ht _ ih =>
    exact filter_cons_of_pos (isTold_of_kind ht (by simp)) ▸ .note ht ih
  | silent ht _ ih =>
    rwa [filter_cons_of_neg]
    rcases ht with ht | ht <;> simp [isTold, isKind, ht]

theorem Uses.of_filter (h : Uses (ts.filter isTold) cs) : Uses ts cs := by
  induction ts generalizing cs with
  | nil => exact h
  | cons t ts ih =>
    cases ht : t.isTold with
    | true =>
      rw [filter_cons_of_pos ht] at h
      cases h with
      | token ht h => exact .token ht (ih h)
      | comment ht h => exact .comment ht (ih h)
      | note ht h => exact .note ht (ih h)
      | silent ht h => exact .silent ht (ih h)
    | false =>
      rw [filter_cons_of_neg (by simp [ht])] at h
      rw [isTold, Bool.not_eq_false', Bool.or_eq_true] at ht
      exact .silent (ht.imp isKind_iff.mp isKind_iff.mp) (ih h)

/-- Comments and notes are told line by line, so they must not hold line ends. -/
def Token.IsLine (t : Token) : Prop := t.kind = .comment ∨ t.kind = .note → '\n' ∉ t.text.toList

/-- Some pieces use each of some tokens once, if comments and notes are single lines. -/
def Conveys (ts : List Token) (cs : Multiset Content) : Prop := (∀ t ∈ ts, t.IsLine) → Uses ts cs

namespace Conveys

variable {ts' : List Token} {cs cs' : Multiset Content}

theorem nil : Conveys [] 0 := fun _ => .nil

theorem append (h : Conveys ts cs) (h' : Conveys ts' cs') : Conveys (ts ++ ts') (cs + cs') := by
  intro hlines
  obtain ⟨hts, hts'⟩ := forall_mem_append.mp hlines
  exact (h hts).append (h' hts')

theorem of_filter_eq (h : Conveys ts cs) (heq : ts.filter isTold = ts'.filter isTold) :
    Conveys ts' cs := by
  intro hlines
  refine .of_filter (heq ▸ (h fun t ht => ?_).filter)
  cases htold : t.isTold with
  | true => exact hlines t (mem_filter.mp (heq ▸ mem_filter.mpr ⟨ht, htold⟩)).1
  | false =>
    rintro (hkind | hkind) <;> simp [isTold, isKind, hkind] at htold

theorem token (use : Use) (ht : use.fits t = true) : Conveys [t] {.token use t} :=
  fun _ => .token ht .nil

theorem silent (ht : t.kind = .newline ∨ t.kind = .punctuation) : Conveys [t] 0 :=
  fun _ => .silent ht .nil

theorem newline (ht : t.isKind .newline = true) : Conveys [t] 0 :=
  silent (.inl (isKind_iff.mp ht))

theorem punct {p : Punct} (ht : t.isPunct p = true) : Conveys [t] 0 :=
  silent (.inr (kind_of_isPunct ht))

theorem linesOf_joinLines (hne : ts ≠ []) (h : ∀ t ∈ ts, '\n' ∉ t.text.toList) :
    linesOf (ReadM.joinLines ts).toList = ts.map fun t => t.text.toList := by
  rw [ReadM.joinLines, String.toList_intercalate, map_map]
  refine linesOf_intercalate (fun line hline => ?_) (by simpa using hne)
  obtain ⟨t, ht, rfl⟩ := mem_map.mp hline
  exact h t ht

theorem commentOf (kind : CommentKind) (hts : ∀ t ∈ ts, t.isKind .comment = true) :
    Conveys ts ↑((ReadM.commentOf kind ts).flatMap contents) := by
  intro hlines
  have htexts (t : Token) (ht : t ∈ ts) : '\n' ∉ t.text.toList :=
    hlines t ht (.inl (isKind_iff.mp (hts t ht)))
  have hcontents : (ReadM.commentOf kind ts).flatMap contents =
      ts.map fun t => .commentLine t.text.toList := by
    cases ts with
    | nil => rfl
    | cons t ts =>
      rw [ReadM.commentOf, flatMap_singleton, contents,
        linesOf_joinLines (cons_ne_nil t ts) htexts, map_map]
      rfl
  rw [hcontents]
  clear hlines htexts hcontents
  induction ts with
  | nil => exact .nil
  | cons t ts ih =>
    obtain ⟨ht, hts⟩ := forall_mem_cons.mp hts
    exact .comment ht (ih hts)

theorem noteOf (hts : ∀ t ∈ ts, t.isKind .note = true) :
    Conveys ts ↑(noteContents (ReadM.noteOf ts)) := by
  intro hlines
  have htexts (t : Token) (ht : t ∈ ts) : '\n' ∉ t.text.toList :=
    hlines t ht (.inr (isKind_iff.mp (hts t ht)))
  have hcontents : noteContents (ReadM.noteOf ts) = ts.map fun t => .noteLine t.text.toList := by
    cases ts with
    | nil => rfl
    | cons t ts =>
      rw [ReadM.noteOf, noteContents, Option.toList_some, flatMap_singleton,
        linesOf_joinLines (cons_ne_nil t ts) htexts, map_map]
      rfl
  rw [hcontents]
  clear hlines htexts hcontents
  induction ts with
  | nil => exact .nil
  | cons t ts ih =>
    obtain ⟨ht, hts⟩ := forall_mem_cons.mp hts
    exact .note ht (ih hts)

theorem endOf (ht : t.isKind .comment = true) :
    Conveys [t] ↑((Form.endOf t).flatMap contents) :=
  commentOf .lineEnd (forall_mem_singleton.mpr ht)

end Conveys

/-! ### Tokens that are read -/

namespace Form

open ReadM

variable {comments : List Comment} {kind : TokenKind}

/-- The tokens in front of the rest, and some lines above them that are read before, are used once
by some pieces. The commands among these are in order. -/
def Gains (lead input : List Token) (cs : List Content) (rest : List Token) : Prop :=
  ∃ used, input = used ++ rest ∧ Conveys (lead ++ used) cs ∧ (commandsOf cs).Sublist used

namespace Gains

variable {lead : List Token} {cs cs' : List Content}

theorem refl (rest : List Token) : Gains [] rest [] rest := ⟨[], rfl, .nil, .slnil⟩

theorem trans (h : Gains lead input cs mid) (h' : Gains [] mid cs' rest) :
    Gains lead input (cs ++ cs') rest := by
  obtain ⟨used, rfl, hused, hcommands⟩ := h
  obtain ⟨used', rfl, hused', hcommands'⟩ := h'
  refine ⟨used ++ used', (append_assoc _ _ _).symm, ?_, ?_⟩
  · rw [← append_assoc, ← Multiset.coe_add]
    exact hused.append hused'
  · rw [commandsOf_append]
    exact hcommands.append hcommands'

theorem congr (h : Gains lead input cs rest) (hcs : (cs : Multiset Content) = cs')
    (hcommands : commandsOf cs = commandsOf cs') : Gains lead input cs' rest := by
  obtain ⟨used, rfl, hused, hsublist⟩ := h
  exact ⟨used, rfl, hcs ▸ hused, hcommands ▸ hsublist⟩

theorem one (ht : Conveys [t] cs) (hcs : commandsOf cs = []) (rest : List Token) :
    Gains [] (t :: rest) cs rest :=
  ⟨[t], rfl, ht, hcs ▸ nil_sublist _⟩

theorem command (ht : t.isKind .identifier = true) (rest : List Token) :
    Gains [] (t :: rest) [.token .command t] rest :=
  ⟨[t], rfl, .token .command ht, .refl _⟩

theorem skip (ht : Conveys [t] 0) (h : Gains [] input cs rest) : Gains [] (t :: input) cs rest :=
  (one ht rfl input : Gains [] _ [] _).trans h

theorem skipLast (h : Gains [] input cs (t :: rest)) (ht : Conveys [t] 0) :
    Gains [] input cs rest := by
  have hlast := h.trans (one ht rfl rest : Gains [] _ [] _)
  rwa [append_nil] at hlast

end Gains

theorem LineEnd.gains (h : LineEnd input comments rest) :
    Gains [] input (comments.flatMap contents) rest := by
  cases h with
  | bare hn => exact .one (.newline hn) rfl _
  | comment ht hn =>
    exact (Gains.one (.endOf ht) (commandsOf_comments _) _).skipLast (.newline hn)

theorem Break.gains (h : Break input comments rest) :
    Gains [] input (comments.flatMap contents) rest := by
  cases h with
  | none => exact .refl _
  | some h => exact h.gains

theorem Rounds.gains {α : Type} {begins : Token → Bool} {One : List Token → α → List Token → Prop}
    {f : α → List Content} (hone : ∀ input a rest, One input a rest → Gains [] input (f a) rest)
    {isFirst : Bool} {as : List α} (h : Rounds begins One isFirst input as rest) :
    Gains [] input (as.flatMap f) rest := by
  induction h with
  | stop => exact .refl _
  | first ha _ ih => exact (hone _ _ _ ha).trans ih
  | more hc ha _ ih => exact .skip (.punct hc) ((hone _ _ _ ha).trans ih)

theorem OneValue.gains {v : ArgumentValue} (h : OneValue input v rest) :
    Gains [] input (v.tokens.map (.token .value)) rest := by
  have hone {v : Token} (hv : v.isValue = true) (rest : List Token) :
      Gains [] (v :: rest) [.token .value v] rest := .one (.token .value hv) rfl rest
  cases h with
  | single hv => exact hone hv rest
  | list ho h hc =>
    have hvalues := Rounds.gains (f := fun v => [.token .value v]) (fun input v rest hv => by
      cases hv with
      | mk hv => exact hone hv rest) h
    rw [← map_eq_flatMap] at hvalues
    exact .skip (.punct ho) (hvalues.skipLast (.punct hc))

theorem Arguments.gains {isFirst : Bool} {args : List Argument}
    (h : Arguments isFirst input args rest) :
    Gains [] input (args.flatMap Argument.contents) rest := by
  refine Rounds.gains (fun input a rest ha => ?_) h
  cases ha with
  | unlabeled hv => exact hv.gains
  | labeled hl hv =>
    exact (.one (.token .argumentLabel hl) rfl _ : Gains [] _ [_] _).trans hv.gains

/-! ### Lines above a command -/

theorem Lines.isKind (h : Lines kind input ts rest) : ∀ t ∈ ts, t.isKind kind = true := by
  induction h with
  | stop => exact forall_mem_nil _
  | line ht _ _ ih => exact forall_mem_cons.mpr ⟨ht, ih⟩

theorem Lines.exists_used (hkind : kind ≠ .newline ∧ kind ≠ .punctuation)
    (h : Lines kind input ts rest) : ∃ used, input = used ++ rest ∧ used.filter isTold = ts := by
  induction h with
  | stop => exact ⟨[], rfl, rfl⟩
  | @line t n _ ts _ ht hn _ ih =>
    obtain ⟨used, rfl, hused⟩ := ih
    refine ⟨t :: n :: used, rfl, ?_⟩
    rw [filter_cons_of_pos (isTold_of_kind ht hkind), filter_cons_of_neg, hused]
    simp [isTold, hn]

theorem Lines.gains (hkind : kind ≠ .newline ∧ kind ≠ .punctuation) (h : Lines kind input ts mid)
    {lead : List Token} {cs : List Content} (hmid : Gains (lead ++ ts) mid cs rest) :
    Gains lead input cs rest := by
  obtain ⟨used, rfl, hused⟩ := h.exists_used hkind
  obtain ⟨used', rfl, hconveys, hcommands⟩ := hmid
  refine ⟨used ++ used', (append_assoc _ _ _).symm, hconveys.of_filter_eq ?_,
    hcommands.trans (sublist_append_right _ _)⟩
  simp [← hused]

theorem Gains.statement {above notes : List Token} (habove : ∀ t ∈ above, t.isKind .comment = true)
    (hnotes : ∀ t ∈ notes, t.isKind .note = true) {w : Token} (hw : w.isKind .identifier = true)
    {args : List Argument} (ha : Arguments true input args mid) {body : List Entry}
    {header inner footer : List Comment}
    (hbody : Gains [] mid (header.flatMap contents ++ (Entry.contentsAll body ++
      inner.flatMap contents) ++ footer.flatMap contents) rest) :
    Gains (above ++ notes) (w :: input)
      (Entry.statement w args body (closing above notes (header ++ inner) footer)).contents
      rest := by
  have hlead : Gains (above ++ notes) (w :: input)
      ((commentOf .above above).flatMap contents ++ noteContents (noteOf notes))
      (w :: input) := by
    refine ⟨[], rfl, ?_, by simp⟩
    rw [append_nil, ← Multiset.coe_add]
    exact (Conveys.commentOf .above habove).append (.noteOf hnotes)
  refine (((hlead.trans (.command hw _)).trans ha.gains).trans hbody).congr ?_ ?_
  · simp only [Entry.contents, closing, Closing.contents, Option.toList_some,
      flatMap_singleton, flatMap_append, ← Multiset.coe_add, ← Multiset.cons_coe,
      ← Multiset.singleton_add, Multiset.coe_nil, add_zero]
    abel
  · simp [closing]

/-! ### Parts of a text -/

/-- The lines above a command, which are told with it. -/
def Part.lead : Part → List Token
  | command above notes => above ++ notes
  | _ => []

/-- The lines above a command are comments and notes. -/
def Part.IsLed : Part → Prop
  | command above notes =>
    (∀ t ∈ above, t.isKind .comment = true) ∧ ∀ t ∈ notes, t.isKind .note = true
  | _ => True

/-- What stands in a part, with the comments that belong to the statement around it. -/
def contentsOf (b : Body) : List Content := Entry.contentsAll b.1 ++ b.2.flatMap contents

theorem contentsOf_singleton (entry : Entry) : contentsOf ([entry], []) = entry.contents := by
  rw [contentsOf, Entry.contentsAll, Entry.contentsAll, flatMap_nil, append_nil,
    append_nil]

theorem Gains.role {l : Token} (hl : l.isKind .label = true) (list : Bool)
    {items later : List Entry} {header footer : List Comment}
    (hitems : Gains [] input (header.flatMap contents ++ Entry.contentsAll items ++
      footer.flatMap contents) mid)
    (hlater : Gains [] mid (contentsOf (later, comments)) rest) : Gains [] (l :: input)
      (contentsOf (.role l list items :: later, header ++ footer ++ comments)) rest := by
  have hlabel : Gains [] (l :: input) [.token .roleLabel l] input :=
    .one (.token .roleLabel hl) rfl input
  refine ((hlabel.trans hitems).trans hlater).congr ?_ ?_
  · simp only [contentsOf, Entry.contentsAll, Entry.contents, flatMap_append,
      ← Multiset.coe_add, ← Multiset.cons_coe, ← Multiset.singleton_add, Multiset.coe_nil, add_zero]
    abel
  · simp [contentsOf, Entry.contentsAll, Entry.contents]

theorem Gains.append {es later : List Entry} (h : Gains [] input (contentsOf (es, [])) mid)
    (hlater : Gains [] mid (contentsOf (later, comments)) rest) :
    Gains [] input (contentsOf (es ++ later, comments)) rest := by
  have hboth := h.trans hlater
  simpa only [contentsOf, Entry.contentsAll_append, flatMap_nil, append_nil,
    append_assoc] using hboth

theorem Reads.gains {part : Part} {b : Body} (h : Reads part input b rest) (hled : part.IsLed) :
    Gains part.lead input (contentsOf b) rest := by
  induction h with
  | leaf hw ha he =>
    have hend : Gains [] _ (([] : List Comment).flatMap contents ++ (Entry.contentsAll [] ++
        ([] : List Comment).flatMap contents) ++ _) _ := he.gains
    rw [contentsOf_singleton]
    exact .statement hled.1 hled.2 hw ha hend
  | branch hw ha ho hh _ hc he ih =>
    rw [contentsOf_singleton]
    refine .statement hled.1 hled.2 hw ha (.skip (.punct ho) ?_)
    exact (hh.gains.trans ((ih trivial).skipLast (.punct hc))).trans he.gains
  | lead hc hn _ ih => exact hc.gains (by decide) (hn.gains (by decide) (ih ⟨hc.isKind, hn.isKind⟩))
  | loose hc =>
    refine hc.gains (by decide) ⟨[], rfl, ?_, ?_⟩ <;>
      rw [contentsOf, Entry.contentsAll_comments, flatMap_nil, append_nil]
    · rw [append_nil]
      exact .commentOf .loose hc.isKind
    · simp
  | noMember => exact .refl _
  | listMember hl ho hh _ hc hf _ ihi ih =>
    have hitems := (ihi trivial).skipLast (.punct hc)
    rw [contentsOf, flatMap_nil, append_nil] at hitems
    exact .role hl true (.skip (.punct ho) ((hh.gains.trans hitems).trans hf.gains)) (ih trivial)
  | roleMember hl _ hb _ _ ihs ih =>
    have hchild := hb.gains.trans (ihs trivial)
    rw [contentsOf, ← append_assoc] at hchild
    have hrole := Gains.role hl false hchild (ih trivial)
    rwa [append_nil] at hrole
  | noItem => exact .refl _
  | member _ _ ihs ih | item _ _ ihs ih => exact (ihs trivial).append (ih trivial)

end Form

/-! ### A whole text -/

theorem Uses.filterMap {β : Type} {f : Content → Option β} {p : Token → Bool} {g : Token → β}
    (h : Uses ts cs) (htoken : ∀ (use : Use) (t : Token), use.fits t = true →
      f (.token use t) = if p t then some (g t) else none)
    (hcomment : ∀ t : Token, t.kind = .comment →
      f (.commentLine t.text.toList) = if p t then some (g t) else none)
    (hnote : ∀ t : Token, t.kind = .note →
      f (.noteLine t.text.toList) = if p t then some (g t) else none)
    (hsilent : ∀ t : Token, t.kind = .newline ∨ t.kind = .punctuation → p t = false) :
    cs.filterMap f = (ts.filter p).map g := by
  have hstep {c : Content} {t : Token} {ts : List Token} {cs : Multiset Content}
      (hc : f c = if p t then some (g t) else none) (ih : cs.filterMap f = (ts.filter p).map g) :
      (c ::ₘ cs).filterMap f = ((t :: ts).filter p).map g := by
    cases hp : p t with
    | false =>
      rw [hp, if_neg Bool.false_ne_true] at hc
      rw [Multiset.filterMap_cons_none _ _ hc, filter_cons_of_neg (by simp [hp]), ih]
    | true =>
      rw [hp, if_pos rfl] at hc
      rw [Multiset.filterMap_cons_some _ _ _ hc, filter_cons_of_pos hp, map_cons, ih,
        Multiset.cons_coe]
  induction h with
  | nil => rfl
  | token ht _ ih => exact hstep (htoken _ _ ht) ih
  | comment ht _ ih => exact hstep (hcomment _ (isKind_iff.mp ht)) ih
  | note ht _ ih => exact hstep (hnote _ (isKind_iff.mp ht)) ih
  | silent ht _ ih => rw [filter_cons_of_neg (by simp [hsilent _ ht]), ih]

section Sorts

variable {cs : List Content}

theorem Uses.perm_words (h : Uses ts cs) :
    (cs.filterMap Content.token?).Perm (ts.filter isLabelOrValue) := by
  rw [← Multiset.coe_eq_coe, ← Multiset.filterMap_coe, ← map_id (ts.filter _)]
  refine h.filterMap (fun use t ht => ?_) (fun t ht => ?_) (fun t ht => ?_) fun t ht => ?_
  · rw [isLabelOrValue_of_fits ht, if_pos rfl, Content.token?, id]
  · rw [isLabelOrValue_eq_false ht (by decide)]
    rfl
  · rw [isLabelOrValue_eq_false ht (by decide)]
    rfl
  · rcases ht with ht | ht <;> exact isLabelOrValue_eq_false ht (by decide)

theorem Uses.perm_comments (h : Uses ts cs) : (cs.filterMap commentLine?).Perm
    ((ts.filter (·.isKind .comment)).map (·.text.toList)) := by
  rw [← Multiset.coe_eq_coe, ← Multiset.filterMap_coe]
  refine h.filterMap (fun use t ht => ?_) (fun t ht => ?_) (fun t ht => ?_) fun t ht => ?_
  · rw [isKind_eq_false_iff.mpr (kind_ne_of_fits ht (by decide))]
    rfl
  · rw [isKind_iff.mpr ht, if_pos rfl, commentLine?]
  · rw [isKind_eq_false_iff.mpr (by simp [ht])]
    rfl
  · rcases ht with ht | ht <;> simp [isKind, ht]

theorem Uses.perm_notes (h : Uses ts cs) : (cs.filterMap noteLine?).Perm
    ((ts.filter (·.isKind .note)).map (·.text.toList)) := by
  rw [← Multiset.coe_eq_coe, ← Multiset.filterMap_coe]
  refine h.filterMap (fun use t ht => ?_) (fun t ht => ?_) (fun t ht => ?_) fun t ht => ?_
  · rw [isKind_eq_false_iff.mpr (kind_ne_of_fits ht (by decide))]
    rfl
  · rw [isKind_eq_false_iff.mpr (by simp [ht])]
    rfl
  · rw [isKind_iff.mpr ht, if_pos rfl, noteLine?]
  · rcases ht with ht | ht <;> simp [isKind, ht]

end Sorts

theorem Uses.fits (h : Uses ts cs) (ht : .token use t ∈ cs) : use.fits t = true := by
  induction h with
  | nil => simp at ht
  | token hfits _ ih =>
    rcases Multiset.mem_cons.mp ht with heq | ht
    · cases heq
      exact hfits
    · exact ih ht
  | comment _ _ ih | note _ _ ih => exact ih ((Multiset.mem_cons.mp ht).resolve_left nofun)
  | silent _ _ ih => exact ih ht

/-- The calls of a visitor tell all tokens once, and nothing else. -/
structure Conserves (tokens : List Token) (calls : List (Call Scope α)) : Prop where
  /-- Each word, label and value has one place in one statement. -/
  words : ((calls.flatMap Call.contents).filterMap Content.token?).Perm
    (tokens.filter isLabelOrValue)
  nodup : (tokens.filter isLabelOrValue).Nodup
  fits : ∀ use t, .token use t ∈ calls.flatMap Call.contents → use.fits t = true
  comments : ((calls.flatMap Call.contents).filterMap commentLine?).Perm
    ((tokens.filter (·.isKind .comment)).map (·.text.toList))
  notes : ((calls.flatMap Call.contents).filterMap noteLine?).Perm
    ((tokens.filter (·.isKind .note)).map (·.text.toList))
  /-- Commands are entered in the order of the text. -/
  order : (calls.filterMap Call.entered?).Sublist tokens
  commands : (calls.filterMap Call.entered?).Perm (commandsOf (calls.flatMap Call.contents))

theorem FillsLines.nodup {index : Nat} {pending : Bool} {lines : List Line} {tokens : List Token}
    (h : FillsLines index pending lines tokens) {p : Token → Bool}
    (hp : ∀ t ∈ tokens, p t = true → t.kind ≠ .newline) : (tokens.filter p).Nodup := by
  refine (h.apart.filter p).imp_of_mem fun {t u} ht _ hapart heq => ?_
  obtain ⟨ht, hpt⟩ := mem_filter.mp ht
  obtain ⟨a, ha⟩ := Option.ne_none_iff_exists'.mp ((h.span_eq_none_iff ht).not.mpr (hp t ht hpt))
  obtain ⟨-, -, -, -, -, hle, -⟩ := h.exists_line ht ha
  have hlt := hapart (congrArg _ heq) a ha a (heq ▸ ha)
  omega

theorem halted_readAll {tokens : List Token} (h : (parse tokens).problems = []) :
    (readAll tokens).2.halted = false := by
  have hreach : (Reading.quiet tokens 1).Reaches (readAll tokens).2 :=
    (ReadM.Moves.items none (2 * tokens.length + 2)).reaches (Reading.quiet tokens 1)
  obtain ⟨rest, line, hquiet, -⟩ :=
    hreach.quiet_of_log_eq_nil (hreach.log_eq_nil_of_problems_eq_nil h)
  rw [hquiet, Reading.halted_quiet]

/-- Where a text is read without a problem, a visitor is told all of its tokens, each once and
nothing else, and it enters the commands in order. -/
theorem conserves_calls (v : Visitor σ Scope α) (pattern : Pattern) (text : List Char) (st : σ)
    (h : (parse (tokenize pattern text)).problems = []) :
    Conserves (tokenize pattern text) ((Entry.visitAll v.recorded none
      (parse (tokenize pattern text)).entries (st, [])).2.2.map Prod.snd) := by
  have hfills : FillsLines 0 false ((linesOf text).mapIdx bareLine) (tokenize pattern text) := by
    have hlines := fillsLines_scanLines pattern 0 false false (linesOf text)
    simp only [Nat.zero_add] at hlines
    exact hlines
  have hlines : ∀ t ∈ tokenize pattern text, t.IsLine := fun t => not_mem_text_of_mem_tokenize
  generalize tokenize pattern text = tokens at h hfills hlines ⊢
  have hreads : Form.Reads (.items none) tokens ((parse tokens).entries, []) [] :=
    (parse_eq_iff _ _).mp (congrArg (Parsed.mk (parse tokens).entries) h)
  obtain ⟨used, hused, hconveys, hsublist⟩ := hreads.gains trivial
  obtain rfl : tokens = used := hused.trans (append_nil _)
  rw [Form.contentsOf, flatMap_nil, append_nil] at hconveys hsublist
  have hshaped : Shaped (readAll tokens).2.halted false (parse tokens).entries :=
    (ReadM.shapes_recursive _).2.2 none _
  rw [halted_readAll h] at hshaped
  obtain ⟨htold, hentered⟩ := hshaped.retells v none st []
  rw [hshaped.contents_members v.recorded none (st, []), Multiset.coe_nil, add_zero] at htold
  generalize (Entry.visitAll v.recorded none (parse tokens).entries (st, [])).2.2 = calls
    at htold hentered ⊢
  replace htold : ((calls.map Prod.snd).flatMap Call.contents : Multiset Content) =
      Entry.contentsAll (parse tokens).entries := by
    rw [flatMap_map]
    exact htold.trans (zero_add _)
  replace hentered : (calls.map Prod.snd).filterMap Call.entered? =
      commandsOf (Entry.contentsAll (parse tokens).entries) := by
    rw [filterMap_map]
    exact hentered
  have huses : Uses tokens ((calls.map Prod.snd).flatMap Call.contents) := htold ▸ hconveys hlines
  refine ⟨huses.perm_words, hfills.nodup fun t _ ht hkind => ?_, fun use t => huses.fits,
    huses.perm_comments, huses.perm_notes, hentered ▸ hsublist, ?_⟩
  · rw [isLabelOrValue_eq_false hkind (by decide)] at ht
    cases ht
  · rw [hentered]
    exact (Multiset.coe_eq_coe.mp htold).symm.filterMap _

/-- A text with comments and notes in all places. -/
def annotatedText : List Char :=
  ("# a store\n@checked\nCrate main, sizes: [2, 3] \x7b # open\n  # on top\n" ++
    "  lid: Lid \"round\" # last\n  jars: [\n    Jar\n    @by hand\n    Jar /lid\n  ] # all\n" ++
    "\x7d # end\n# loose").toList

theorem conserves_annotatedText :
    (parse (tokenize .stock annotatedText)).problems = [] ∧
      Conserves (tokenize .stock annotatedText) ((Entry.visitAll scribe.recorded none
        (parse (tokenize .stock annotatedText)).entries ([], [])).2.2.map Prod.snd) :=
  have h : (parse (tokenize .stock annotatedText)).problems = [] := by decide +kernel
  ⟨h, conserves_calls scribe .stock annotatedText [] h⟩

end CommandText
