import CommandText.Proofs.QuietReading

/-!
# The forms of statements

What the readers of statements take without a miss, as relations between the tokens before and
after: each relates some tokens to an answer and to the tokens that are left. The forms are greedy,
as the readers are. Where a form may go on, it says of the next token that it does not.
-/

namespace CommandText

open List Token

/-! ### Kinds of tokens -/

namespace Token

variable {p : Punct} {t : Token}

theorem isKind_iff {k : TokenKind} : t.isKind k = true ↔ t.kind = k := by
  simp [isKind]

theorem isKind_eq_false_iff {k : TokenKind} : t.isKind k = false ↔ t.kind ≠ k := by
  simp [isKind]

theorem isPunct_iff : t.isPunct p = true ↔ t.lexeme = .punct p := by
  simp [isPunct]

theorem kind_of_isPunct (h : t.isPunct p = true) : t.kind = .punctuation := by
  rw [kind, isPunct_iff.mp h, Lexeme.kind]

theorem isPunct_of_isPunct (h : t.isPunct p = true) (q : Punct) : t.isPunct q = decide (p = q) := by
  rw [Bool.eq_iff_iff, isPunct_iff, isPunct_iff.mp h]
  simp

theorem isPunct_eq_false (h : t.kind ≠ .punctuation) (p : Punct) : t.isPunct p = false := by
  cases hp : t.isPunct p with
  | false => rfl
  | true => exact absurd (kind_of_isPunct hp) h

theorem isValue_iff : t.isValue = true ↔ t.kind ∈ TokenKind.values := by
  simp [isValue, TokenKind.isValue]

theorem kind_ne_punctuation_of_isValue (h : t.isValue = true) : t.kind ≠ .punctuation := by
  intro hp
  rw [isValue, hp] at h
  exact absurd h (by decide)

end Token

theorem ReadM.any_fits_valueKinds (t : Token) : valueKinds.any (·.fits t) = t.isValue := by
  rw [Bool.eq_iff_iff, isValue_iff]
  simp [valueKinds, TokenKind.values, Expected.fits, Token.isKind]

namespace Form

open ReadM

variable {b : Body} {comments : List Comment} {input rest ts : List Token} {t : Token}
  {kind : TokenKind}

/-- Whether the first of some tokens has a property. -/
def startsWith (p : Token → Bool) (input : List Token) : Bool := input.head?.any p

@[simp] theorem startsWith_nil (p : Token → Bool) : startsWith p [] = false := rfl

@[simp] theorem startsWith_cons (p : Token → Bool) (t : Token) (input : List Token) :
    startsWith p (t :: input) = p t := rfl

theorem exists_cons_of_startsWith {p : Token → Bool} (h : startsWith p input = true) :
    ∃ t rest, input = t :: rest ∧ p t = true := by
  cases input with
  | nil => simp at h
  | cons t rest => exact ⟨t, rest, rfl, h⟩

/-- A comment at the end of a line, as a list. -/
def endOf (t : Token) : List Comment := [⟨.lineEnd, t.line, t.text⟩]

/-- Lines that hold a comment or a note and nothing else. -/
inductive Lines (kind : TokenKind) : List Token → List Token → List Token → Prop
  | stop {rest : List Token} (h : startsWith (·.isKind kind) rest = false) : Lines kind rest [] rest
  | line {t n : Token} {input ts rest : List Token} (ht : t.isKind kind = true)
      (hn : n.isKind .newline = true) (h : Lines kind input ts rest) :
      Lines kind (t :: n :: input) (t :: ts) rest

/-- The end of a line, behind a comment perhaps. -/
inductive LineEnd : List Token → List Comment → List Token → Prop
  | bare {n : Token} {rest : List Token} (hn : n.isKind .newline = true) :
      LineEnd (n :: rest) [] rest
  | comment {t n : Token} {rest : List Token} (ht : t.isKind .comment = true)
      (hn : n.isKind .newline = true) : LineEnd (t :: n :: rest) (endOf t) rest

/-- The end of a line where there is one. -/
inductive Break : List Token → List Comment → List Token → Prop
  | none {rest : List Token}
      (h : startsWith (fun t => t.isKind .comment || t.isKind .newline) rest = false) :
      Break rest [] rest
  | some {input : List Token} {comments : List Comment} {rest : List Token}
      (h : LineEnd input comments rest) : Break input comments rest

/-- Parts of one form with commas between them, up to a token that cannot begin one. The flag says
that no part stands in front. -/
inductive Rounds {α : Type} (begins : Token → Bool) (One : List Token → α → List Token → Prop) :
    Bool → List Token → List α → List Token → Prop
  | stop {isFirst : Bool} {rest : List Token} (h : startsWith begins rest = false) :
      Rounds begins One isFirst rest [] rest
  | first {input : List Token} {a : α} {mid : List Token} {as : List α} {rest : List Token}
      (ha : One input a mid) (h : Rounds begins One false mid as rest) :
      Rounds begins One true input (a :: as) rest
  | more {c : Token} {input : List Token} {a : α} {mid : List Token} {as : List α}
      {rest : List Token} (hc : c.isPunct .comma = true) (ha : One input a mid)
      (h : Rounds begins One false mid as rest) :
      Rounds begins One false (c :: input) (a :: as) rest

/-- A token that is a value. -/
inductive ValueToken : List Token → Token → List Token → Prop
  | mk {v : Token} {rest : List Token} (hv : v.isValue = true) : ValueToken (v :: rest) v rest

/-- The values of a list. -/
abbrev Values : Bool → List Token → List Token → List Token → Prop :=
  Rounds continuesList ValueToken

/-- One value, or a list of values in brackets. -/
inductive OneValue : List Token → ArgumentValue → List Token → Prop
  | single {v : Token} {rest : List Token} (hv : v.isValue = true) :
      OneValue (v :: rest) (.single v) rest
  | list {o c : Token} {input vs rest : List Token} (ho : o.isPunct .openBracket = true)
      (h : Values true input vs (c :: rest)) (hc : c.isPunct .closeBracket = true) :
      OneValue (o :: input) (.list vs) rest

/-- One argument. -/
inductive OneArgument : List Token → Argument → List Token → Prop
  | unlabeled {input : List Token} {v : ArgumentValue} {rest : List Token}
      (h : OneValue input v rest) : OneArgument input ⟨none, v⟩ rest
  | labeled {l : Token} {input : List Token} {v : ArgumentValue} {rest : List Token}
      (hl : l.isKind .label = true) (h : OneValue input v rest) :
      OneArgument (l :: input) ⟨some l, v⟩ rest

/-- The arguments of a command. -/
abbrev Arguments : Bool → List Token → List Argument → List Token → Prop :=
  Rounds startsArgument OneArgument

/-- The parts of a text that hold statements. -/
inductive Part
  /-- A command below some comment and note lines. -/
  | command (above notes : List Token)
  /-- A statement with the lines above it, or such lines alone if they may be `loose`. -/
  | statement (loose : Bool)
  /-- The members of a block. -/
  | members
  /-- Statements up to a bracket or the end of the text. -/
  | items (stop : Option Punct)

/-- What is known of a statement at its end, by the comments and notes around it. -/
def closing (above notes : List Token) (inner footer : List Comment) : Option Closing :=
  some ⟨commentOf .above above ++ inner ++ footer, noteOf notes⟩

/-- Statements and what holds them, with the entries they give and the comments that belong to the
statement around them. -/
inductive Reads : Part → List Token → Body → List Token → Prop
  | leaf {above notes : List Token} {w : Token} {input : List Token} {args : List Argument}
      {mid : List Token} {footer : List Comment} {rest : List Token}
      (hw : w.isKind .identifier = true) (ha : Arguments true input args mid)
      (he : LineEnd mid footer rest) :
      Reads (.command above notes) (w :: input)
        ([.statement w args [] (closing above notes [] footer)], []) rest
  | branch {above notes : List Token} {w : Token} {input : List Token} {args : List Argument}
      {o : Token} {mid₁ : List Token} {header : List Comment} {mid₂ : List Token}
      {body : List Entry} {inner : List Comment} {c : Token} {mid₃ : List Token}
      {footer : List Comment} {rest : List Token}
      (hw : w.isKind .identifier = true) (ha : Arguments true input args (o :: mid₁))
      (ho : o.isPunct .openBrace = true) (hh : LineEnd mid₁ header mid₂)
      (hm : Reads .members mid₂ (body, inner) (c :: mid₃)) (hc : c.isPunct .closeBrace = true)
      (he : LineEnd mid₃ footer rest) :
      Reads (.command above notes) (w :: input)
        ([.statement w args body (closing above notes (header ++ inner) footer)], []) rest
  | lead {isLoose : Bool} {input above mid₁ notes mid₂ : List Token} {b : Body} {rest : List Token}
      (hc : Lines .comment input above mid₁) (hn : Lines .note mid₁ notes mid₂)
      (h : Reads (.command above notes) mid₂ b rest) : Reads (.statement isLoose) input b rest
  | loose {input above rest : List Token} (hc : Lines .comment input above rest)
      (habove : above ≠ []) (hn : startsWith (·.isKind .note) rest = false)
      (hi : startsWith (·.isKind .identifier) rest = false) :
      Reads (.statement true) input ((commentOf .loose above).map .comment, []) rest
  | noMember {rest : List Token} (h : startsWith (fun t => !t.isPunct .closeBrace) rest = false) :
      Reads .members rest ([], []) rest
  | listMember {l o : Token} {input : List Token} {header : List Comment} {mid₁ : List Token}
      {items : List Entry} {c : Token} {mid₂ : List Token} {footer : List Comment}
      {mid₃ : List Token} {later : List Entry} {comments : List Comment} {rest : List Token}
      (hl : l.isKind .label = true) (ho : o.isPunct .openBracket = true)
      (hh : LineEnd input header mid₁)
      (hi : Reads (.items (some .closeBracket)) mid₁ (items, []) (c :: mid₂))
      (hc : c.isPunct .closeBracket = true) (hf : LineEnd mid₂ footer mid₃)
      (h : Reads .members mid₃ (later, comments) rest) :
      Reads .members (l :: o :: input)
        (.role l true items :: later, header ++ footer ++ comments) rest
  | roleMember {l : Token} {input : List Token} {header : List Comment} {mid₁ : List Token}
      {child : List Entry} {mid₂ : List Token} {later : List Entry} {comments : List Comment}
      {rest : List Token} (hl : l.isKind .label = true)
      (ho : startsWith (·.isPunct .openBracket) input = false) (hb : Break input header mid₁)
      (hs : Reads (.statement false) mid₁ (child, []) mid₂)
      (h : Reads .members mid₂ (later, comments) rest) :
      Reads .members (l :: input) (.role l false child :: later, header ++ comments) rest
  | member {input : List Token} {entries : List Entry} {mid : List Token} {later : List Entry}
      {comments : List Comment} {rest : List Token}
      (hs : Reads (.statement true) input (entries, []) mid)
      (h : Reads .members mid (later, comments) rest) :
      Reads .members input (entries ++ later, comments) rest
  | noItem {stop : Option Punct} {rest : List Token}
      (h : startsWith (fun t => !stop.any t.isPunct) rest = false) :
      Reads (.items stop) rest ([], []) rest
  | item {stop : Option Punct} {input : List Token} {entries : List Entry} {mid : List Token}
      {later : List Entry} {rest : List Token}
      (hs : Reads (.statement true) input (entries, []) mid)
      (h : Reads (.items stop) mid (later, []) rest) :
      Reads (.items stop) input (entries ++ later, []) rest

/-- The members of a block between its braces. -/
inductive BracedMembers : List Token → Body → List Token → Prop
  | mk {o : Token} {mid₁ : List Token} {header : List Comment} {mid₂ : List Token}
      {body : List Entry} {inner : List Comment} {c : Token} {rest : List Token}
      (ho : o.isPunct .openBrace = true) (hh : LineEnd mid₁ header mid₂)
      (hm : Reads .members mid₂ (body, inner) (c :: rest)) (hc : c.isPunct .closeBrace = true) :
      BracedMembers (o :: mid₁) (body, header ++ inner) rest

/-- Statements between brackets, up to the end of the last line. -/
inductive BracketedItems : List Token → Body → List Token → Prop
  | mk {o : Token} {mid₁ : List Token} {header : List Comment} {mid₂ : List Token}
      {es : List Entry} {c : Token} {mid₃ : List Token} {footer : List Comment} {rest : List Token}
      (ho : o.isPunct .openBracket = true) (hh : LineEnd mid₁ header mid₂)
      (hi : Reads (.items (some .closeBracket)) mid₂ (es, []) (c :: mid₃))
      (hc : c.isPunct .closeBracket = true) (hf : LineEnd mid₃ footer rest) :
      BracketedItems (o :: mid₁) (es, header ++ footer) rest

/-! ### Lengths -/

theorem Lines.length_le (h : Lines kind input ts rest) : rest.length ≤ input.length := by
  induction h with
  | stop => exact Nat.le_refl _
  | line _ _ _ ih =>
    simp only [length_cons]
    omega

theorem LineEnd.length_lt (h : LineEnd input comments rest) : rest.length < input.length := by
  cases h <;> simp only [length_cons] <;> omega

theorem Break.length_le (h : Break input comments rest) : rest.length ≤ input.length := by
  cases h with
  | none => exact Nat.le_refl _
  | some h => exact Nat.le_of_lt h.length_lt

theorem Rounds.length_le {α : Type} {begins : Token → Bool}
    {One : List Token → α → List Token → Prop}
    (hOne : ∀ {input a rest}, One input a rest → rest.length < input.length) {isFirst : Bool}
    {as : List α} (h : Rounds begins One isFirst input as rest) : rest.length ≤ input.length := by
  induction h with
  | stop => exact Nat.le_refl _
  | first ha _ ih =>
    have := hOne ha
    omega
  | more _ ha _ ih =>
    have := hOne ha
    simp only [length_cons]
    omega

theorem ValueToken.length_lt {v : Token} (h : ValueToken input v rest) :
    rest.length < input.length := by
  cases h
  simp

theorem OneValue.length_lt {v : ArgumentValue} (h : OneValue input v rest) :
    rest.length < input.length := by
  cases h with
  | single => simp
  | list _ h _ =>
    have := h.length_le ValueToken.length_lt
    simp only [length_cons] at this ⊢
    omega

theorem OneArgument.length_lt {a : Argument} (h : OneArgument input a rest) :
    rest.length < input.length := by
  cases h with
  | unlabeled h => exact h.length_lt
  | labeled _ h =>
    have := h.length_lt
    simp only [length_cons]
    omega

theorem Arguments.length_le {isFirst : Bool} {as : List Argument}
    (h : Arguments isFirst input as rest) : rest.length ≤ input.length :=
  Rounds.length_le OneArgument.length_lt h

/-- How many tokens a part takes at least. -/
def Part.least : Part → Nat
  | command _ _ | statement _ => 1
  | members | items _ => 0

theorem Reads.length_le {part : Part} (h : Reads part input b rest) :
    rest.length + part.least ≤ input.length := by
  induction h with
  | leaf _ ha he =>
    have := Arguments.length_le ha
    have := he.length_lt
    simp only [Part.least, length_cons]
    omega
  | branch _ ha _ hh _ _ he ihm =>
    have := Arguments.length_le ha
    have := hh.length_lt
    have := he.length_lt
    simp only [Part.least, length_cons] at *
    omega
  | lead hc hn _ ih =>
    have := hc.length_le
    have := hn.length_le
    simp only [Part.least] at *
    omega
  | loose hc habove =>
    cases hc with
    | stop => exact absurd rfl habove
    | line _ _ hc =>
      have := hc.length_le
      simp only [Part.least, length_cons]
      omega
  | noMember | noItem => simp [Part.least]
  | listMember _ _ hh _ _ hf _ ihi ih =>
    have := hh.length_lt
    have := hf.length_lt
    simp only [Part.least, length_cons] at *
    omega
  | roleMember _ _ hb _ _ ihs ih =>
    have := hb.length_le
    simp only [Part.least, length_cons] at *
    omega
  | member _ _ ihs ih | item _ _ ihs ih =>
    simp only [Part.least] at *
    omega

theorem Reads.length_lt_of_statement {isLoose : Bool}
    (h : Reads (.statement isLoose) input b rest) : rest.length < input.length := h.length_le

/-! ### First tokens -/

theorem Lines.starts (h : Lines kind input ts rest) :
    (ts = [] ∧ input = rest) ∨ startsWith (·.isKind kind) input = true := by
  cases h with
  | stop => exact .inl ⟨rfl, rfl⟩
  | line ht => exact .inr ht

theorem Lines.stops (h : Lines kind input ts rest) : startsWith (·.isKind kind) rest = false := by
  induction h with
  | stop h => exact h
  | line _ _ _ ih => exact ih

theorem LineEnd.starts (h : LineEnd input comments rest) :
    startsWith (fun t => t.isKind .comment || t.isKind .newline) input = true := by
  cases h with
  | bare hn => simp [hn]
  | comment ht => simp [ht]

theorem ValueToken.starts {v : Token} (h : ValueToken input v rest) :
    startsWith continuesList input = true := by
  cases h with
  | mk hv => simp [continuesList, hv]

theorem OneValue.starts {v : ArgumentValue} (h : OneValue input v rest) :
    startsWith (fun t => t.isValue || t.isPunct .openBracket) input = true := by
  cases h with
  | single hv => simp [hv]
  | list ho => simp [ho]

theorem OneArgument.starts {a : Argument} (h : OneArgument input a rest) :
    startsWith startsArgument input = true := by
  cases h with
  | unlabeled h =>
    obtain ⟨t, input, rfl, ht⟩ := exists_cons_of_startsWith h.starts
    rcases Bool.or_eq_true _ _ ▸ ht with ht | ht <;> simp [startsArgument, ht]
  | labeled hl => simp [startsArgument, hl]

theorem Reads.starts_command {above notes : List Token}
    (h : Reads (.command above notes) input b rest) :
    startsWith (·.isKind .identifier) input = true := by
  cases h with
  | leaf hw => exact hw
  | branch hw => exact hw

/-- Whether a token may stand first in a statement. -/
def opensStatement (t : Token) : Bool :=
  t.isKind .comment || t.isKind .note || t.isKind .identifier

theorem opensStatement_iff : opensStatement t = true ↔
    t.kind = .comment ∨ t.kind = .note ∨ t.kind = .identifier := by
  simp [opensStatement, isKind_iff, or_assoc]

theorem isPunct_eq_false_of_opensStatement (h : opensStatement t = true) (p : Punct) :
    t.isPunct p = false := by
  refine isPunct_eq_false ?_ p
  rcases opensStatement_iff.mp h with h | h | h <;> simp [h]

theorem startsWith_not_stop (h : startsWith opensStatement input = true) (stop : Option Punct) :
    startsWith (fun t => !stop.any t.isPunct) input = true := by
  obtain ⟨t, input, rfl, ht⟩ := exists_cons_of_startsWith h
  cases stop with
  | none => rfl
  | some p => simp [isPunct_eq_false_of_opensStatement ht]

theorem opensStatement_eq_false_of_label (h : t.isKind .label = true) :
    opensStatement t = false := by
  rw [Bool.eq_false_iff, ne_eq, opensStatement_iff, isKind_iff.mp h]
  simp

theorem Reads.starts_statement {isLoose : Bool} (h : Reads (.statement isLoose) input b rest) :
    startsWith opensStatement input = true := by
  have widen : ∀ {kind : TokenKind} {ts : List Token}, startsWith (·.isKind kind) ts = true →
      kind = .comment ∨ kind = .note ∨ kind = .identifier →
      startsWith opensStatement ts = true := by
    intro kind ts hts hkind
    obtain ⟨t, ts, rfl, ht⟩ := exists_cons_of_startsWith hts
    rcases hkind with rfl | rfl | rfl <;> simp [opensStatement, ht]
  cases h with
  | lead hc hn h =>
    rcases hc.starts with ⟨-, rfl⟩ | hc
    · rcases hn.starts with ⟨-, rfl⟩ | hn
      · exact widen h.starts_command (by simp)
      · exact widen hn (by simp)
    · exact widen hc (by simp)
  | loose hc habove =>
    rcases hc.starts with ⟨rfl, -⟩ | hc
    · exact absurd rfl habove
    · exact widen hc (by simp)

end Form

end CommandText
