import CommandText.Editor.Brackets
import CommandText.Proofs.Forms

/-!
# The tokens of an argument list

An argument list is made of the same tokens wherever it stands: they may be moved to another line,
and others may follow them. Its brackets have their partners in it, so what is open in front of it
is what is open behind it.
-/

namespace CommandText

open Token List

variable {w : List Token} {t : Token}

/-- The same token on another line. -/
def Token.onLine (line : Nat) (t : Token) : Token := { t with line }

namespace Token

variable (line : Nat) (t : Token)

@[simp] theorem lexeme_onLine : (t.onLine line).lexeme = t.lexeme := rfl

@[simp] theorem line_onLine : (t.onLine line).line = line := rfl

@[simp] theorem kind_onLine : (t.onLine line).kind = t.kind := rfl

@[simp] theorem text_onLine : (t.onLine line).text = t.text := rfl

@[simp] theorem isKind_onLine (k : TokenKind) : (t.onLine line).isKind k = t.isKind k := rfl

@[simp] theorem isPunct_onLine (p : Punct) : (t.onLine line).isPunct p = t.isPunct p := rfl

@[simp] theorem isValue_onLine : (t.onLine line).isValue = t.isValue := rfl

end Token

/-- The same value on another line. -/
def ArgumentValue.onLine (line : Nat) : ArgumentValue → ArgumentValue
  | single v => single (v.onLine line)
  | list vs => list (vs.map (Token.onLine line))

/-- The same argument on another line. -/
def Argument.onLine (line : Nat) (a : Argument) : Argument :=
  ⟨a.label.map (Token.onLine line), a.value.onLine line⟩

theorem unbalanced_map_onLine (line : Nat) (tokens : List Token) :
    unbalanced (tokens.map (onLine line)) = unbalanced tokens := by
  rw [unbalanced, foldl_map]
  rfl

theorem Unbalanced.step_of_not_bracket (h : t.opens? = none) (h' : t.closes? = none)
    (u : Unbalanced) : u.step t = u := by
  rw [step, h, h']

namespace Token

theorem opens?_of_kind (h : t.kind ≠ .punctuation) : t.opens? = none := by
  rw [opens?]
  split
  · next hp => exact absurd (by rw [kind, hp, Lexeme.kind]) h
  · next hp => exact absurd (by rw [kind, hp, Lexeme.kind]) h
  · rfl

theorem closes?_of_kind (h : t.kind ≠ .punctuation) : t.closes? = none := by
  rw [closes?]
  split
  · next hp => exact absurd (by rw [kind, hp, Lexeme.kind]) h
  · next hp => exact absurd (by rw [kind, hp, Lexeme.kind]) h
  · rfl

end Token

theorem Unbalanced.step_of_kind (h : t.kind ≠ .punctuation) (u : Unbalanced) : u.step t = u :=
  step_of_not_bracket (opens?_of_kind h) (closes?_of_kind h) u

namespace Form

open ReadM

/-- Whether a token may stand in an argument list. -/
def inArguments (t : Token) : Bool :=
  t.isValue || t.isKind .label || t.isPunct .comma || t.isPunct .openBracket ||
    t.isPunct .closeBracket

theorem inArguments_of_isValue (h : t.isValue = true) : inArguments t = true := by
  simp [inArguments, h]

theorem inArguments_iff : inArguments t = true ↔
    t.isValue = true ∨ t.kind = .label ∨ t.lexeme = .punct .comma ∨
      t.lexeme = .punct .openBracket ∨ t.lexeme = .punct .closeBracket := by
  simp [inArguments, isKind_iff, isPunct_iff, or_assoc]

/-- Tokens that an argument list may be made of. All brackets have a partner among them. -/
structure ArgumentTokens (w : List Token) : Prop where
  all : ∀ t ∈ w, inArguments t = true
  balanced : ∀ u : Unbalanced, w.foldl Unbalanced.step u = u

namespace ArgumentTokens

theorem nil : ArgumentTokens [] := ⟨by simp, fun _ => rfl⟩

theorem append {w' : List Token} (h : ArgumentTokens w) (h' : ArgumentTokens w') :
    ArgumentTokens (w ++ w') where
  all t ht := (mem_append.mp ht).elim (h.all t) (h'.all t)
  balanced u := by rw [foldl_append, h.balanced, h'.balanced]

theorem cons (ht : inArguments t = true) (hstep : ∀ u : Unbalanced, u.step t = u)
    (h : ArgumentTokens w) : ArgumentTokens (t :: w) where
  all := forall_mem_cons.mpr ⟨ht, h.all⟩
  balanced u := by rw [foldl_cons, hstep, h.balanced]

theorem value (ht : t.isValue = true) : ArgumentTokens [t] :=
  nil.cons (inArguments_of_isValue ht)
    (Unbalanced.step_of_kind (kind_ne_punctuation_of_isValue ht))

theorem comma {c : Token} (hc : c.isPunct .comma = true) (h : ArgumentTokens w) :
    ArgumentTokens (c :: w) := by
  have hlexeme := isPunct_iff.mp hc
  refine h.cons (by simp [inArguments, hc]) fun u => ?_
  exact u.step_of_not_bracket (by rw [opens?, hlexeme]) (by rw [closes?, hlexeme])

theorem label {l : Token} (hl : l.isKind .label = true) (h : ArgumentTokens w) :
    ArgumentTokens (l :: w) := by
  refine h.cons (by simp [inArguments, hl]) (Unbalanced.step_of_kind ?_)
  rw [isKind_iff.mp hl]
  decide

theorem brackets {o c : Token} (ho : o.isPunct .openBracket = true)
    (hc : c.isPunct .closeBracket = true) (h : ArgumentTokens w) :
    ArgumentTokens (o :: (w ++ [c])) where
  all t ht := by
    rcases mem_cons.mp ht with rfl | ht
    · simp [inArguments, ho]
    · rcases mem_append.mp ht with ht | ht
      · exact h.all t ht
      · obtain rfl := mem_singleton.mp ht
        simp [inArguments, hc]
  balanced u := by
    rw [foldl_cons, foldl_append, h.balanced]
    simp [Unbalanced.step, Unbalanced.close, opens?, closes?, isPunct_iff.mp ho,
      isPunct_iff.mp hc]

end ArgumentTokens

/-- A form that can be moved: it is made of tokens that may stand in an argument list, and takes
the same ones in front of any others, here and on any line. -/
def Movable {α : Type} (move : Nat → α → α) (One : List Token → α → List Token → Prop) : Prop :=
  ∀ {input a rest}, One input a rest → ∃ w, input = w ++ rest ∧ ArgumentTokens w ∧
    (∀ rest', One (w ++ rest') a rest') ∧
    ∀ line rest', One (w.map (Token.onLine line) ++ rest') (move line a) rest'

theorem Rounds.move {α : Type} {begins : Token → Bool} {move : Nat → α → α}
    {One : List Token → α → List Token → Prop} (hOne : Movable move One) {isFirst : Bool}
    {input : List Token} {as : List α} {rest : List Token}
    (h : Rounds begins One isFirst input as rest) :
    ∃ w, input = w ++ rest ∧ ArgumentTokens w ∧
      (∀ rest', startsWith begins rest' = false →
        Rounds begins One isFirst (w ++ rest') as rest') ∧
      ∀ line rest', startsWith begins rest' = false →
        Rounds begins One isFirst (w.map (onLine line) ++ rest') (as.map (move line)) rest' := by
  induction h with
  | stop => exact ⟨[], rfl, .nil, fun _ => .stop, fun _ _ => .stop⟩
  | first ha _ ih =>
    obtain ⟨w, rfl, hw, hkeep, hmove⟩ := hOne ha
    obtain ⟨w', rfl, hw', hkeep', hmove'⟩ := ih
    refine ⟨w ++ w', by simp, hw.append hw', fun rest' hrest => ?_, fun line rest' hrest => ?_⟩
    · rw [append_assoc]
      exact .first (hkeep _) (hkeep' rest' hrest)
    · rw [map_append, append_assoc]
      exact .first (hmove line _) (hmove' line rest' hrest)
  | @more c _ _ _ _ _ hc ha _ ih =>
    obtain ⟨w, rfl, hw, hkeep, hmove⟩ := hOne ha
    obtain ⟨w', rfl, hw', hkeep', hmove'⟩ := ih
    refine ⟨c :: (w ++ w'), by simp, (hw.append hw').comma hc, fun rest' hrest => ?_,
      fun line rest' hrest => ?_⟩
    · rw [cons_append, append_assoc]
      exact .more hc (hkeep _) (hkeep' rest' hrest)
    · rw [map_cons, map_append, cons_append, append_assoc]
      exact .more hc (hmove line _) (hmove' line rest' hrest)

theorem ValueToken.movable : Movable onLine ValueToken := by
  rintro _ v rest ⟨hv⟩
  exact ⟨[v], rfl, .value hv, fun rest' => .mk hv, fun line rest' => .mk hv⟩

theorem OneValue.movable : Movable ArgumentValue.onLine OneValue := by
  intro input v rest h
  cases h with
  | @single v _ hv =>
    exact ⟨[v], rfl, .value hv, fun rest' => .single hv, fun line rest' => .single hv⟩
  | @list o c _ _ _ ho h hc =>
    obtain ⟨w, rfl, hw, hkeep, hmove⟩ := h.move ValueToken.movable
    have hstop (line : Nat) (rest' : List Token) :
        startsWith continuesList (c.onLine line :: rest') = false := by
      have hkind := kind_of_isPunct hc
      simp [continuesList, isPunct_of_isPunct hc, isKind, hkind, isValue,
        TokenKind.isValue, TokenKind.values]
    refine ⟨o :: (w ++ [c]), by simp, hw.brackets ho hc, fun rest' => ?_, fun line rest' => ?_⟩
    · have hvalues := hkeep (c :: rest') (hstop c.line rest')
      simp only [cons_append, append_assoc, nil_append]
      exact .list ho hvalues hc
    · have hvalues := hmove line _ (hstop line rest')
      simp only [map_cons, map_append, map_nil, cons_append, append_assoc,
        nil_append]
      exact .list ho hvalues hc

theorem OneArgument.movable : Movable Argument.onLine OneArgument := by
  intro input a rest h
  cases h with
  | unlabeled h =>
    obtain ⟨w, rfl, hw, hkeep, hmove⟩ := OneValue.movable h
    exact ⟨w, rfl, hw, fun rest' => .unlabeled (hkeep rest'),
      fun line rest' => .unlabeled (hmove line rest')⟩
  | @labeled l _ _ _ hl h =>
    obtain ⟨w, rfl, hw, hkeep, hmove⟩ := OneValue.movable h
    exact ⟨l :: w, rfl, hw.label hl, fun rest' => .labeled hl (hkeep rest'),
      fun line rest' => .labeled hl (hmove line rest')⟩

theorem Arguments.move {isFirst : Bool} {input : List Token} {as : List Argument}
    {rest : List Token} (h : Arguments isFirst input as rest) :
    ∃ w, input = w ++ rest ∧ ArgumentTokens w ∧
      (∀ rest', startsWith startsArgument rest' = false → Arguments isFirst (w ++ rest') as rest') ∧
      ∀ line rest', startsWith startsArgument rest' = false →
        Arguments isFirst (w.map (onLine line) ++ rest') (as.map (Argument.onLine line)) rest' :=
  Rounds.move OneArgument.movable h

end Form

end CommandText
