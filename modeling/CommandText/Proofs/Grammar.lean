import CommandText.Proofs.ExactReaders
import Mathlib.Computability.Language

/-!
# The grammar of statements

The grammar of texts, apart from any reader. Its flat parts are regular and given as languages; the
parts that nest are derived. It is ambiguous: a comment line below a role label may end the line of
the label or stand above the statement, and comment lines in front of a statement may be one loose
comment, several, or none. The readers settle this greedily, and so do the forms of `Form.Reads`.
-/

namespace CommandText

open Token List Language

variable {l : Language Token}

namespace Grammar

open Form ReadM
open scoped Computability

variable {b : Body} {comments : List Comment} {es : List Entry} {c input u w rest : List Token}
variable {p : Token → Bool} {k : TokenKind}

/-! ### Flat parts -/

/-- Single tokens with a property. -/
def token (p : Token → Bool) : Language Token := {w | ∃ t, w = [t] ∧ p t = true}

def kind (k : TokenKind) : Language Token := token (·.isKind k)

def punct (p : Punct) : Language Token := token (·.isPunct p)

/-- Something or nothing. -/
def optional (l : Language Token) : Language Token := 1 + l

/-- One or more, with commas between them. -/
def separated (l : Language Token) : Language Token := l * (punct .comma * l)∗

/-- Lines that hold a comment or a note and nothing else. -/
def lines (k : TokenKind) : Language Token := (kind k * kind .newline)∗

/-- The end of a line, behind a comment perhaps. -/
def lineEnd : Language Token := optional (kind .comment) * kind .newline

/-- Any of the kinds of value tokens. -/
def value : Language Token := token fun t => t.kind ∈
  [.identifier, .integer, .float, .string, .boolean, .reference, .generic]

/-- A value or a list of values. -/
def argumentValue : Language Token :=
  value + punct .openBracket * optional (separated value) * punct .closeBracket

def argument : Language Token := optional (kind .label) * argumentValue

def arguments : Language Token := optional (separated argument)

/-! ### Nested parts -/

/-- The parts that nest. -/
inductive Symbol
  /-- Statements and loose comments. -/
  | program
  /-- A statement with the lines above it, or comment lines alone. -/
  | item
  /-- A statement with the lines above it. -/
  | statement
  | command
  /-- The members of a command in braces. -/
  | block
  /-- What stands between the braces. -/
  | members
  | member
  /-- Statements under a role, in brackets. -/
  | list
deriving DecidableEq

/-- The texts of each symbol. -/
inductive Derives : Symbol → List Token → Prop
  | noItem : Derives .program []
  | items {u v : List Token} (hu : Derives .item u) (hv : Derives .program v) :
      Derives .program (u ++ v)
  | statementItem {u : List Token} (hu : Derives .statement u) : Derives .item u
  | commentItem {c : List Token} (hc : c ∈ lines .comment) (hne : c ≠ []) : Derives .item c
  | statement {c n u : List Token} (hc : c ∈ lines .comment) (hn : n ∈ lines .note)
      (hu : Derives .command u) : Derives .statement (c ++ n ++ u)
  | leaf {w a e : List Token} (hw : w ∈ kind .identifier) (ha : a ∈ arguments)
      (he : e ∈ lineEnd) : Derives .command (w ++ a ++ e)
  | branch {w a b e : List Token} (hw : w ∈ kind .identifier) (ha : a ∈ arguments)
      (hb : Derives .block b) (he : e ∈ lineEnd) : Derives .command (w ++ a ++ b ++ e)
  | block {o e m c : List Token} (ho : o ∈ punct .openBrace) (he : e ∈ lineEnd)
      (hm : Derives .members m) (hc : c ∈ punct .closeBrace) : Derives .block (o ++ e ++ m ++ c)
  | noMember : Derives .members []
  | members {u v : List Token} (hu : Derives .member u) (hv : Derives .members v) :
      Derives .members (u ++ v)
  | itemMember {u : List Token} (hu : Derives .item u) : Derives .member u
  | listMember {l u : List Token} (hl : l ∈ kind .label) (hu : Derives .list u) :
      Derives .member (l ++ u)
  | roleMember {l e u : List Token} (hl : l ∈ kind .label) (he : e ∈ optional lineEnd)
      (hu : Derives .statement u) : Derives .member (l ++ e ++ u)
  | list {o e u c f : List Token} (ho : o ∈ punct .openBracket) (he : e ∈ lineEnd)
      (hu : Derives .program u) (hc : c ∈ punct .closeBracket) (hf : f ∈ lineEnd) :
      Derives .list (o ++ e ++ u ++ c ++ f)

/-! ### From forms to derivations: flat parts -/

theorem singleton_mem_token {t : Token} (h : p t = true) : [t] ∈ token p :=
  ⟨t, rfl, h⟩

theorem mem_optional_iff : w ∈ optional l ↔ w = [] ∨ w ∈ l := by
  rw [optional, mem_add, mem_one]

theorem mem_lineEnd_iff : w ∈ lineEnd ↔
    (∃ n, w = [n] ∧ n.isKind .newline = true) ∨
    ∃ t n, w = [t, n] ∧ t.isKind .comment = true ∧ n.isKind .newline = true := by
  rw [lineEnd, mem_mul]
  simp only [mem_optional_iff]
  constructor
  · rintro ⟨_, rfl | ⟨t, rfl, ht⟩, _, ⟨n, rfl, hn⟩, rfl⟩
    · exact .inl ⟨n, rfl, hn⟩
    · exact .inr ⟨t, n, rfl, ht, hn⟩
  · rintro (⟨n, rfl, hn⟩ | ⟨t, n, rfl, ht, hn⟩)
    · exact ⟨[], .inl rfl, [n], ⟨n, rfl, hn⟩, rfl⟩
    · exact ⟨[t], .inr ⟨t, rfl, ht⟩, [n], ⟨n, rfl, hn⟩, rfl⟩

theorem mem_kstar_iff : w ∈ l∗ ↔ w = [] ∨ ∃ u ∈ l, ∃ v ∈ l∗, u ++ v = w := by
  conv_lhs => rw [← one_add_self_mul_kstar_eq_kstar l]
  rw [mem_add, mem_one, mem_mul]

theorem append_mem_kstar {v : List Token} (hu : u ∈ l) (hv : v ∈ l∗) : u ++ v ∈ l∗ :=
  mem_kstar_iff.mpr (.inr ⟨u, hu, v, hv, rfl⟩)

theorem exists_mem_lines {ts : List Token} (h : Lines k input ts rest) :
    ∃ w ∈ lines k, input = w ++ rest ∧ (ts ≠ [] → w ≠ []) := by
  induction h with
  | stop => exact ⟨[], nil_mem_kstar _, rfl, fun h => absurd rfl h⟩
  | @line t n _ _ _ ht hn _ ih =>
    obtain ⟨w, hw, rfl, -⟩ := ih
    have hline : [t, n] ∈ kind k * kind .newline :=
      ⟨[t], singleton_mem_token ht, [n], singleton_mem_token hn, rfl⟩
    exact ⟨[t, n] ++ w, append_mem_kstar hline hw, rfl, fun _ => cons_ne_nil _ _⟩

theorem exists_mem_lineEnd (h : LineEnd input comments rest) :
    ∃ w ∈ lineEnd, input = w ++ rest := by
  cases h with
  | @bare n _ hn => exact ⟨[n], mem_lineEnd_iff.mpr (.inl ⟨n, rfl, hn⟩), rfl⟩
  | @comment t n _ ht hn => exact ⟨[t, n], mem_lineEnd_iff.mpr (.inr ⟨t, n, rfl, ht, hn⟩), rfl⟩

theorem exists_mem_optional_lineEnd (h : Break input comments rest) :
    ∃ w ∈ optional lineEnd, input = w ++ rest := by
  cases h with
  | none => exact ⟨[], mem_optional_iff.mpr (.inl rfl), rfl⟩
  | some h =>
    obtain ⟨w, hw, rfl⟩ := exists_mem_lineEnd h
    exact ⟨w, mem_optional_iff.mpr (.inr hw), rfl⟩

section Rounds

variable {α : Type} {begins : Token → Bool} {One : List Token → α → List Token → Prop}

theorem exists_mem_rounds (hOne : ∀ {input a rest}, One input a rest → ∃ w ∈ l, input = w ++ rest)
    {isFirst : Bool} {input : List Token} {as : List α}
    (h : Rounds begins One isFirst input as rest) :
    ∃ w, input = w ++ rest ∧
      w ∈ if isFirst then optional (separated l) else (punct .comma * l)∗ := by
  induction h with
  | @stop isFirst rest =>
    refine ⟨[], rfl, ?_⟩
    cases isFirst with
    | true => exact mem_optional_iff.mpr (.inl rfl)
    | false => exact nil_mem_kstar _
  | first ha _ ih =>
    obtain ⟨u, hu, rfl⟩ := hOne ha
    obtain ⟨v, rfl, hv⟩ := ih
    exact ⟨u ++ v, (append_assoc _ _ _).symm, mem_optional_iff.mpr (.inr ⟨u, hu, v, hv, rfl⟩)⟩
  | @more c _ _ _ _ _ hc ha _ ih =>
    obtain ⟨u, hu, rfl⟩ := hOne ha
    obtain ⟨v, rfl, hv⟩ := ih
    refine ⟨([c] ++ u) ++ v, by simp, append_mem_kstar ?_ hv⟩
    exact ⟨[c], singleton_mem_token hc, u, hu, rfl⟩

theorem exists_rounds_of_mem_kstar (hOne : ∀ w ∈ l, ∀ rest, ∃ a, One (w ++ rest) a rest)
    {w : List Token} (hw : w ∈ (punct .comma * l)∗) (hrest : startsWith begins rest = false) :
    ∃ as, Rounds begins One false (w ++ rest) as rest := by
  obtain ⟨ws, rfl, hws⟩ := mem_kstar.mp hw
  clear hw
  induction ws with
  | nil => exact ⟨[], .stop hrest⟩
  | cons w ws ih =>
    rw [forall_mem_cons] at hws
    obtain ⟨⟨_, ⟨c, rfl, hc⟩, u, hu, rfl⟩, hws⟩ := hws
    obtain ⟨as, has⟩ := ih hws
    obtain ⟨a, ha⟩ := hOne u hu (ws.flatten ++ rest)
    refine ⟨a :: as, ?_⟩
    rw [flatten_cons, append_assoc, append_assoc]
    exact .more hc ha has

theorem exists_rounds_of_mem_optional (hOne : ∀ w ∈ l, ∀ rest, ∃ a, One (w ++ rest) a rest)
    {w : List Token} (hw : w ∈ optional (separated l)) (hrest : startsWith begins rest = false) :
    ∃ as, Rounds begins One true (w ++ rest) as rest := by
  rcases mem_optional_iff.mp hw with rfl | ⟨u, hu, v, hv, rfl⟩
  · exact ⟨[], .stop hrest⟩
  · obtain ⟨as, has⟩ := exists_rounds_of_mem_kstar hOne hv hrest
    obtain ⟨a, ha⟩ := hOne u hu (v ++ rest)
    refine ⟨a :: as, ?_⟩
    rw [append_assoc]
    exact .first ha has

end Rounds

theorem value_eq : value = token isValue := by
  refine congrArg token (funext fun t => ?_)
  rw [Bool.eq_iff_iff, isValue_iff, decide_eq_true_iff]
  rfl

theorem exists_mem_value {v : Token} (h : ValueToken input v rest) :
    ∃ w ∈ value, input = w ++ rest := by
  rw [value_eq]
  cases h with
  | mk hv => exact ⟨[v], singleton_mem_token hv, rfl⟩

theorem exists_valueToken (w : List Token) (hw : w ∈ value) (rest : List Token) :
    ∃ v, ValueToken (w ++ rest) v rest := by
  rw [value_eq] at hw
  obtain ⟨v, rfl, hv⟩ := hw
  exact ⟨v, .mk hv⟩

theorem exists_mem_argumentValue {v : ArgumentValue} (h : OneValue input v rest) :
    ∃ w ∈ argumentValue, input = w ++ rest := by
  cases h with
  | @single v _ hv =>
    have htoken : ValueToken (v :: rest) v rest := .mk hv
    obtain ⟨w, hw, hinput⟩ := exists_mem_value htoken
    exact ⟨w, .inl hw, hinput⟩
  | @list o c _ _ _ ho h hc =>
    obtain ⟨w, rfl, hw⟩ := exists_mem_rounds exists_mem_value h
    refine ⟨[o] ++ w ++ [c], .inr ⟨[o] ++ w, ⟨[o], ?_, w, hw, rfl⟩, [c], ?_, rfl⟩, by simp⟩
    · exact singleton_mem_token ho
    · exact singleton_mem_token hc

theorem exists_oneValue (w : List Token) (hw : w ∈ argumentValue) (rest : List Token) :
    ∃ v, OneValue (w ++ rest) v rest := by
  rcases hw with hw | ⟨_, ⟨_, ⟨o, rfl, ho⟩, u, hu, rfl⟩, _, ⟨c, rfl, hc⟩, rfl⟩
  · rw [value_eq] at hw
    obtain ⟨v, rfl, hv⟩ := hw
    exact ⟨_, .single hv⟩
  · have hstop : startsWith continuesList (c :: rest) = false := by
      rw [startsWith_cons, continuesList, isPunct_of_isPunct hc, isKind, isValue,
        kind_of_isPunct hc]
      decide
    obtain ⟨vs, hvs⟩ := exists_rounds_of_mem_optional exists_valueToken hu hstop
    refine ⟨.list vs, ?_⟩
    simpa using OneValue.list ho hvs hc

theorem exists_mem_argument {a : Argument} (h : OneArgument input a rest) :
    ∃ w ∈ argument, input = w ++ rest := by
  cases h with
  | unlabeled h =>
    obtain ⟨w, hw, rfl⟩ := exists_mem_argumentValue h
    exact ⟨w, ⟨[], mem_optional_iff.mpr (.inl rfl), w, hw, rfl⟩, rfl⟩
  | @labeled l _ _ _ hl h =>
    obtain ⟨w, hw, rfl⟩ := exists_mem_argumentValue h
    exact ⟨l :: w, ⟨[l], mem_optional_iff.mpr (.inr (singleton_mem_token hl)), w, hw, rfl⟩, rfl⟩

theorem exists_oneArgument (w : List Token) (hw : w ∈ argument) (rest : List Token) :
    ∃ a, OneArgument (w ++ rest) a rest := by
  obtain ⟨l, hl, u, hu, rfl⟩ := hw
  obtain ⟨v, hv⟩ := exists_oneValue u hu rest
  rcases mem_optional_iff.mp hl with rfl | ⟨t, rfl, ht⟩
  · exact ⟨_, .unlabeled hv⟩
  · exact ⟨_, .labeled ht hv⟩

/-! ### From forms to derivations -/

/-- The symbol of what a form takes. -/
def symbol : Part → Symbol
  | .command _ _ => .command
  | .statement true => .item
  | .statement false => .statement
  | .members => .members
  | .items _ => .program

theorem Derives.of_reads {part : Part} (h : Reads part input b rest) :
    ∃ w, input = w ++ rest ∧ Derives (symbol part) w := by
  induction h with
  | @leaf _ _ w _ _ _ _ _ hw ha he =>
    obtain ⟨a, rfl, hargs⟩ := exists_mem_rounds exists_mem_argument ha
    obtain ⟨e, hend, rfl⟩ := exists_mem_lineEnd he
    exact ⟨[w] ++ a ++ e, by simp, .leaf (singleton_mem_token hw) hargs hend⟩
  | @branch _ _ w _ _ o _ _ _ _ _ c _ _ _ hw ha ho hh _ hc he ih =>
    obtain ⟨a, rfl, hargs⟩ := exists_mem_rounds exists_mem_argument ha
    obtain ⟨e, hheader, rfl⟩ := exists_mem_lineEnd hh
    obtain ⟨m, rfl, hmembers⟩ := ih
    obtain ⟨f, hfooter, rfl⟩ := exists_mem_lineEnd he
    have hblock : Derives .block ([o] ++ e ++ m ++ [c]) :=
      .block (singleton_mem_token ho) hheader hmembers (singleton_mem_token hc)
    exact ⟨[w] ++ a ++ ([o] ++ e ++ m ++ [c]) ++ f, by simp,
      .branch (singleton_mem_token hw) hargs hblock hfooter⟩
  | @lead isLoose _ _ _ _ _ _ _ hc hn _ ih =>
    obtain ⟨c, hcomments, rfl, -⟩ := exists_mem_lines hc
    obtain ⟨n, hnotes, rfl, -⟩ := exists_mem_lines hn
    obtain ⟨u, rfl, hu⟩ := ih
    refine ⟨c ++ n ++ u, by simp, ?_⟩
    cases isLoose with
    | true => exact .statementItem (.statement hcomments hnotes hu)
    | false => exact .statement hcomments hnotes hu
  | loose hc habove =>
    obtain ⟨c, hcomments, rfl, hne⟩ := exists_mem_lines hc
    exact ⟨c, rfl, .commentItem hcomments (hne habove)⟩
  | noMember => exact ⟨[], rfl, .noMember⟩
  | @listMember l o _ _ _ _ c _ _ _ _ _ _ hl ho hh _ hc hf _ ihi ih =>
    obtain ⟨e, hheader, rfl⟩ := exists_mem_lineEnd hh
    obtain ⟨u, rfl, hu⟩ := ihi
    obtain ⟨f, hfooter, rfl⟩ := exists_mem_lineEnd hf
    obtain ⟨v, rfl, hv⟩ := ih
    have hlist : Derives .list ([o] ++ e ++ u ++ [c] ++ f) :=
      .list (singleton_mem_token ho) hheader hu (singleton_mem_token hc) hfooter
    exact ⟨[l] ++ ([o] ++ e ++ u ++ [c] ++ f) ++ v, by simp,
      .members (.listMember (singleton_mem_token hl) hlist) hv⟩
  | @roleMember l _ _ _ _ _ _ _ _ hl _ hb _ _ ihs ih =>
    obtain ⟨e, he, rfl⟩ := exists_mem_optional_lineEnd hb
    obtain ⟨u, rfl, hu⟩ := ihs
    obtain ⟨v, rfl, hv⟩ := ih
    exact ⟨[l] ++ e ++ u ++ v, by simp, .members (.roleMember (singleton_mem_token hl) he hu) hv⟩
  | member _ _ ihs ih =>
    obtain ⟨u, rfl, hu⟩ := ihs
    obtain ⟨v, rfl, hv⟩ := ih
    exact ⟨u ++ v, by simp, .members (.itemMember hu) hv⟩
  | noItem => exact ⟨[], rfl, .noItem⟩
  | item _ _ ihs ih =>
    obtain ⟨u, rfl, hu⟩ := ihs
    obtain ⟨v, rfl, hv⟩ := ih
    exact ⟨u ++ v, by simp, .items hu hv⟩

/-! ### From derivations to forms -/

theorem exists_lineEnd {e : List Token} (he : e ∈ lineEnd) (rest : List Token) :
    ∃ comments, LineEnd (e ++ rest) comments rest := by
  rcases mem_lineEnd_iff.mp he with ⟨n, rfl, hn⟩ | ⟨t, n, rfl, ht, hn⟩
  · exact ⟨[], .bare hn⟩
  · exact ⟨endOf t, .comment ht hn⟩

theorem exists_lines_append (hc : c ∈ lines k) {ts : List Token} (h : Lines k input ts rest) :
    ∃ ts', Lines k (c ++ input) ts' rest ∧ (c ≠ [] ∨ ts ≠ [] → ts' ≠ []) := by
  obtain ⟨ws, rfl, hws⟩ := mem_kstar.mp hc
  clear hc
  induction ws with
  | nil => exact ⟨ts, h, fun hne => hne.resolve_left (absurd rfl)⟩
  | cons w ws ih =>
    rw [forall_mem_cons] at hws
    obtain ⟨⟨_, ⟨t, rfl, ht⟩, _, ⟨n, rfl, hn⟩, rfl⟩, hws⟩ := hws
    obtain ⟨ts', hts', -⟩ := ih hws
    exact ⟨t :: ts', .line ht hn hts', fun _ => cons_ne_nil _ _⟩

theorem startsWith_append_of_mem_lines (hc : c ∈ lines k)
    (hp : ∀ t : Token, t.isKind k = true → p t = false) (hinput : startsWith p input = false) :
    startsWith p (c ++ input) = false := by
  rcases mem_kstar_iff.mp hc with rfl | ⟨_, ⟨_, ⟨t, rfl, ht⟩, _, ⟨n, rfl, -⟩, rfl⟩, v, -, rfl⟩
  · exact hinput
  · exact hp t ht

theorem exists_reads_command {above notes : List Token}
    (h : Reads (.command above notes) input b rest) (above' notes' : List Token) :
    ∃ es, Reads (.command above' notes') input (es, []) rest := by
  cases h with
  | leaf hw ha he => exact ⟨_, .leaf hw ha he⟩
  | branch hw ha ho hh hm hc he => exact ⟨_, .branch hw ha ho hh hm hc he⟩

theorem startsWith_command {above notes : List Token}
    (h : Reads (.command above notes) input b rest)
    (hp : ∀ t : Token, t.kind = .identifier → p t = false) : startsWith p input = false := by
  obtain ⟨w, input, rfl, hw⟩ := exists_cons_of_startsWith h.starts_command
  exact hp w (isKind_iff.mp hw)

theorem exists_reads_statement {n : List Token} (hc : c ∈ lines .comment) (hn : n ∈ lines .note)
    (hu : Reads (.command [] []) (u ++ rest) b rest) (isLoose : Bool) :
    ∃ es, Reads (.statement isLoose) (c ++ n ++ u ++ rest) (es, []) rest := by
  have hstop : startsWith (·.isKind .note) (u ++ rest) = false :=
    startsWith_command hu fun t ht => by simp [isKind, ht]
  obtain ⟨notes, hnotes, -⟩ := exists_lines_append hn (.stop hstop)
  have hnext : startsWith (·.isKind .comment) (n ++ (u ++ rest)) = false :=
    startsWith_append_of_mem_lines hn (fun t ht => by simp [isKind, isKind_iff.mp ht])
      (startsWith_command hu fun t ht => by simp [isKind, ht])
  obtain ⟨above, habove, -⟩ := exists_lines_append hc (.stop hnext)
  obtain ⟨es, hes⟩ := exists_reads_command hu above notes
  refine ⟨es, ?_⟩
  rw [append_assoc, append_assoc]
  exact .lead habove hnotes hes

theorem exists_reads_statement_append (hc : c ∈ lines .comment)
    (h : Reads (.statement true) input (es, []) rest) :
    ∃ es', Reads (.statement true) (c ++ input) (es', []) rest := by
  cases h with
  | lead habove hnotes h =>
    obtain ⟨above, hlines, -⟩ := exists_lines_append hc habove
    obtain ⟨es', hes'⟩ := exists_reads_command h above _
    exact ⟨es', .lead hlines hnotes hes'⟩
  | loose habove hne hn hi =>
    obtain ⟨above, hlines, hne'⟩ := exists_lines_append hc habove
    exact ⟨_, .loose hlines (hne' (.inr hne)) hn hi⟩

theorem exists_reads_loose (hc : c ∈ lines .comment) (hne : c ≠ [])
    (hrest : startsWith opensStatement rest = false) :
    ∃ es, Reads (.statement true) (c ++ rest) (es, []) rest := by
  have hnot (k : TokenKind) (hk : k = .comment ∨ k = .note ∨ k = .identifier) :
      startsWith (·.isKind k) rest = false := by
    cases rest with
    | nil => rfl
    | cons t rest =>
      rw [startsWith_cons, isKind_eq_false_iff]
      rintro rfl
      rw [startsWith_cons, opensStatement_iff.mpr hk] at hrest
      cases hrest
  obtain ⟨above, hlines, hne'⟩ := exists_lines_append hc (.stop (hnot .comment (by simp)))
  exact ⟨_, .loose hlines (hne' (.inl hne)) (hnot .note (by simp)) (hnot .identifier (by simp))⟩

theorem exists_break {e n : List Token} (he : e ∈ optional lineEnd) (hc : c ∈ lines .comment)
    (hn : n ∈ lines .note) (hu : Reads (.command [] []) (u ++ rest) b rest) :
    ∃ header mid es, Break (e ++ (c ++ n ++ u ++ rest)) header mid ∧
      Reads (.statement false) mid (es, []) rest := by
  rcases mem_optional_iff.mp he with rfl | he
  · rcases mem_kstar_iff.mp hc with rfl | ⟨_, ⟨_, ⟨t, rfl, ht⟩, _, ⟨m, rfl, hm⟩, rfl⟩, v, hv, rfl⟩
    · obtain ⟨es, hes⟩ := exists_reads_statement hc hn hu false
      refine ⟨[], _, es, .none ?_, hes⟩
      rw [nil_append, nil_append, append_assoc]
      exact startsWith_append_of_mem_lines hn
        (fun t ht => by simp [isKind, isKind_iff.mp ht])
        (startsWith_command hu fun t ht => by simp [isKind, ht])
    · obtain ⟨es, hes⟩ := exists_reads_statement hv hn hu false
      exact ⟨_, _, es, .some (.comment ht hm), hes⟩
  · obtain ⟨header, hheader⟩ := exists_lineEnd he (c ++ n ++ u ++ rest)
    obtain ⟨es, hes⟩ := exists_reads_statement hc hn hu false
    exact ⟨header, _, es, .some hheader, hes⟩

theorem startsWith_openBracket_of_break {header : List Comment} {mid : List Token}
    (hb : Break input header mid) (hs : Reads (.statement false) mid (es, []) rest) :
    startsWith (·.isPunct .openBracket) input = false := by
  cases hb with
  | none =>
    obtain ⟨t, _, rfl, ht⟩ := exists_cons_of_startsWith hs.starts_statement
    exact isPunct_eq_false_of_opensStatement ht _
  | some h =>
    obtain ⟨t, _, rfl, ht⟩ := exists_cons_of_startsWith h.starts
    rw [Bool.or_eq_true, isKind_iff, isKind_iff] at ht
    exact isPunct_eq_false (by rcases ht with ht | ht <;> simp [ht]) _

/-- A command, whatever stands behind it. -/
def ReadableCommand (w : List Token) : Prop :=
  ∀ rest, ∃ b, Reads (.command [] []) (w ++ rest) b rest

/-- A command below comment and note lines. The comment lines are kept apart, since a role label in
front of them may take the first one. -/
def ReadableStatement (w : List Token) : Prop :=
  ∃ c ∈ lines .comment, ∃ n ∈ lines .note, ∃ u, w = c ++ n ++ u ∧ ReadableCommand u

/-- How the readers find what a symbol derives, with some tokens behind it. -/
def Readable : Symbol → List Token → Prop
  | .program, w => ∀ (stop : Option Punct) (rest : List Token),
      startsWith (fun t => !stop.any t.isPunct) rest = false →
      ∃ es, Reads (.items stop) (w ++ rest) (es, []) rest
  | .item, w => ReadableStatement w ∨ (w ∈ lines .comment ∧ w ≠ [])
  | .statement, w => ReadableStatement w
  | .command, w => ReadableCommand w
  | .block, w => ∀ rest, ∃ b, BracedMembers (w ++ rest) b rest
  | .members, w => ∀ rest, startsWith (fun t => !t.isPunct .closeBrace) rest = false →
      ∃ b, Reads .members (w ++ rest) b rest
  | .member, w => ∀ {input b rest}, Reads .members input b rest →
      ∃ b, Reads .members (w ++ input) b rest
  | .list, w => ∀ rest, ∃ b, BracketedItems (w ++ rest) b rest

theorem ReadableStatement.exists_reads (h : ReadableStatement w) (rest : List Token) :
    ∃ es, Reads (.statement true) (w ++ rest) (es, []) rest := by
  obtain ⟨c, hc, n, hn, u, rfl, hu⟩ := h
  obtain ⟨b, hb⟩ := hu rest
  exact exists_reads_statement hc hn hb true

theorem exists_reads_items (hu : Readable .item u) {stop : Option Punct}
    (h : Reads (.items stop) input (es, []) rest) :
    ∃ es', Reads (.items stop) (u ++ input) (es', []) rest := by
  rcases hu with hu | ⟨hc, hne⟩
  · obtain ⟨es', hes'⟩ := hu.exists_reads input
    exact ⟨_, .item hes' h⟩
  · by_cases hopens : startsWith opensStatement input = true
    · cases h with
      | noItem hstop =>
        rw [startsWith_not_stop hopens] at hstop
        cases hstop
      | item hs h =>
        obtain ⟨es', hes'⟩ := exists_reads_statement_append hc hs
        exact ⟨_, .item hes' h⟩
    · obtain ⟨es', hes'⟩ := exists_reads_loose hc hne (by simpa using hopens)
      exact ⟨_, .item hes' h⟩

theorem exists_reads_members (hu : Readable .item u) (h : Reads .members input b rest) :
    ∃ b', Reads .members (u ++ input) b' rest := by
  rcases hu with hu | ⟨hc, hne⟩
  · obtain ⟨es', hes'⟩ := hu.exists_reads input
    exact ⟨_, .member hes' h⟩
  · by_cases hopens : startsWith opensStatement input = true
    · cases h with
      | member hs h =>
        obtain ⟨es', hes'⟩ := exists_reads_statement_append hc hs
        exact ⟨_, .member hes' h⟩
      | noMember hstop =>
        have hgoes := startsWith_not_stop hopens (some .closeBrace)
        exact absurd (hgoes.symm.trans hstop) (by simp)
      | listMember hl | roleMember hl =>
        rw [startsWith_cons, opensStatement_eq_false_of_label hl] at hopens
        cases hopens
    · obtain ⟨es', hes'⟩ := exists_reads_loose hc hne (by simpa using hopens)
      exact ⟨_, .member hes' h⟩

theorem startsWith_startsArgument_eq_false {t : Token} (rest : List Token)
    (h : t.isPunct .openBrace = true ∨ t.isKind .comment = true ∨ t.isKind .newline = true) :
    startsWith startsArgument (t :: rest) = false := by
  rw [startsWith_cons, startsArgument]
  rcases h with h | h | h
  · rw [isPunct_of_isPunct h, isPunct_of_isPunct h, isValue, isKind,
      isKind, kind_of_isPunct h]
    decide
  all_goals
    rw [isKind_iff] at h
    rw [isPunct_eq_false (by simp [h]), isPunct_eq_false (by simp [h]), isValue,
      isKind, isKind, h]
    decide

theorem startsWith_startsArgument_lineEnd (h : LineEnd input comments rest) :
    startsWith startsArgument input = false := by
  cases h with
  | bare hn => exact startsWith_startsArgument_eq_false _ (.inr (.inr hn))
  | comment ht => exact startsWith_startsArgument_eq_false _ (.inr (.inl ht))

theorem Derives.readable {symbol : Symbol} (h : Derives symbol w) : Readable symbol w := by
  induction h with
  | noItem => exact fun stop rest hrest => ⟨[], .noItem hrest⟩
  | items _ _ ihu ihv =>
    intro stop rest hrest
    obtain ⟨es, hes⟩ := ihv stop rest hrest
    rw [append_assoc]
    exact exists_reads_items ihu hes
  | statementItem _ ih => exact .inl ih
  | commentItem hc hne => exact .inr ⟨hc, hne⟩
  | statement hc hn _ ih => exact ⟨_, hc, _, hn, _, rfl, ih⟩
  | @leaf w a e hw ha he =>
    intro rest
    obtain ⟨t, rfl, ht⟩ := hw
    obtain ⟨footer, hfooter⟩ := exists_lineEnd he rest
    obtain ⟨args, hargs⟩ := exists_rounds_of_mem_optional exists_oneArgument ha
      (startsWith_startsArgument_lineEnd hfooter)
    rw [append_assoc, append_assoc]
    exact ⟨_, .leaf ht hargs hfooter⟩
  | @branch w a b e hw ha _ he ih =>
    intro rest
    obtain ⟨t, rfl, ht⟩ := hw
    obtain ⟨footer, hfooter⟩ := exists_lineEnd he rest
    obtain ⟨body, hbody⟩ := ih (e ++ rest)
    simp only [append_assoc]
    generalize b ++ (e ++ rest) = input at hbody
    cases hbody with
    | mk ho hh hm hc =>
      obtain ⟨args, hargs⟩ := exists_rounds_of_mem_optional exists_oneArgument ha
        (startsWith_startsArgument_eq_false _ (.inl ho))
      exact ⟨_, .branch ht hargs ho hh hm hc hfooter⟩
  | @block _ _ m _ ho he _ hc ih =>
    intro rest
    obtain ⟨o, rfl, ho⟩ := ho
    obtain ⟨c, rfl, hc⟩ := hc
    obtain ⟨b, hb⟩ := ih (c :: rest) (by simp [hc])
    obtain ⟨header, hheader⟩ := exists_lineEnd he (m ++ c :: rest)
    simp only [append_assoc]
    exact ⟨_, .mk ho hheader hb hc⟩
  | noMember => exact fun rest hrest => ⟨_, .noMember hrest⟩
  | members _ _ ihu ihv =>
    intro rest hrest
    obtain ⟨b, hb⟩ := ihv rest hrest
    rw [append_assoc]
    exact ihu hb
  | itemMember _ ih => exact fun h => exists_reads_members ih h
  | listMember hl _ ih =>
    intro input b rest h
    obtain ⟨l, rfl, hl⟩ := hl
    obtain ⟨b', hb'⟩ := ih input
    simp only [append_assoc]
    generalize _ ++ input = input' at hb'
    cases hb' with
    | mk ho hh hi hc hf => exact ⟨_, .listMember hl ho hh hi hc hf h⟩
  | roleMember hl he _ ih =>
    intro input b rest h
    obtain ⟨l, rfl, hl⟩ := hl
    obtain ⟨c, hc, n, hn, u, rfl, hu⟩ := ih
    obtain ⟨b', hb'⟩ := hu input
    obtain ⟨header, mid, es, hbreak, hes⟩ := exists_break he hc hn hb'
    rw [append_assoc, append_assoc]
    exact ⟨_, .roleMember hl (startsWith_openBracket_of_break hbreak hes) hbreak hes h⟩
  | @list _ _ u _ f ho he _ hc hf ih =>
    intro rest
    obtain ⟨o, rfl, ho⟩ := ho
    obtain ⟨c, rfl, hc⟩ := hc
    obtain ⟨footer, hfooter⟩ := exists_lineEnd hf rest
    obtain ⟨es, hes⟩ := ih (some .closeBracket) (c :: (f ++ rest)) (by simp [hc])
    obtain ⟨header, hheader⟩ := exists_lineEnd he (u ++ c :: (f ++ rest))
    simp only [append_assoc]
    exact ⟨_, .mk ho hheader hes hc hfooter⟩

/-! ### Whole texts -/

/-- Reading tells no problem exactly where the tokens are derived from the grammar. -/
theorem problems_eq_nil_iff_derives (tokens : List Token) :
    (parse tokens).problems = [] ↔ Derives .program tokens := by
  rw [parse_problems_eq_nil_iff]
  constructor
  · rintro ⟨es, hes⟩
    obtain ⟨w, hw, hderives⟩ := Derives.of_reads hes
    rwa [hw, List.append_nil]
  · intro h
    obtain ⟨es, hes⟩ := h.readable none [] rfl
    rw [List.append_nil] at hes
    exact ⟨es, hes⟩

end Grammar

end CommandText
