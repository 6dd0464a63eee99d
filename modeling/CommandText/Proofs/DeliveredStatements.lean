import CommandText.Proofs.ExactReaders
import CommandText.Proofs.LaidReading
import CommandText.Proofs.Visiting
import Mathlib.Data.List.Perm.Basic

/-!
# The statements that are delivered

A visitor is told of each statement once its block is complete, so it hears of the statements of a
text in the order in which they end. Where a text is read without a miss, these are all statements
of the text: each word that begins a line, perhaps behind a label, is the command of exactly one of
them, and each statement stands either on root level or in the block of exactly one other.
-/

namespace CommandText

open List Entry Token

/-! ### The words that begin a line -/

/-- The words that begin a line, perhaps behind a label. The flag says that a line begins here. -/
def commandWords : Bool → List Token → List Token
  | _, [] => []
  | begins, t :: rest =>
    if begins && t.isKind .identifier then t :: commandWords false rest
    else commandWords (t.isKind .newline || begins && t.isKind .label) rest

theorem commandWords_word {w : Token} (hw : w.isKind .identifier = true) (rest : List Token) :
    commandWords true (w :: rest) = w :: commandWords false rest := by
  rw [commandWords, hw]
  rfl

theorem commandWords_label {l : Token} (hl : l.isKind .label = true) (rest : List Token) :
    commandWords true (l :: rest) = commandWords true rest := by
  have hword : l.isKind .identifier = false := by
    simp [Token.isKind, isKind_iff.mp hl]
  rw [commandWords, hword, hl, Bool.and_self, Bool.or_true]
  rfl

theorem commandWords_newline (begins : Bool) {n : Token} (hn : n.isKind .newline = true)
    (rest : List Token) : commandWords begins (n :: rest) = commandWords true rest := by
  have hword : n.isKind .identifier = false := by
    simp [Token.isKind, isKind_iff.mp hn]
  rw [commandWords, hword, hn, Bool.and_false, Bool.true_or]
  rfl

theorem commandWords_skip (begins : Bool) {t : Token}
    (ht : t.kind ∉ [.identifier, .label, .newline]) (rest : List Token) :
    commandWords begins (t :: rest) = commandWords false rest := by
  simp only [mem_cons, not_mem_nil, or_false, not_or] at ht
  obtain ⟨hword, hlabel, hnewline⟩ := ht
  rw [commandWords, isKind_eq_false_iff.mpr hword, isKind_eq_false_iff.mpr hlabel,
    isKind_eq_false_iff.mpr hnewline, Bool.and_false, Bool.or_false]
  rfl

theorem commandWords_punct (begins : Bool) {t : Token} {p : Punct} (ht : t.isPunct p = true)
    (rest : List Token) : commandWords begins (t :: rest) = commandWords false rest :=
  commandWords_skip begins (by rw [kind_of_isPunct ht]; decide) rest

theorem commandWords_within {tokens : List Token} (h : ∀ t ∈ tokens, t.isKind .newline = false)
    (rest : List Token) : commandWords false (tokens ++ rest) = commandWords false rest := by
  induction tokens with
  | nil => rfl
  | cons t tokens ih =>
    obtain ⟨ht, htokens⟩ := forall_mem_cons.mp h
    rw [cons_append, commandWords, ht, Bool.false_and, Bool.false_and]
    exact ih htokens

namespace Form

variable {input rest : List Token}

theorem LineEnd.commandWords {comments : List Comment} (h : LineEnd input comments rest)
    (begins : Bool) : commandWords begins input = commandWords true rest := by
  cases h with
  | bare hn => exact commandWords_newline begins hn _
  | comment ht hn =>
    rw [commandWords_skip begins (by rw [isKind_iff.mp ht]; decide),
      commandWords_newline _ hn]

theorem Break.commandWords {comments : List Comment} (h : Break input comments rest) :
    commandWords true input = commandWords true rest := by
  cases h with
  | none => rfl
  | some h => exact h.commandWords true

theorem Lines.commandWords {kind : TokenKind} (hkind : kind ∉ [.identifier, .label, .newline])
    {ts : List Token} (h : Lines kind input ts rest) :
    commandWords true input = commandWords true rest := by
  induction h with
  | stop => rfl
  | line ht hn _ ih =>
    rw [commandWords_skip true (isKind_iff.mp ht ▸ hkind), commandWords_newline _ hn, ih]

theorem Arguments.commandWords {isFirst : Bool} {args : List Argument}
    (h : Arguments isFirst input args rest) :
    commandWords false input = commandWords false rest := by
  obtain ⟨tokens, rfl, htokens, -⟩ := h.move
  exact commandWords_within (fun t ht => (newline_of_inArguments (htokens.all t ht)).1) rest

end Form

/-! ### Writing statements down -/

/-- The visitor who writes down the statements that it is told of. It answers with their numbers,
so that a statement comes with the numbers of those in its block. -/
def scribe : Visitor (List (Statement Nat)) Unit Nat where
  enter _ _ := return ()
  leave statement _ := do
    let told ← get
    set (told ++ [statement])
    return some told.length
  comment _ := return ()

/-- The statements of some entries, in the order in which they end. -/
def Entry.statements (entries : List Entry) : List (Statement Nat) :=
  (visitAll scribe none entries []).2

theorem visit_scribe (enclosing : Option Unit) (w : Token) (args : List Argument)
    (body : List Entry) (closing : Closing) (told : List (Statement Nat)) :
    (statement w args body (some closing)).visit scribe enclosing told =
      let r := visitAll scribe (some ()) body told
      ([.child r.2.length],
        r.2 ++ [⟨w, args, r.1, closing.comments, closing.note, enclosing.isNone⟩]) := rfl

theorem prefix_visitAll_scribe (enclosing : Option Unit) (entries : List Entry)
    (told : List (Statement Nat)) : told <+: (visitAll scribe enclosing entries told).2 := by
  refine Visitor.Keeps.visitAll (v := scribe) (P := fun _ told _ told' => told <+: told')
    ⟨?_, ?_, ?_, ?_, ?_, ?_⟩ enclosing entries told
  · exact fun _ _ => prefix_refl _
  · exact fun h h' => h.trans h'
  · exact fun _ _ _ => prefix_refl _
  · exact fun _ _ h => h
  · exact fun h => h
  · exact fun _ _ _ h => h.trans (prefix_append _ _)

/-- What stands in the block of a statement, with or without a role. -/
def Statement.children {α : Type} (statement : Statement α) : List α :=
  statement.members.flatMap Member.answers

/-- The numbers of the statements on root level. -/
def rootNumbers (statements : List (Statement Nat)) : List Nat :=
  (List.range statements.length).filter fun k => statements[k]?.any (·.isRoot)

/-- The commands of the statements that have these numbers. -/
def commandsAt (statements : List (Statement Nat)) (numbers : List Nat) : List Token :=
  numbers.filterMap fun k => statements[k]?.map (·.command)

variable {told new : List (Statement Nat)} {numbers numbers' : List Nat}

theorem rootNumbers_concat (told : List (Statement Nat)) (statement : Statement Nat) :
    rootNumbers (told ++ [statement]) =
      rootNumbers told ++ if statement.isRoot then [told.length] else [] := by
  have hbefore : (List.range told.length).filter
      (fun k => (told ++ [statement])[k]?.any (·.isRoot)) = rootNumbers told := by
    refine filter_congr fun k hk => ?_
    rw [getElem?_append_left (mem_range.mp hk)]
  rw [rootNumbers, length_append, length_singleton, range_succ, filter_append,
    hbefore]
  cases h : statement.isRoot <;> simp [h]

theorem commandsAt_append (told : List (Statement Nat)) (numbers numbers' : List Nat) :
    commandsAt told (numbers ++ numbers') = commandsAt told numbers ++ commandsAt told numbers' :=
  filterMap_append

theorem commandsAt_later (h : ∀ k ∈ numbers, k < told.length) (new : List (Statement Nat)) :
    commandsAt (told ++ new) numbers = commandsAt told numbers := by
  refine filterMap_congr fun k hk => ?_
  rw [getElem?_append_left (h k hk)]

/-! ### What is told of a part of a text -/

/-- Statements that are told behind some others, with the numbers that are handed on. -/
structure Recorded (words : List Token) (isRoot : Bool) (told : List (Statement Nat))
    (numbers : List Nat) (new : List (Statement Nat)) : Prop where
  /-- Each statement is handed on or stands in the block of one other. -/
  places : (numbers ++ new.flatMap Statement.children).Perm (List.range' told.length new.length)
  commands : (new.map (·.command)).Perm words
  order : (commandsAt (told ++ new) numbers).Sublist words
  blocks : ∀ statement ∈ new, (commandsAt (told ++ new) statement.children).Sublist words
  roots : rootNumbers (told ++ new) = rootNumbers told ++ if isRoot then numbers else []

namespace Recorded

variable {words words' : List Token} {isRoot : Bool} {new' : List (Statement Nat)}

theorem nil (isRoot : Bool) (told : List (Statement Nat)) : Recorded [] isRoot told [] [] where
  places := .refl _
  commands := .refl _
  order := .refl _
  blocks := by simp
  roots := by simp

theorem lt_length (h : Recorded words isRoot told numbers new) {k : Nat}
    (hk : k ∈ numbers ∨ ∃ statement ∈ new, k ∈ statement.children) :
    k < (told ++ new).length := by
  have hmem : k ∈ numbers ++ new.flatMap Statement.children := by
    rw [mem_append, mem_flatMap]
    exact hk
  have hrange := mem_range'_1.mp (h.places.mem_iff.mp hmem)
  rw [length_append]
  exact hrange.2

theorem append (h : Recorded words isRoot told numbers new)
    (h' : Recorded words' isRoot (told ++ new) numbers' new') :
    Recorded (words ++ words') isRoot told (numbers ++ numbers') (new ++ new') := by
  refine ⟨?_, ?_, ?_, fun statement hstatement => ?_, ?_⟩
  · rw [flatMap_append, length_append, ← List.range'_append_1]
    have hplaces := h.places.append h'.places
    rw [length_append] at hplaces
    refine List.Perm.trans ?_ hplaces
    simp only [append_assoc]
    exact List.Perm.append_left _ (by
      simp only [← append_assoc]
      exact perm_append_comm.append_right _)
  · rw [map_append]
    exact h.commands.append h'.commands
  · rw [← append_assoc, commandsAt_append, commandsAt_later fun k hk => h.lt_length (.inl hk)]
    exact h.order.append h'.order
  · rw [← append_assoc]
    rcases mem_append.mp hstatement with hstatement | hstatement
    · rw [commandsAt_later fun k hk => h.lt_length (.inr ⟨statement, hstatement, hk⟩)]
      exact (h.blocks statement hstatement).trans (sublist_append_left _ _)
    · exact (h'.blocks statement hstatement).trans (sublist_append_right _ _)
  · rw [← append_assoc, h'.roots, h.roots, append_assoc]
    cases isRoot <;> rfl

theorem statement (statement : Statement Nat)
    (h : Recorded words false told statement.children new) :
    Recorded (statement.command :: words) statement.isRoot told [(told ++ new).length]
      (new ++ [statement]) := by
  have hlater : ∀ inner ∈ new ++ [statement],
      (commandsAt (told ++ new) inner.children).Sublist words ∧
        ∀ k ∈ inner.children, k < (told ++ new).length := by
    intro inner hinner
    rcases mem_append.mp hinner with hinner | hinner
    · exact ⟨h.blocks inner hinner, fun k hk => h.lt_length (.inr ⟨inner, hinner, hk⟩)⟩
    · obtain rfl := mem_singleton.mp hinner
      exact ⟨h.order, fun k hk => h.lt_length (.inl hk)⟩
  refine ⟨?_, ?_, ?_, fun inner hinner => ?_, ?_⟩
  · rw [flatMap_append, flatMap_singleton, length_append, length_append,
      length_singleton, List.range'_concat, Nat.one_mul]
    refine perm_append_comm.trans (List.Perm.append_right _ ?_)
    exact perm_append_comm.trans h.places
  · rw [map_append, map_singleton]
    exact (perm_append_singleton _ _).trans (h.commands.cons _)
  · rw [← append_assoc]
    simp [commandsAt]
  · obtain ⟨hsublist, hlt⟩ := hlater inner hinner
    rw [← append_assoc, commandsAt_later hlt]
    exact hsublist.cons _
  · rw [← append_assoc, rootNumbers_concat, h.roots, if_neg Bool.false_ne_true,
      append_nil]

end Recorded

namespace Form

/-- Whether roles may occur in a part. -/
def Part.isBlock : Part → Bool
  | members => true
  | _ => false

/-- What a visitor is told of some entries that roles may occur in or not. -/
def Records (isBlock : Bool) (entries : List Entry) (words : List Token) : Prop :=
  ∀ (enclosing : Option Unit) (told : List (Statement Nat)), ∃ members new,
    visitAll scribe enclosing entries told = (members, told ++ new) ∧
      (isBlock = false → members.filterMap Member.child? = members.flatMap Member.answers) ∧
      Recorded words enclosing.isNone told (members.flatMap Member.answers) new

namespace Records

variable {isBlock isBlock' : Bool} {words words' : List Token}

theorem comments (isBlock : Bool) (cs : List Comment) :
    Records isBlock (cs.map .comment) [] := by
  intro enclosing told
  refine ⟨[], [], ?_, fun _ => rfl, .nil enclosing.isNone told⟩
  rw [append_nil]
  induction cs with
  | nil => rfl
  | cons c cs ih =>
    rw [map_cons, visitAll_cons]
    exact ih

theorem nil (isBlock : Bool) : Records isBlock [] [] := comments isBlock []

theorem append {es es' : List Entry} (h : Records isBlock es words)
    (h' : Records isBlock' es' words') (hblock : isBlock' = false → isBlock = false) :
    Records isBlock' (es ++ es') (words ++ words') := by
  intro enclosing told
  obtain ⟨members, new, hrun, hroles, hrecorded⟩ := h enclosing told
  obtain ⟨members', new', hrun', hroles', hrecorded'⟩ := h' enclosing (told ++ new)
  refine ⟨members ++ members', new ++ new', ?_, fun hnone => ?_, ?_⟩
  · rw [visitAll_append, hrun, hrun', append_assoc]
  · rw [filterMap_append, flatMap_append, hroles (hblock hnone), hroles' hnone]
  · rw [flatMap_append]
    exact hrecorded.append hrecorded'

theorem role {items : List Entry} (h : Records false items words) (label : Token) (list : Bool) :
    Records true [.role label list items] words := by
  intro enclosing told
  obtain ⟨members, new, hrun, hroles, hrecorded⟩ := h enclosing told
  refine ⟨[.role label (members.filterMap Member.child?) list], new, ?_, by simp, ?_⟩
  · have hvisit : visitAll scribe enclosing [.role label list items] told =
        let r := visitAll scribe enclosing items told
        ([.role label (r.1.filterMap Member.child?) list], r.2) := rfl
    rw [hvisit, hrun]
  · rw [flatMap_singleton, Member.answers, hroles rfl]
    exact hrecorded

theorem statement {body : List Entry} (h : Records isBlock body words) (w : Token)
    (args : List Argument) (closing : Closing) (isBlock' : Bool) :
    Records isBlock' [.statement w args body (some closing)] (w :: words) := by
  intro enclosing told
  obtain ⟨members, new, hrun, -, hrecorded⟩ := h (some ()) told
  let statement : Statement Nat :=
    ⟨w, args, members, closing.comments, closing.note, enclosing.isNone⟩
  refine ⟨[.child (told ++ new).length], new ++ [statement], ?_, fun _ => rfl,
    hrecorded.statement statement⟩
  rw [visitAll_cons, visit_scribe, hrun, ← append_assoc]
  rfl

end Records

theorem Reads.records {part : Part} {input : List Token} {b : ReadM.Body} {rest : List Token}
    (h : Reads part input b rest) : ∃ words,
      commandWords true input = words ++ commandWords true rest ∧
        Records part.isBlock b.1 words := by
  induction h with
  | leaf hw ha he =>
    refine ⟨[_], ?_, (Records.nil true).statement _ _ _ _⟩
    rw [commandWords_word hw, ha.commandWords, he.commandWords, singleton_append]
  | branch hw ha ho hh _ hc he ih =>
    obtain ⟨words, hwords, hrecords⟩ := ih
    refine ⟨_ :: words, ?_, hrecords.statement _ _ _ _⟩
    rw [commandWords_word hw, ha.commandWords, commandWords_punct _ ho, hh.commandWords, hwords,
      commandWords_punct _ hc, he.commandWords, cons_append]
  | lead hc hn _ ih =>
    obtain ⟨words, hwords, hrecords⟩ := ih
    refine ⟨words, ?_, hrecords⟩
    rw [hc.commandWords (by decide), hn.commandWords (by decide), hwords]
  | loose hc => exact ⟨[], hc.commandWords (by decide), .comments _ _⟩
  | noMember => exact ⟨[], rfl, .nil _⟩
  | listMember hl ho hh _ hc hf _ ihi ih =>
    obtain ⟨inner, hinner, hitems⟩ := ihi
    obtain ⟨words, hwords, hrecords⟩ := ih
    refine ⟨inner ++ words, ?_, (hitems.role _ true).append hrecords nofun⟩
    rw [commandWords_label hl, commandWords_punct _ ho, hh.commandWords, hinner,
      commandWords_punct _ hc, hf.commandWords, hwords, append_assoc]
  | roleMember hl _ hb _ _ ihs ih =>
    obtain ⟨inner, hinner, hchild⟩ := ihs
    obtain ⟨words, hwords, hrecords⟩ := ih
    refine ⟨inner ++ words, ?_, (hchild.role _ false).append hrecords nofun⟩
    rw [commandWords_label hl, hb.commandWords, hinner, hwords, append_assoc]
  | noItem => exact ⟨[], rfl, .nil _⟩
  | member _ _ ihs ih | item _ _ ihs ih =>
    obtain ⟨first, hfirst, hstatement⟩ := ihs
    obtain ⟨words, hwords, hrecords⟩ := ih
    refine ⟨first ++ words, ?_, hstatement.append hrecords fun _ => rfl⟩
    rw [hfirst, hwords, append_assoc]

end Form

theorem recorded_statements {tokens : List Token} (h : (parse tokens).problems = []) :
    Recorded (commandWords true tokens) true []
      (rootNumbers (statements (parse tokens).entries))
      (statements (parse tokens).entries) := by
  have hreads : Form.Reads (.items none) tokens ((parse tokens).entries, []) [] :=
    (parse_eq_iff _ _).mp (congrArg (Parsed.mk _) h)
  obtain ⟨words, hwords, hrecords⟩ := hreads.records
  obtain ⟨members, new, hrun, -, hrecorded⟩ := hrecords none []
  have hstatements : statements (parse tokens).entries = new := by
    rw [statements, hrun]
    rfl
  have hroots : rootNumbers new = members.flatMap Member.answers := hrecorded.roots
  have htokens : commandWords true tokens = words := by
    rw [hwords, commandWords, append_nil]
  rw [hstatements, hroots, htokens]
  exact hrecorded

end CommandText
