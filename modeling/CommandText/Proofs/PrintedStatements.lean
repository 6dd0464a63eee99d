import CommandText.Proofs.Grammar
import CommandText.Proofs.Visiting

/-!
# Printed statements

Trees of statements, to be written in one way: the comment and the note on lines of their own above
the command, the arguments with commas between them, a block only where there is something in it,
and every part of a block on lines of its own. Reading the tokens of a written tree gives the tree
back. What is read is taken from a visitor, who puts together all it is told of a statement, but
for the places of tokens.
-/

namespace CommandText

open Token List Form ReadM Entry

/-! ### Trees -/

/-- A lexeme that may stand as a value. -/
def ValueLexeme := {l : Lexeme // l.kind.isValue = true}

/-- One thing, or a list of things in brackets. -/
inductive OneOrList (α : Type)
  | one (a : α)
  | list (as : List α)

structure TreeArgument where
  label : Option String
  value : OneOrList ValueLexeme

mutual

/-- A statement with the comment and the note above it and the comment at its end. -/
inductive Tree
  | node (above note : Option String) (command : String) (arguments : List TreeArgument)
      (block : List Branch) (footer : Option String)

/-- An element of a block. -/
inductive Branch
  | child (t : Tree)
  | role (label : String) (t : Tree)
  | list (label : String) (ts : List Tree)

end

/-! ### Rendering -/

/-- Renderings with commas between them. -/
def separated : List (List Lexeme) → List Lexeme
  | [] => []
  | w :: ws => w ++ ws.flatMap (.punct .comma :: ·)

/-- A line of its own for a text, where there is one. -/
def ownLine (mk : String → Lexeme) (text : Option String) : List Lexeme :=
  text.toList.flatMap fun s => [mk s, .newline]

def OneOrList.render : OneOrList ValueLexeme → List Lexeme
  | one v => [v.val]
  | list vs => .punct .openBracket :: separated (vs.map ([·.val])) ++ [.punct .closeBracket]

def TreeArgument.render (a : TreeArgument) : List Lexeme :=
  (a.label.map .label).toList ++ a.value.render

/-- A command up to the end of its last line, given the rendering of its block. -/
def renderCommand (command : String) (arguments : List TreeArgument) (block : List Lexeme)
    (footer : Option String) : List Lexeme :=
  .identifier command :: (separated (arguments.map TreeArgument.render) ++
    (block ++ ((footer.map .comment).toList ++ [.newline])))

mutual

/-- The lexemes that a tree is written as. -/
def Tree.render : Tree → List Lexeme
  | .node above note command arguments block footer =>
    ownLine .comment above ++ (ownLine .note note ++ renderCommand command arguments
      (if block.isEmpty then [] else
        .punct .openBrace :: .newline :: (Branch.renderAll block ++ [.punct .closeBrace])) footer)

def Branch.render : Branch → List Lexeme
  | .child t => t.render
  | .role label t => .label label :: .newline :: t.render
  | .list label ts => .label label :: .punct .openBracket :: .newline ::
    (Tree.renderAll ts ++ [.punct .closeBracket, .newline])

def Tree.renderAll : List Tree → List Lexeme
  | [] => []
  | t :: ts => t.render ++ Tree.renderAll ts

def Branch.renderAll : List Branch → List Lexeme
  | [] => []
  | b :: bs => b.render ++ Branch.renderAll bs

end

theorem Tree.renderAll_eq_flatMap (ts : List Tree) :
    Tree.renderAll ts = ts.flatMap Tree.render := by
  induction ts with
  | nil => rfl
  | cons t ts ih => rw [Tree.renderAll, ih, flatMap_cons]

/-! ### What a visitor is told -/

abbrev ToldArgument := Option Lexeme × OneOrList Lexeme

mutual

/-- All that a visitor is told of a statement, without places, and with all it was told of the
statements in its block. -/
inductive Told
  | statement (command : Lexeme) (arguments : List ToldArgument) (members : List ToldMember)
      (comments : List (CommentKind × String)) (note : Option String) (isRoot : Bool)

inductive ToldMember
  | child (s : Told)
  | role (label : Lexeme) (children : List Told) (list : Bool)

end

def ArgumentValue.told : ArgumentValue → OneOrList Lexeme
  | single v => .one v.lexeme
  | list vs => .list (vs.map Token.lexeme)

def Argument.told (a : Argument) : ToldArgument := (a.label.map Token.lexeme, a.value.told)

def Comment.told (c : Comment) : CommentKind × String := (c.kind, c.text)

def Member.told : Member Told → ToldMember
  | child s => .child s
  | role label children list => .role label.lexeme children list

def Statement.told (s : Statement Told) : Told :=
  .statement s.command.lexeme (s.arguments.map Argument.told) (s.members.map Member.told)
    (s.comments.map Comment.told) s.note s.isRoot

/-- What a rebuilder has collected. -/
structure Rebuilt where
  roots : List Told
  loose : List (CommentKind × String)

def Rebuilt.add (r : Rebuilt) (roots : List Told) : Rebuilt := { r with roots := r.roots ++ roots }

/-- The visitor who puts together all it is told. -/
def rebuilder : Visitor Rebuilt Unit Told where
  enter _ _ := return ()
  leave s _ := do
    if s.isRoot then modify (·.add [s.told])
    return some s.told
  comment c := modify fun r => { r with loose := r.loose ++ [c.told] }

/-- What some tokens tell a visitor. -/
def rebuild (tokens : List Token) : Rebuilt :=
  (visitAll rebuilder none (parse tokens).entries ⟨[], []⟩).2

/-! ### What a visitor should be told of a tree -/

def OneOrList.told : OneOrList ValueLexeme → OneOrList Lexeme
  | one v => .one v.val
  | list vs => .list (vs.map (·.val))

def TreeArgument.told (a : TreeArgument) : ToldArgument := (a.label.map .label, a.value.told)

/-- A comment of some kind, where there is one. -/
def toldComment (kind : CommentKind) (text : Option String) : List (CommentKind × String) :=
  (text.map (kind, ·)).toList

mutual

/-- What a visitor should be told of a tree. -/
def Tree.told (isRoot : Bool) : Tree → Told
  | .node above note command arguments block footer =>
    .statement (.identifier command) (arguments.map TreeArgument.told) (Branch.toldAll block)
      (toldComment .above above ++ toldComment .lineEnd footer) note isRoot

def Branch.told : Branch → ToldMember
  | .child t => .child (t.told false)
  | .role label t => .role (.label label) [t.told false] false
  | .list label ts => .role (.label label) (Tree.toldAll false ts) true

def Tree.toldAll (isRoot : Bool) : List Tree → List Told
  | [] => []
  | t :: ts => t.told isRoot :: Tree.toldAll isRoot ts

def Branch.toldAll : List Branch → List ToldMember
  | [] => []
  | b :: bs => b.told :: Branch.toldAll bs

end

theorem Tree.toldAll_eq_map (isRoot : Bool) (ts : List Tree) :
    Tree.toldAll isRoot ts = ts.map (Tree.told isRoot) := by
  induction ts with
  | nil => rfl
  | cons t ts ih => rw [Tree.toldAll, ih, map_cons]

/-! ### Flat parts -/

theorem Token.isKind_of_lexeme {t : Token} {l : Lexeme} (h : t.lexeme = l) :
    t.isKind l.kind = true := by
  rw [isKind_iff, kind, h]

section Flat

variable {ts rest : List Token}

theorem exists_rounds_of_separated {ξ α β : Type} {begins : Token → Bool}
    {One : List Token → α → List Token → Prop} {render : ξ → List Lexeme} {told : α → β}
    {meant : ξ → β}
    (hOne : ∀ x ts rest, ts.map lexeme = render x →
      ∃ a, One (ts ++ rest) a rest ∧ told a = meant x)
    {xs : List ξ} (hts : ts.map lexeme = separated (xs.map render))
    (hrest : startsWith begins rest = false) :
    ∃ as, Rounds begins One true (ts ++ rest) as rest ∧ as.map told = xs.map meant := by
  have more : ∀ (xs : List ξ) (ts : List Token),
      ts.map lexeme = (xs.map render).flatMap (.punct .comma :: ·) →
      ∃ as, Rounds begins One false (ts ++ rest) as rest ∧ as.map told = xs.map meant := by
    intro xs
    induction xs with
    | nil =>
      intro ts hts
      obtain rfl := map_eq_nil_iff.mp hts
      exact ⟨[], .stop hrest, rfl⟩
    | cons x xs ih =>
      intro ts hts
      simp only [map_cons, flatMap_cons, cons_append, map_eq_cons_iff,
        map_eq_append_iff] at hts
      obtain ⟨c, -, rfl, hc, ts₁, ts₂, rfl, hts₁, hts₂⟩ := hts
      obtain ⟨as, has, htold⟩ := ih ts₂ hts₂
      obtain ⟨a, ha, hmeant⟩ := hOne x ts₁ (ts₂ ++ rest) hts₁
      rw [← append_assoc] at ha
      exact ⟨a :: as, .more (isPunct_iff.mpr hc) ha has, by simp [htold, hmeant]⟩
  cases xs with
  | nil =>
    obtain rfl := map_eq_nil_iff.mp hts
    exact ⟨[], .stop hrest, rfl⟩
  | cons x xs =>
    obtain ⟨ts₁, ts₂, rfl, hts₁, hts₂⟩ := map_eq_append_iff.mp hts
    obtain ⟨as, has, htold⟩ := more xs ts₂ hts₂
    obtain ⟨a, ha, hmeant⟩ := hOne x ts₁ (ts₂ ++ rest) hts₁
    rw [← append_assoc] at ha
    exact ⟨a :: as, .first ha has, by simp [htold, hmeant]⟩

theorem exists_valueToken_of_render (v : ValueLexeme) (ts rest : List Token)
    (hts : ts.map lexeme = [v.val]) :
    ∃ t, ValueToken (ts ++ rest) t rest ∧ t.lexeme = v.val := by
  obtain ⟨t, rfl, ht⟩ := map_eq_singleton_iff.mp hts
  have hv : t.isValue = true := by
    rw [isValue, Token.kind, ht]
    exact v.property
  exact ⟨t, .mk hv, ht⟩

theorem exists_oneValue_of_render (v : OneOrList ValueLexeme) (ts rest : List Token)
    (hts : ts.map lexeme = v.render) :
    ∃ a, OneValue (ts ++ rest) a rest ∧ a.told = v.told := by
  cases v with
  | one v =>
    obtain ⟨t, h, ht⟩ := exists_valueToken_of_render v ts rest hts
    generalize ts ++ rest = input at h
    cases h with
    | mk hv => exact ⟨.single t, .single hv, congrArg OneOrList.one ht⟩
  | list vs =>
    simp only [OneOrList.render, cons_append, map_eq_cons_iff, map_eq_append_iff,
      map_eq_nil_iff] at hts
    obtain ⟨o, -, rfl, ho, ts, -, rfl, hts, c, -, rfl, hc, rfl⟩ := hts
    have hstop : startsWith continuesList (c :: rest) = false := by
      rw [startsWith_cons, continuesList, isPunct, isValue, isKind, Token.kind, hc]
      decide
    obtain ⟨us, hus, htold⟩ := exists_rounds_of_separated exists_valueToken_of_render hts hstop
    refine ⟨.list us, ?_, congrArg OneOrList.list htold⟩
    rw [cons_append, append_assoc]
    exact .list (isPunct_iff.mpr ho) hus (isPunct_iff.mpr hc)

theorem exists_oneArgument_of_render (a : TreeArgument) (ts rest : List Token)
    (hts : ts.map lexeme = a.render) :
    ∃ b, OneArgument (ts ++ rest) b rest ∧ b.told = a.told := by
  obtain ⟨label, value⟩ := a
  cases label with
  | none =>
    obtain ⟨v, hv, htold⟩ := exists_oneValue_of_render value ts rest hts
    exact ⟨⟨none, v⟩, .unlabeled hv, Prod.ext rfl htold⟩
  | some label =>
    obtain ⟨l, ts, rfl, hl, hts⟩ := map_eq_cons_iff.mp hts
    obtain ⟨v, hv, htold⟩ := exists_oneValue_of_render value ts rest hts
    exact ⟨⟨some l, v⟩, .labeled (isKind_of_lexeme hl) hv, Prod.ext (congrArg some hl) htold⟩

theorem exists_lineEnd_of_render {footer : Option String}
    (hts : ts.map Token.lexeme = (footer.map .comment).toList ++ [.newline]) (rest : List Token) :
    ∃ cs, LineEnd (ts ++ rest) cs rest ∧ cs.map Comment.told = toldComment .lineEnd footer := by
  cases footer with
  | none =>
    obtain ⟨n, rfl, hn⟩ := map_eq_singleton_iff.mp hts
    exact ⟨[], .bare (isKind_of_lexeme hn), rfl⟩
  | some text =>
    obtain ⟨t, ts, rfl, ht, hts⟩ := map_eq_cons_iff.mp hts
    obtain ⟨n, rfl, hn⟩ := map_eq_singleton_iff.mp hts
    exact ⟨endOf t, .comment (isKind_of_lexeme ht) (isKind_of_lexeme hn),
      by simp [endOf, Comment.told, toldComment, Token.text, ht, Lexeme.text]⟩

theorem startsWith_isKind_eq_false {l : Lexeme} {ls : List Lexeme}
    (hts : ts.map lexeme = l :: ls) {k : TokenKind} (hk : l.kind ≠ k) (rest : List Token) :
    startsWith (·.isKind k) (ts ++ rest) = false := by
  obtain ⟨t, ts, rfl, ht, -⟩ := map_eq_cons_iff.mp hts
  rw [cons_append, startsWith_cons, isKind_eq_false_iff, Token.kind, ht]
  exact hk

theorem exists_lines_of_ownLine {kind : TokenKind} (mk : String → Lexeme)
    (hmk : ∀ s, (mk s).kind = kind ∧ (mk s).text = s) {text : Option String}
    (hts : ts.map lexeme = ownLine mk text)
    (hrest : startsWith (·.isKind kind) rest = false) :
    ∃ us, Lines kind (ts ++ rest) us rest ∧ us.map Token.text = text.toList := by
  cases text with
  | none =>
    obtain rfl := map_eq_nil_iff.mp hts
    exact ⟨[], .stop hrest, rfl⟩
  | some text =>
    simp only [ownLine, Option.toList_some, flatMap_cons, flatMap_nil, append_nil,
      map_eq_cons_iff, map_eq_nil_iff] at hts
    obtain ⟨t, -, rfl, ht, n, -, rfl, hn, rfl⟩ := hts
    have hkind : t.isKind kind = true := by
      rw [isKind_iff, Token.kind, ht, (hmk text).1]
    exact ⟨[t], .line hkind (isKind_of_lexeme hn) (.stop hrest),
      by simp [Token.text, ht, (hmk text).2]⟩

theorem told_commentOf_above {us : List Token} {above : Option String}
    (h : us.map Token.text = above.toList) :
    (commentOf .above us).map Comment.told = toldComment .above above := by
  cases above with
  | none =>
    obtain rfl := map_eq_nil_iff.mp h
    rfl
  | some text =>
    obtain ⟨t, rfl, ht⟩ := map_eq_singleton_iff.mp h
    simp [commentOf, joinLines, Comment.told, toldComment, ht]

theorem noteOf_eq {us : List Token} {note : Option String} (h : us.map Token.text = note.toList) :
    noteOf us = note := by
  cases note with
  | none =>
    obtain rfl := map_eq_nil_iff.mp h
    rfl
  | some text =>
    obtain ⟨t, rfl, ht⟩ := map_eq_singleton_iff.mp h
    simp [noteOf, joinLines, ht]

end Flat

/-! ### What entries tell -/

/-- Working through some entries tells of the trees in order, and of nothing else. -/
def TellsTrees (es : List Entry) (ts : List Tree) : Prop :=
  ∀ enclosing st, visitAll rebuilder enclosing es st =
    ((Tree.toldAll enclosing.isNone ts).map .child,
      if enclosing.isNone then st.add (Tree.toldAll true ts) else st)

/-- Working through the entries of a block tells of its elements in order, and of nothing else. -/
def TellsBlock (es : List Entry) (bs : List Branch) : Prop :=
  ∀ st, ∃ ms, visitAll rebuilder (some ()) es st = (ms, st) ∧
    ms.map Member.told = Branch.toldAll bs

theorem tellsTrees_nil : TellsTrees [] [] := by
  intro enclosing st
  cases enclosing with
  | none => exact congrArg (Prod.mk []) (by simp [Tree.toldAll, Rebuilt.add])
  | some => rfl

theorem TellsTrees.append {es later : List Entry} {t : Tree} {ts : List Tree}
    (h : TellsTrees es [t]) (hlater : TellsTrees later ts) :
    TellsTrees (es ++ later) (t :: ts) := by
  intro enclosing st
  rw [visitAll_append, h, hlater]
  cases enclosing with
  | none => simp [Tree.toldAll, Rebuilt.add]
  | some => rfl

theorem tellsBlock_nil : TellsBlock [] [] := fun _ => ⟨[], rfl, rfl⟩

theorem TellsTrees.tellsBlock {es later : List Entry} {t : Tree} {bs : List Branch}
    (h : TellsTrees es [t]) (hlater : TellsBlock later bs) :
    TellsBlock (es ++ later) (.child t :: bs) := by
  intro st
  obtain ⟨ms, hms, htold⟩ := hlater st
  refine ⟨.child (t.told false) :: ms, ?_, congrArg (_ :: ·) htold⟩
  rw [visitAll_append, h]
  simp only [Option.isNone_some, Bool.false_eq_true, if_false, hms]
  rfl

theorem TellsTrees.tellsBlock_role {items later : List Entry} {ts : List Tree} {bs : List Branch}
    {b : Branch} {l : Token} {list : Bool} (h : TellsTrees items ts)
    (hb : b.told = .role l.lexeme (Tree.toldAll false ts) list) (hlater : TellsBlock later bs) :
    TellsBlock (.role l list items :: later) (b :: bs) := by
  intro st
  obtain ⟨ms, hms, htold⟩ := hlater st
  have hrole : (Entry.role l list items).visit rebuilder (some ()) st =
      ([.role l (Tree.toldAll false ts) list], st) := by
    have hitems := h (some ()) st
    have hchildren (ss : List Told) : (ss.map Member.child).filterMap Member.child? = ss := by
      simp [filterMap_map, Function.comp_def, Member.child?]
    have hvisit : (Entry.role l list items).visit rebuilder (some ()) st =
        let r := visitAll rebuilder (some ()) items st
        ([.role l (r.1.filterMap Member.child?) list], r.2) := rfl
    rw [hvisit, hitems]
    simp [hchildren]
  refine ⟨.role l (Tree.toldAll false ts) list :: ms, ?_, ?_⟩
  · rw [visitAll_cons, hrole, hms]
    rfl
  · rw [map_cons, htold, Branch.toldAll, hb]
    rfl

theorem TellsBlock.tellsTrees {w : Token} {args : List Argument} {body : List Entry}
    {comments : List Comment} {above note : Option String} {command : String}
    {arguments : List TreeArgument} {block : List Branch} {footer : Option String}
    (hw : w.lexeme = .identifier command)
    (hargs : args.map Argument.told = arguments.map TreeArgument.told)
    (hbody : TellsBlock body block)
    (hcomments : comments.map Comment.told =
      toldComment .above above ++ toldComment .lineEnd footer) :
    TellsTrees [.statement w args body (some ⟨comments, note⟩)]
      [.node above note command arguments block footer] := by
  intro enclosing st
  obtain ⟨ms, hms, htold⟩ := hbody st
  have hstatement : (⟨w, args, ms, comments, note, enclosing.isNone⟩ : Statement Told).told =
      (Tree.node above note command arguments block footer).told enclosing.isNone := by
    rw [Statement.told, Tree.told, hw, hargs, htold, hcomments]
  have hvisit : (statement w args body (some ⟨comments, note⟩)).visit rebuilder enclosing st =
      ([.child ((Tree.node above note command arguments block footer).told enclosing.isNone)],
        if enclosing.isNone then
          st.add [(Tree.node above note command arguments block footer).told enclosing.isNone]
        else st) := by
    have hleave : (statement w args body (some ⟨comments, note⟩)).visit rebuilder enclosing st =
        Prod.map (·.toList.map .child) id (rebuilder.leave ⟨w, args,
          (visitAll rebuilder (some ()) body st).1, comments, note, enclosing.isNone⟩ ()
          (visitAll rebuilder (some ()) body st).2) := rfl
    rw [hleave, hms, ← hstatement]
    cases enclosing <;> rfl
  rw [visitAll_cons, hvisit]
  cases enclosing <;> rfl

/-! ### The forms of written trees -/

section Node

variable {above note : Option String} {command : String} {arguments : List TreeArgument}
  {block : List Branch} {footer : Option String}

theorem exists_reads_command_of_render
    (hblock : ∀ ts rest, ts.map lexeme = Branch.renderAll block →
      startsWith (fun t => !t.isPunct .closeBrace) rest = false →
      ∃ es, Reads .members (ts ++ rest) (es, []) rest ∧ TellsBlock es block)
    {as ns ts : List Token} (has : as.map Token.text = above.toList)
    (hns : ns.map Token.text = note.toList)
    (hts : ts.map lexeme = renderCommand command arguments
      (if block.isEmpty then [] else
        .punct .openBrace :: .newline :: (Branch.renderAll block ++ [.punct .closeBrace])) footer)
    (rest : List Token) :
    ∃ es, Reads (.command as ns) (ts ++ rest) (es, []) rest ∧
      TellsTrees es [.node above note command arguments block footer] := by
  obtain ⟨w, ts, rfl, hw, hts⟩ := map_eq_cons_iff.mp hts
  obtain ⟨us, ts, rfl, hus, hts⟩ := map_eq_append_iff.mp hts
  obtain ⟨bs, fs, rfl, hbs, hfs⟩ := map_eq_append_iff.mp hts
  obtain ⟨cs, hend, hcs⟩ := exists_lineEnd_of_render hfs rest
  obtain rfl : noteOf ns = note := noteOf_eq hns
  have hcomments : (commentOf .above as ++ [] ++ cs).map Comment.told =
      toldComment .above above ++ toldComment .lineEnd footer := by
    rw [append_nil, map_append, told_commentOf_above has, hcs]
  cases block with
  | nil =>
    obtain rfl := map_eq_nil_iff.mp hbs
    obtain ⟨args, hargs, htold⟩ := exists_rounds_of_separated exists_oneArgument_of_render hus
      (Grammar.startsWith_startsArgument_lineEnd hend)
    simp only [cons_append, append_assoc, nil_append]
    exact ⟨_, .leaf (isKind_of_lexeme hw) hargs hend,
      tellsBlock_nil.tellsTrees hw htold hcomments⟩
  | cons b block =>
    simp only [isEmpty_cons, Bool.false_eq_true, if_false, map_eq_cons_iff,
      map_eq_append_iff, map_eq_nil_iff] at hbs
    obtain ⟨o, _, rfl, ho, n, _, rfl, hn, bs, _, rfl, hbs, c, _, rfl, hc, rfl⟩ := hbs
    have hopen : o.isPunct .openBrace = true := isPunct_iff.mpr ho
    have hclose : c.isPunct .closeBrace = true := isPunct_iff.mpr hc
    obtain ⟨es, hes, htells⟩ := hblock bs (c :: (fs ++ rest)) hbs (by simp [hclose])
    obtain ⟨args, hargs, htold⟩ := exists_rounds_of_separated exists_oneArgument_of_render hus
      (Grammar.startsWith_startsArgument_eq_false (n :: (bs ++ c :: (fs ++ rest))) (.inl hopen))
    simp only [cons_append, append_assoc, nil_append]
    exact ⟨_, .branch (isKind_of_lexeme hw) hargs hopen (.bare (isKind_of_lexeme hn)) hes
      hclose hend, htells.tellsTrees hw htold hcomments⟩

theorem exists_reads_node
    (hblock : ∀ ts rest, ts.map Token.lexeme = Branch.renderAll block →
      startsWith (fun t => !t.isPunct .closeBrace) rest = false →
      ∃ es, Reads .members (ts ++ rest) (es, []) rest ∧ TellsBlock es block)
    {ts : List Token}
    (hts : ts.map Token.lexeme = (Tree.node above note command arguments block footer).render)
    (isLoose : Bool) (rest : List Token) :
    ∃ es, Reads (.statement isLoose) (ts ++ rest) (es, []) rest ∧
      TellsTrees es [.node above note command arguments block footer] := by
  rw [Tree.render] at hts
  obtain ⟨as, ts, rfl, has, hts⟩ := map_eq_append_iff.mp hts
  obtain ⟨ns, ts, rfl, hns, hts⟩ := map_eq_append_iff.mp hts
  have hcommand : startsWith (·.isKind .note) (ts ++ rest) = false :=
    startsWith_isKind_eq_false hts (by simp [Lexeme.kind]) rest
  have hnotes : startsWith (·.isKind .comment) (ns ++ (ts ++ rest)) = false := by
    cases note with
    | none =>
      obtain rfl := map_eq_nil_iff.mp hns
      exact startsWith_isKind_eq_false hts (by simp [Lexeme.kind]) rest
    | some text => exact startsWith_isKind_eq_false hns (by simp [Lexeme.kind]) (ts ++ rest)
  obtain ⟨above', habove, has⟩ := exists_lines_of_ownLine .comment (fun _ => ⟨rfl, rfl⟩) has hnotes
  obtain ⟨notes', hnote, hns⟩ := exists_lines_of_ownLine .note (fun _ => ⟨rfl, rfl⟩) hns hcommand
  obtain ⟨es, hes, htells⟩ := exists_reads_command_of_render hblock has hns hts rest
  refine ⟨es, ?_, htells⟩
  rw [append_assoc, append_assoc]
  exact .lead habove hnote hes

end Node

mutual

theorem Tree.exists_reads (t : Tree) (ts : List Token) (hts : ts.map lexeme = t.render)
    (isLoose : Bool) (rest : List Token) :
    ∃ es, Reads (.statement isLoose) (ts ++ rest) (es, []) rest ∧ TellsTrees es [t] := by
  cases t with
  | node above note command arguments block footer =>
    exact exists_reads_node (Branch.exists_readsAll block) hts isLoose rest

theorem Branch.exists_reads (b : Branch) (ts : List Token) (hts : ts.map lexeme = b.render)
    {input : List Token} {later : List Entry} {bs : List Branch} {rest : List Token}
    (hlater : Reads .members input (later, []) rest) (htells : TellsBlock later bs) :
    ∃ es, Reads .members (ts ++ input) (es, []) rest ∧ TellsBlock es (b :: bs) := by
  cases b with
  | child t =>
    obtain ⟨es, hes, htree⟩ := t.exists_reads ts hts true input
    exact ⟨es ++ later, .member hes hlater, htree.tellsBlock htells⟩
  | role label t =>
    obtain ⟨l, ts, rfl, hl, hts⟩ := map_eq_cons_iff.mp hts
    obtain ⟨n, ts, rfl, hn, hts⟩ := map_eq_cons_iff.mp hts
    obtain ⟨es, hes, htree⟩ := t.exists_reads ts hts false input
    have hnewline : n.isKind .newline = true := isKind_of_lexeme hn
    have hopen : startsWith (·.isPunct .openBracket) (n :: (ts ++ input)) = false := by
      rw [startsWith_cons, isPunct, hn]
      rfl
    refine ⟨.role l false es :: later, ?_, htree.tellsBlock_role ?_ htells⟩
    · exact .roleMember (isKind_of_lexeme hl) hopen (.some (.bare hnewline)) hes hlater
    · rw [Branch.told, hl]
      rfl
  | list label trees =>
    obtain ⟨l, ts, rfl, hl, hts⟩ := map_eq_cons_iff.mp hts
    obtain ⟨o, ts, rfl, ho, hts⟩ := map_eq_cons_iff.mp hts
    obtain ⟨n, ts, rfl, hn, hts⟩ := map_eq_cons_iff.mp hts
    obtain ⟨us, cs, rfl, hus, hcs⟩ := map_eq_append_iff.mp hts
    obtain ⟨c, cs, rfl, hc, hcs⟩ := map_eq_cons_iff.mp hcs
    obtain ⟨n', rfl, hn'⟩ := map_eq_singleton_iff.mp hcs
    have hclose : c.isPunct .closeBracket = true := isPunct_iff.mpr hc
    obtain ⟨es, hes, htrees⟩ := Tree.exists_readsAll trees us hus (some .closeBracket)
      (c :: n' :: input) (by simp [hclose])
    refine ⟨.role l true es :: later, ?_, htrees.tellsBlock_role ?_ htells⟩
    · simp only [cons_append, append_assoc, nil_append]
      exact .listMember (isKind_of_lexeme hl) (isPunct_iff.mpr ho)
        (.bare (isKind_of_lexeme hn)) hes hclose (.bare (isKind_of_lexeme hn')) hlater
    · rw [Branch.told, hl]

theorem Tree.exists_readsAll (trees : List Tree) (ts : List Token)
    (hts : ts.map lexeme = Tree.renderAll trees) (stop : Option Punct) (rest : List Token)
    (hrest : startsWith (fun t => !stop.any t.isPunct) rest = false) :
    ∃ es, Reads (.items stop) (ts ++ rest) (es, []) rest ∧ TellsTrees es trees := by
  cases trees with
  | nil =>
    obtain rfl := map_eq_nil_iff.mp hts
    exact ⟨[], .noItem hrest, tellsTrees_nil⟩
  | cons t trees =>
    obtain ⟨ts₁, ts₂, rfl, hts₁, hts₂⟩ := map_eq_append_iff.mp hts
    obtain ⟨later, hlater, htells⟩ := Tree.exists_readsAll trees ts₂ hts₂ stop rest hrest
    obtain ⟨es, hes, htree⟩ := t.exists_reads ts₁ hts₁ true (ts₂ ++ rest)
    rw [← append_assoc] at hes
    exact ⟨es ++ later, .item hes hlater, htree.append htells⟩

theorem Branch.exists_readsAll (bs : List Branch) (ts rest : List Token)
    (hts : ts.map lexeme = Branch.renderAll bs)
    (hrest : startsWith (fun t => !t.isPunct .closeBrace) rest = false) :
    ∃ es, Reads .members (ts ++ rest) (es, []) rest ∧ TellsBlock es bs := by
  cases bs with
  | nil =>
    obtain rfl := map_eq_nil_iff.mp hts
    exact ⟨[], .noMember hrest, tellsBlock_nil⟩
  | cons b bs =>
    obtain ⟨ts₁, ts₂, rfl, hts₁, hts₂⟩ := map_eq_append_iff.mp hts
    obtain ⟨later, hlater, htells⟩ := Branch.exists_readsAll bs ts₂ rest hts₂ hrest
    obtain ⟨es, hes, hblock⟩ := b.exists_reads ts₁ hts₁ hlater htells
    rw [← append_assoc] at hes
    exact ⟨es, hes, hblock⟩

end

/-! ### Reading what was written -/

/-- Reading the tokens of written trees, wherever they stand, tells no problem, and a visitor is
told of exactly these trees, in order and as roots. -/
theorem rebuild_of_render (trees : List Tree) (tokens : List Token)
    (htokens : tokens.map Token.lexeme = trees.flatMap Tree.render) :
    (parse tokens).problems = [] ∧ rebuild tokens = ⟨trees.map (Tree.told true), []⟩ := by
  rw [← Tree.renderAll_eq_flatMap] at htokens
  obtain ⟨es, hes, htells⟩ := Tree.exists_readsAll trees tokens htokens none [] rfl
  rw [List.append_nil, ← parse_eq_iff] at hes
  rw [rebuild, hes, htells]
  exact ⟨rfl, congrArg (Rebuilt.mk · []) (Tree.toldAll_eq_map true trees)⟩

/-- Two statements, the first with lines above it, arguments of every shape, and a block with a
child, a role and a list under a role. -/
def sampleTrees : List Tree :=
  [.node (some "a crate") (some "fragile") "Box"
      [⟨none, .one ⟨.string "crate", rfl⟩⟩,
        ⟨some "sizes", .list [⟨.integer 3, rfl⟩, ⟨.identifier "wide", rfl⟩]⟩]
      [.child (.node none none "Box" [] [] (some "empty")),
        .role "lid" (.node (some "on top") none "Lid" []
          [.child (.node none none "Knob" [] [] none)]
          none),
        .list "parts" [.node none (some "spare") "Nail" [⟨some "count", .one ⟨.integer 7, rfl⟩⟩] []
          none]]
      (some "shut"),
    .node none none "Box" [] [] none]

/-- Their tokens, all on one line. -/
def sampleTokens : List Token := (sampleTrees.flatMap Tree.render).map (⟨·, 1, none⟩)

theorem rebuild_sampleTokens :
    sampleTokens.map Token.lexeme = sampleTrees.flatMap Tree.render ∧
      (parse sampleTokens).problems = [] ∧
      rebuild sampleTokens = ⟨sampleTrees.map (Tree.told true), []⟩ := by
  have htokens : sampleTokens.map Token.lexeme = sampleTrees.flatMap Tree.render := by
    simp [sampleTokens, Function.comp_def]
  exact ⟨htokens, rebuild_of_render sampleTrees sampleTokens htokens⟩

end CommandText
