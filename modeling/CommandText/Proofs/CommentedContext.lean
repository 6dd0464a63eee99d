import CommandText.Proofs.CommentTexts
import CommandText.Proofs.CommentedLines
import CommandText.Proofs.CommentedReading
import CommandText.Proofs.CursorContext

/-!
# Comments above the cursor

A comment behind a line above the cursor does not change what is found at the cursor. The brackets
of the line are the same, so the same lines lead to the cursor, and the elements that are built from
them do not depend on comments. One kind of line is an exception. A role label that stands alone is
found by its characters where it is the last line above the cursor, and with a comment behind it it
is not found there.
-/

namespace CommandText

open List Outline

variable {l : Line} {xs ys : List Line} {s : Schema}

/-! ### The line -/

section Plain

variable (h : PlainLine l) (hfeed : '\n' ∉ l)

include h hfeed

theorem PlainLine.exists_lineTokens : ∃ c : Token, c.kind = .comment ∧
    lineTokens .stock (noted l) = lineTokens .stock l ++ [c] := by
  obtain ⟨tokens, column, -, -, hscan⟩ := h.exists_scanLine 0 trails_note
  obtain ⟨hbare, hcommented⟩ := hscan false
  rw [scanLine_eq] at hbare hcommented
  refine ⟨noteToken 1 column, rfl, ?_⟩
  rw [lineTokens_eq .stock (by simpa [noted] using hfeed), lineTokens_eq .stock hfeed]
  exact (congrArg LineTokens.tokens hcommented).trans
    (congrArg (· ++ _) (congrArg LineTokens.tokens hbare).symm)

theorem PlainLine.codeTokens_noted : codeTokens (noted l) = codeTokens l := by
  obtain ⟨c, hc, htokens⟩ := h.exists_lineTokens hfeed
  simp [codeTokens, htokens, Token.isKind, hc]

theorem PlainLine.leftOpen_noted : leftOpen .stock (noted l) = leftOpen .stock l := by
  have hcode (line : Line) : leftOpen .stock line = (unbalanced (codeTokens line)).opened :=
    congrArg Unbalanced.opened (foldl_step_codeOf _ _).symm
  rw [hcode, hcode, h.codeTokens_noted hfeed]

end Plain

theorem loneLabel?_noted (l : Line) : loneLabel? (noted l) = none := by
  rw [← Option.not_isSome_iff_eq_none]
  intro h
  exact not_mem_of_loneLabel? h (by decide +kernel) (by decide +kernel) (by decide)
    (show '#' ∈ noted l by simp [noted])

/-! ### The lines that lead to the cursor -/

theorem loneLabel?_of_isHeader {line : Line} (hfeed : '\n' ∉ line) {c : Climb}
    (h : (c.pass (unbalanced (codeTokens line))).2 = true) : loneLabel? line = none := by
  have hopened : (unbalanced (codeTokens line)).opened ≠ [] := by
    intro hnil
    rw [Climb.pass, hnil] at h
    cases h
  obtain ⟨t, ht, hbracket⟩ := exists_opens_of_unbalanced hopened
  have hmem := (mem_filter.mp ht).1
  rw [lineTokens_eq .stock hfeed] at hmem
  exact loneLabel?_of_opens hbracket fun _ hq =>
    mem_of_mem_bareLine (char_mem_of_scanBare hmem hq)

theorem climb_noted (hnoted : codeTokens (noted l) = codeTokens l) {lines : List Line}
    (hfeed : ∀ line ∈ lines ++ [l], '\n' ∉ line) (above : List Line) (c : Climb) :
    climb c (lines ++ noted l :: above) = climb c (lines ++ l :: above) ∨ ∃ kept rest,
      climb c (lines ++ l :: above) = kept ++ l :: rest ∧
      climb c (lines ++ noted l :: above) = kept ++ noted l :: rest ∧
      (loneLabel? l = none ∨ (∃ line ∈ kept, loneLabel? line = none) ∨
        c.adjacent = true ∧ ∀ line ∈ lines, codeTokens line = []) := by
  induction lines generalizing c with
  | nil =>
    rw [nil_append, nil_append, climb, climb, hnoted]
    simp only
    split
    · exact .inl rfl
    · split
      · next hheader =>
        exact .inr ⟨[], _, rfl, rfl, .inl (loneLabel?_of_isHeader (hfeed l (by simp)) hheader)⟩
      · split
        · next hlabel =>
          simp only [Bool.and_eq_true] at hlabel
          exact .inr ⟨[], _, rfl, rfl, .inr (.inr ⟨hlabel.1.2, by simp⟩)⟩
        · exact .inl rfl
  | cons line lines ih =>
    have ih := ih fun line hline => hfeed line (by simp_all)
    rw [cons_append, cons_append, climb, climb]
    simp only
    split
    · next hempty =>
      refine (ih c).imp_right ?_
      rintro ⟨kept, rest, hkept, hkept', hlabel⟩
      refine ⟨kept, rest, hkept, hkept', hlabel.imp_right (Or.imp_right (And.imp_right ?_))⟩
      exact fun hlines => forall_mem_cons.mpr ⟨isEmpty_iff.mp hempty, hlines⟩
    · generalize hpass : c.pass (unbalanced (codeTokens line)) = x
      obtain ⟨passed, isHeader⟩ := x
      simp only
      split
      · next hheader =>
        have hnone : loneLabel? line = none :=
          loneLabel?_of_isHeader (hfeed line (by simp)) (by rw [hpass]; exact hheader)
        rcases ih { passed with adjacent := true } with heq | ⟨kept, rest, hkept, hkept', -⟩
        · exact .inl (congrArg (line :: ·) heq)
        · exact .inr ⟨line :: kept, rest, congrArg (line :: ·) hkept, congrArg (line :: ·) hkept',
            .inr (.inl ⟨line, mem_cons_self, hnone⟩)⟩
      · have hbelow := ih { passed with adjacent := false }
        simp only [Bool.false_eq_true, false_and, or_false] at hbelow
        split
        · rcases hbelow with heq | ⟨kept, rest, hkept, hkept', hlabel⟩
          · exact .inl (congrArg (line :: ·) heq)
          · refine .inr ⟨line :: kept, rest, congrArg (line :: ·) hkept,
              congrArg (line :: ·) hkept',
              hlabel.imp_right fun hnone => .inl ?_⟩
            exact exists_mem_cons_of_exists hnone
        · refine hbelow.imp_right ?_
          rintro ⟨kept, rest, hkept, hkept', hlabel⟩
          exact ⟨kept, rest, hkept, hkept', hlabel.imp_right .inl⟩

/-! ### Outlines -/

/-- Lines among which one has a comment on the right. -/
def Swapped (l : Line) (xs ys : List Line) : Prop :=
  ∃ above below, xs = above ++ l :: below ∧ ys = above ++ noted l :: below

/-- The same, where the line is not one of the lone labels at the end. -/
def SwappedAbove (l : Line) (xs ys : List Line) : Prop :=
  ∃ above below, xs = above ++ l :: below ∧ ys = above ++ noted l :: below ∧
    (loneLabel? l = none ∨ ∃ line ∈ below, loneLabel? line = none)

theorem dropLabels_append {line : Line} {below : List Line} (above : List Line)
    (h : loneLabel? line = none ∨ ∃ line ∈ below, loneLabel? line = none) :
    dropLabels (above ++ line :: below) = above ++ line :: dropLabels below := by
  have hreverse : (above ++ line :: below).reverse = below.reverse ++ line :: above.reverse := by
    simp
  rw [dropLabels, hreverse, dropWhile_append]
  split
  · next hempty =>
    rw [List.isEmpty_iff] at hempty
    have hline : loneLabel? line = none := by
      refine h.resolve_right ?_
      rintro ⟨x, hx, hnone⟩
      have hlone := dropWhile_eq_nil_iff.mp hempty x (mem_reverse.mpr hx)
      simp [hnone] at hlone
    rw [dropWhile_cons_of_neg (by simp [hline]), dropLabels, hempty]
    simp
  · simp [dropLabels]

namespace SwappedAbove

variable {xs ys : List Line} (h : SwappedAbove l xs ys)

include h

theorem swapped : Swapped l xs ys := by
  obtain ⟨above, below, hxs, hys, -⟩ := h
  exact ⟨above, below, hxs, hys⟩

theorem dropLabels : Swapped l (dropLabels xs) (dropLabels ys) := by
  obtain ⟨above, below, rfl, rfl, hlabel⟩ := h
  exact ⟨above, _, dropLabels_append above hlabel,
    dropLabels_append above (.inl (loneLabel?_noted l))⟩

theorem last : ys.getLast?.bind loneLabel? = xs.getLast?.bind loneLabel? ∧
    ((xs.getLast?.bind loneLabel?).isSome = true → SwappedAbove l xs.dropLast ys.dropLast) := by
  obtain ⟨above, below, rfl, rfl, hlabel⟩ := h
  rcases eq_nil_or_concat below with rfl | ⟨below, last, rfl⟩
  · have hl : loneLabel? l = none := by simpa using hlabel
    simp [loneLabel?_noted, hl]
  · simp only [concat_eq_append, ← cons_append, ← append_assoc,
      getLast?_concat, dropLast_concat, Option.bind_some, true_and]
    intro hsome
    refine ⟨above, below, rfl, rfl, hlabel.imp_right ?_⟩
    rintro ⟨line, hline, hnone⟩
    simp only [concat_eq_append, mem_append, mem_singleton] at hline
    rcases hline with hline | rfl
    · exact ⟨line, hline, hnone⟩
    · simp [hnone] at hsome

theorem dropLabel : Swapped l (dropLabel xs) (dropLabel ys) := by
  rw [CommandText.dropLabel, CommandText.dropLabel, h.last.1]
  split
  · next hsome => exact (h.last.2 hsome).swapped
  · exact h.swapped

end SwappedAbove

theorem Swapped.openBrackets (h : Swapped l xs ys)
    (hopen : leftOpen .stock (noted l) = leftOpen .stock l) :
    openBrackets .stock ys = openBrackets .stock xs := by
  obtain ⟨above, below, rfl, rfl⟩ := h
  simp [CommandText.openBrackets, hopen]

theorem listLabel?_append {t : Token} (hopens : t.opens? = none) (hcloses : t.closes? = none)
    (before : Option Token) (xs ys : List (Option Token × Token)) (level : Nat) :
    listLabel? level (xs ++ (before, t) :: ys) = listLabel? level (xs ++ ys) := by
  induction xs generalizing level with
  | nil => simp [listLabel?, hopens, hcloses]
  | cons x xs ih =>
    obtain ⟨before', u⟩ := x
    simp only [cons_append, listLabel?, ih]

theorem exists_withPrevious_concat (ts : List Token) (t : Token) :
    ∃ before, withPrevious (ts ++ [t]) = withPrevious ts ++ [(before, t)] := by
  have hzip (first : Option Token) : ∃ before, (first :: (ts ++ [t]).map some).zip (ts ++ [t]) =
      (first :: ts.map some).zip ts ++ [(before, t)] := by
    induction ts generalizing first with
    | nil => exact ⟨first, rfl⟩
    | cons u ts ih =>
      obtain ⟨before, h⟩ := ih (some u)
      exact ⟨before, congrArg ((first, u) :: ·) h⟩
  exact hzip none

theorem SwappedAbove.statementLabel? (h : SwappedAbove l xs ys) {c : Token} (hc : c.kind = .comment)
    (htokens : lineTokens .stock (noted l) = lineTokens .stock l ++ [c]) :
    statementLabel? .stock ys = statementLabel? .stock xs := by
  have hbracket : c.opens? = none ∧ c.closes? = none := by
    rw [Token.kind] at hc
    cases hlexeme : c.lexeme with
    | comment text => simp [Token.opens?, Token.closes?, hlexeme]
    | _ => simp [hlexeme, Lexeme.kind] at hc
  rw [CommandText.statementLabel?, CommandText.statementLabel?, h.last.1]
  cases xs.getLast?.bind loneLabel? with
  | some name => rfl
  | none =>
    obtain ⟨above, below, rfl, rfl⟩ := h.swapped
    obtain ⟨before, hprevious⟩ := exists_withPrevious_concat (lineTokens .stock l) c
    simp only [flatMap_append, flatMap_cons, Function.comp_apply, htokens, hprevious,
      reverse_append, reverse_cons, reverse_nil, nil_append, append_assoc]
    exact listLabel?_append hbracket.1 hbracket.2 _ _ _ 0

theorem map_outlineAtEnd? {β : Type} (h : SwappedAbove l xs ys)
    (hlabel : statementLabel? .stock ys = statementLabel? .stock xs) {tell : Outline → β}
    (htell : ∀ {xs ys : List Line} (line : Line) (own : Nat) (role : Option Role)
      (typed : List Char) (problem : Option CursorProblem) (flags : CursorFlags), Swapped l xs ys →
        tell { Outline.close .stock ys line own with role, typed, problem, flags } =
          tell { Outline.close .stock xs line own with role, typed, problem, flags }) (line : Line)
    (problem : Option CursorProblem) (flags : CursorFlags) :
    (outlineAtEnd? .stock ys line problem flags).map tell =
      (outlineAtEnd? .stock xs line problem flags).map tell := by
  have hbehind {xs ys : List Line} (h : SwappedAbove l xs ys) (name : String) (typed : List Char)
      (flags : CursorFlags) : tell (.behindLabel .stock ys name typed problem flags) =
        tell (.behindLabel .stock xs name typed problem flags) := htell _ _ _ _ _ _ h.dropLabels
  have hstatement (line : Line) (typed : List Char) :
      tell (.atStatement .stock ys line typed problem flags) =
        tell (.atStatement .stock xs line typed problem flags) := by
    rw [atStatement, atStatement, hlabel]
    exact htell _ _ _ _ _ _ h.dropLabel
  have hoff : (offPath? ys).map tell = (offPath? xs).map tell := by
    obtain ⟨above, below, rfl, rfl⟩ := h.swapped
    simp [offPath?]
  have harguments (arguments : List Token) :
      tell (.inArguments .stock ys line arguments problem flags) =
        tell (.inArguments .stock xs line arguments problem flags) := htell _ _ _ _ _ _ h.swapped
  unfold outlineAtEnd?
  simp only
  split
  · rfl
  · split
    · rw [h.last.1]
      split
      · next name hname => exact congrArg some (hbehind (h.last.2 (by simp [hname])) _ _ _)
      · exact congrArg some (hstatement _ _)
    · split
      · split
        · exact congrArg some (hstatement _ _)
        · exact congrArg some (harguments _)
      · exact congrArg some (hbehind h _ _ _)
      · split
        · exact congrArg some (hbehind h _ _ _)
        · split
          · split
            · exact congrArg some (hbehind h _ _ _)
            · exact congrArg some (harguments _)
          · exact hoff
      · exact hoff

/-! ### Contexts -/

theorem unheeding_builder (s : Schema) (origin : Origin) :
    (builder s origin (none : Option (CommentKeeper Unit))).Unheeding := by
  have hnone : @BuildM.offerComments Unit s none =
      fun id _ note line => BuildM.offerComments s none id [] note line := by
    funext id comments note line b
    induction comments with
    | nil => rfl
    | cons c comments ih => exact ih
  intro x comments
  unfold builder
  rw [hnone]

theorem PlainLine.buildText_noted (h : PlainLine l) (hfeed : '\n' ∉ l) (hs : s.pattern = .stock)
    (above below : List Line) : buildText s (List.intercalate ['\n'] (above ++ noted l :: below)) =
      buildText s (List.intercalate ['\n'] (above ++ l :: below)) := by
  obtain ⟨o, front, hne, hends, hbare, hcommented⟩ := h.exists_ending hfeed above below
  rw [buildText, buildText, hs, hbare, hcommented]
  exact (congrFun (alike_readAll (unheeding_builder s {}) o hends hne none) _).symm

theorem PlainLine.rebuild_noted (h : PlainLine l) (hfeed : '\n' ∉ l) (hs : s.pattern = .stock)
    (hswap : Swapped l xs ys) (line : Line) (own : Nat) (role : Option Role) (typed : List Char)
    (problem : Option CursorProblem) (flags : CursorFlags) :
    Outline.rebuild s { Outline.close .stock ys line own with role, typed, problem, flags } =
      Outline.rebuild s { Outline.close .stock xs line own with role, typed, problem, flags } := by
  have hopen := hswap.openBrackets (h.leftOpen_noted hfeed)
  obtain ⟨above, below, rfl, rfl⟩ := hswap
  simp only [Outline.close, hopen, append_assoc, cons_append]
  unfold Outline.rebuild
  simp only
  split
  · rfl
  · simp only [model_instantiate, roots_instantiate, h.buildText_noted hfeed hs]

theorem leadingBlanks_append {c : Char} (hc : c ∈ l) (hdark : isBlank c = false)
    (tail : List Char) :
    leadingBlanks (l ++ tail) = leadingBlanks l := by
  rw [leadingBlanks, takeWhile_append, if_neg]
  · rfl
  · intro hlength
    have hall := (List.takeWhile_prefix isBlank).eq_of_length hlength
    simp [takeWhile_eq_self_iff.mp hall c hc] at hdark

theorem indentOf_congr {xs ys : List Line} (h : (xs.filter (!isBlankLine ·)).map leadingBlanks =
    (ys.filter (!isBlankLine ·)).map leadingBlanks) : indentOf xs = indentOf ys := by
  have h := congrArg reverse h
  rw [← map_reverse, ← map_reverse] at h
  rw [indentOf, indentOf]
  generalize (xs.filter (!isBlankLine ·)).reverse = xs at h ⊢
  generalize (ys.filter (!isBlankLine ·)).reverse = ys at h ⊢
  rcases xs with _ | ⟨x, _ | ⟨x', xs⟩⟩ <;> rcases ys with _ | ⟨y, _ | ⟨y', ys⟩⟩ <;> simp_all

theorem PlainLine.indentOf_append (h : PlainLine l) (tail : List Char) (above below : List Line) :
    indentOf (above ++ (l ++ tail) :: below) = indentOf (above ++ l :: below) := by
  obtain ⟨c, hc, hdark⟩ := h.exists_not_blank 0
  have hmem := mem_of_mem_bareLine hc
  have hblank (tail : List Char) : isBlankLine (l ++ tail) = false :=
    all_eq_false.mpr ⟨c, mem_append_left _ hmem, by simp [hdark]⟩
  have hl := hblank []
  rw [append_nil] at hl
  exact indentOf_congr (by simp [hblank, hl, leadingBlanks_append hmem hdark])

theorem PlainLine.context?_append (h : PlainLine l) (hfeed : '\n' ∉ l) (hs : s.pattern = .stock)
    (hswap : SwappedAbove l xs ys) (last : Line) (column : Option Nat) :
    context? s (ys ++ [last]) column = context? s (xs ++ [last]) column := by
  obtain ⟨c, hc, htokens⟩ := h.exists_lineTokens hfeed
  have hlabel := hswap.statementLabel? hc htokens
  have hindent : indentOf (ys ++ [last]) = indentOf (xs ++ [last]) := by
    obtain ⟨above, below, rfl, rfl⟩ := hswap.swapped
    simpa [noted] using h.indentOf_append " # note".toList above (below ++ [last])
  unfold context? outline?
  simp only [getLast?_concat, dropLast_concat, hs, hindent]
  split
  all_goals
    refine map_outlineAtEnd? hswap hlabel (fun line own role typed problem flags hswap => ?_) _ _ _
    simp only [h.rebuild_noted hfeed hs hswap]

theorem PlainLine.openPath_noted (h : PlainLine l) {lines : List Line} {i j : Nat}
    (hl : lines[j]? = some l) (hij : j < i) (hfeed : ∀ line ∈ lines, '\n' ∉ line)
    (hlabel : (loneLabel? l).isSome = true →
      ∃ line ∈ (lines.take i).drop (j + 1), codeTokens line ≠ []) :
    openPath (lines.set j (noted l)) i = openPath lines i ∨ ∃ xs ys last, SwappedAbove l xs ys ∧
      openPath lines i = xs ++ [last] ∧ openPath (lines.set j (noted l)) i = ys ++ [last] := by
  have hmem := mem_of_getElem? hl
  obtain ⟨hlt, hget⟩ := List.getElem?_eq_some_iff.mp hl
  have hsplit (line : Line) : ((lines.set j line).take i).reverse =
      ((lines.take i).drop (j + 1)).reverse ++ line :: ((lines.take i).take j).reverse := by
    rw [take_set, set_eq_take_append_cons_drop, if_pos (by rw [length_take]; omega)]
    simp
  have hself : lines.set j l = lines := by rw [← hget, set_getElem_self]
  have hbefore := hsplit l
  rw [hself] at hbefore
  rw [openPath, openPath, getElem?_set_ne (Nat.ne_of_lt hij), hsplit, hbefore]
  cases lines[i]? with
  | none => exact .inl rfl
  | some last =>
    have hbelow : ∀ line ∈ ((lines.take i).drop (j + 1)).reverse ++ [l], '\n' ∉ line := by
      intro line hline
      rcases mem_append.mp hline with hline | hline
      · exact hfeed line (mem_of_mem_take (mem_of_mem_drop (mem_reverse.mp hline)))
      · exact hfeed line (mem_singleton.mp hline ▸ hmem)
    rcases climb_noted (h.codeTokens_noted (hfeed l hmem)) hbelow ((lines.take i).take j).reverse {}
      with heq | ⟨kept, rest, hkept, hkept', hkind⟩
    · exact .inl (congrArg (fun path => path.reverse ++ [last]) heq)
    · refine .inr ⟨_, _, last, ⟨rest.reverse, kept.reverse, ?_, ?_, ?_⟩, rfl, rfl⟩
      · rw [hkept]
        simp
      · rw [hkept']
        simp
      · simp only [mem_reverse]
        rcases hkind with hnone | habove | ⟨-, hbare⟩
        · exact .inl hnone
        · exact .inr habove
        · -- the line is the last one with code, so it is no lone label
          left
          rw [← Option.not_isSome_iff_eq_none]
          intro hlone
          obtain ⟨line, hline, hcode⟩ := hlabel hlone
          exact hcode (hbare line (mem_reverse.mpr hline))

/-- A comment behind a line above the cursor leaves the context at the cursor as it is, unless the
line is a role label that stands alone and no line with code stands between it and the cursor. -/
theorem context?_noted {s : Schema} (hs : s.pattern = .stock) {text : List Char} {i j : Nat}
    {l : Line} (hl : (documentLines text)[j]? = some l) (hij : j < i) (h : PlainLine l)
    (hlabel : (loneLabel? l).isSome = true →
      ∃ line ∈ ((documentLines text).take i).drop (j + 1), codeTokens line ≠ [])
    (column : Option Nat) :
    context? s (openPath ((documentLines text).set j (noted l)) i) column =
      context? s (openPath (documentLines text) i) column := by
  have hfeed : ∀ line ∈ documentLines text, '\n' ∉ line := fun line hline hmem =>
    (mem_of_mem_documentLines hline hmem).2 rfl
  rcases h.openPath_noted hl hij hfeed hlabel with heq | ⟨xs, ys, last, hswap, hpath, hpath'⟩
  · rw [heq]
  · rw [hpath, hpath']
    exact h.context?_append (hfeed l (mem_of_getElem? hl)) hs hswap last column

theorem context?_noted_nestedText : ∃ s, boxes.build = .ok s ∧
    let line := "    Box inner \x7b".toList
    (documentLines nestedText)[3]? = some line ∧ PlainLine line ∧
    context? s (openPath ((documentLines nestedText).set 3 (noted line)) 4) none =
      context? s (openPath (documentLines nestedText) 4) none := by
  have hplain : PlainLine "    Box inner \x7b".toList :=
    ⟨by decide +kernel, by decide +kernel, by decide +kernel⟩
  have hline : (documentLines nestedText)[3]? = some "    Box inner \x7b".toList :=
    by decide +kernel
  have hlabel : loneLabel? "    Box inner \x7b".toList = none := by decide +kernel
  exact ⟨_, rfl, hline, hplain,
    context?_noted (by decide +kernel) hline (by decide) hplain (by rw [hlabel]; nofun) none⟩

/-- A cursor below a role label. -/
def labelText : List Char := "Box outer \x7b\n  boxes:\n    ".toList

/-- With a comment behind the label, the cursor is no longer found in its feature. -/
theorem context?_noted_labelText : ∃ s, boxes.build = .ok s ∧
    let line := "  boxes:".toList
    (documentLines labelText)[1]? = some line ∧ PlainLine line ∧
    (context? s (openPath (documentLines labelText) 2) none).map (·.feature) = some (some 1) ∧
    (context? s (openPath ((documentLines labelText).set 1 (noted line)) 2) none).map (·.feature) =
      some none :=
  ⟨_, rfl, by decide +kernel, ⟨by decide +kernel, by decide +kernel, by decide +kernel⟩,
    by decide +kernel, by decide +kernel⟩

end CommandText
