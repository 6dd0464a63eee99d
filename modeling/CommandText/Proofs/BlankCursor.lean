import CommandText.Proofs.OpenReading
import CommandText.Proofs.TextRows

/-!
# The outline at a blank line

The lines that lead to a blank line are the rows that are open there. Their outline adds a closing
bracket for each open header, and reading it gives the way down to the line and nothing else.
-/

namespace CommandText

open Row List Frame Standing

variable {c : Char} {tokens : List Token} {lines : List Line} {line : Line} {r : Row}
variable {rows : List Row}
variable {label : Option Row}
variable {frames : List Frame}

/-! ### Lone labels -/

theorem mem_skipBlanks {line : List Char} (h : c ∈ line) (hc : isBlank c = false) :
    c ∈ skipBlanks line := by
  rw [← takeWhile_append_dropWhile (p := isBlank) (l := line), mem_append] at h
  rcases h with h | h
  · rw [mem_takeWhile_imp h] at hc
    cases hc
  · exact h

theorem mem_trim {line : List Char} (h : c ∈ line) (hc : isBlank c = false) : c ∈ trim line :=
  mem_reverse.mpr (mem_skipBlanks (mem_reverse.mpr (mem_skipBlanks h hc)) hc)

theorem not_mem_of_loneLabel? (h : (loneLabel? line).isSome = true) (hblank : isBlank c = false)
    (hword : isWord c = false) (hcolon : c ≠ ':') : c ∉ line := by
  intro hc
  have hmem := mem_reverse.mpr (mem_trim hc hblank)
  rw [loneLabel?] at h
  split at h
  · next name heq =>
    simp only at h
    split at h
    · next hname =>
      rw [heq] at hmem
      rcases mem_cons.mp hmem with rfl | hmem
      · exact hcolon rfl
      · have hall := all_eq_true.mp (Bool.and_eq_true_iff.mp hname).2 c
          (mem_reverse.mpr hmem)
        rw [hword] at hall
        cases hall
    · cases h
  · cases h

theorem loneLabel?_of_opens {t : Token} (h : t.opens?.isSome = true)
    (hchar : ∀ q, t.lexeme = .punct q → q.char ∈ line) : loneLabel? line = none := by
  rw [← Option.not_isSome_iff_eq_none]
  intro hlone
  rw [Token.opens?] at h
  split at h
  · next hlexeme =>
    exact not_mem_of_loneLabel? hlone (by decide +kernel) (by decide +kernel) (by decide)
      (hchar _ hlexeme)
  · next hlexeme =>
    exact not_mem_of_loneLabel? hlone (by decide +kernel) (by decide +kernel) (by decide)
      (hchar _ hlexeme)
  · cases h

/-! ### Rows that are open -/

theorem exists_opens_of_unbalanced (h : (unbalanced tokens).opened ≠ []) :
    ∃ t ∈ tokens, t.opens?.isSome = true := by
  have hstep (u : Unbalanced) (hu : u.opened = []) (t : Token) (ht : t.opens? = none) :
      (u.step t).opened = [] := by
    rw [Unbalanced.step, ht]
    cases t.closes? with
    | none => exact hu
    | some e => simp [Unbalanced.close, hu]
  by_contra hnone
  simp only [not_exists, not_and, Bool.not_eq_true, Option.isSome_eq_false_iff,
    Option.isNone_iff_eq_none] at hnone
  refine h (List.foldlRecOn tokens Unbalanced.step (motive := fun u => u.opened = []) rfl ?_)
  exact fun u hu t ht => hstep u hu t (hnone t ht)

/-- A line of a text that is not continued. -/
structure Row.Genuine (r : Row) : Prop where
  tokens : r.tokens = (scanBare .stock r.number r.text).1
  feed : '\n' ∉ r.text
  mark : Unmarked r.text
  continues : (scanBare .stock r.number r.text).2 = false

/-- What is open is drawn from some rows: headers that open something, and lone labels. -/
structure Standing.Drawn (rows : List Row) (st : Standing) : Prop where
  headers : ∀ f ∈ st.frames, f.header ∈ rows ∧ bearing f.header.code = .opens f.enclosure
  labels : ∀ f ∈ st.frames, ∀ r ∈ f.label, r ∈ rows ∧ bearing r.code = .label
  label : ∀ r ∈ st.label, r ∈ rows ∧ bearing r.code = .label

theorem Standing.Drawn.pass {st st' : Standing} (h : st.Drawn rows) (hr : r ∈ rows)
    (hst : st.pass? r = some st') : st'.Drawn rows := by
  rw [Standing.pass?] at hst
  split at hst
  · cases hst
    exact h
  · next hbearing =>
    cases hst
    exact ⟨h.headers, h.labels, by simpa using ⟨hr, hbearing⟩⟩
  · cases hst
    exact ⟨h.headers, h.labels, by simp⟩
  · next hbearing =>
    cases hst
    exact ⟨forall_mem_cons.mpr ⟨⟨hr, hbearing⟩, h.headers⟩,
      forall_mem_cons.mpr ⟨h.label, h.labels⟩, by simp⟩
  · split at hst
    · cases hst
    · next f frames hframes =>
      have hkept {f' : Frame} (hf' : f' ∈ frames) : f' ∈ st.frames := by
        rw [hframes]
        exact mem_cons_of_mem f hf'
      split at hst
      · cases hst
        exact ⟨fun f' hf' => h.headers f' (hkept hf'), fun f' hf' => h.labels f' (hkept hf'),
          by simp⟩
      · cases hst
  · cases hst

theorem Standing.drawn_of_foldlM {above : List Row} {st st' : Standing} (h : st.Drawn rows)
    (habove : ∀ r ∈ above, r ∈ rows) (hst : above.foldlM Standing.pass? st = some st') :
    st'.Drawn rows := by
  induction above generalizing st with
  | nil =>
    cases hst
    exact h
  | cons r above ih =>
    obtain ⟨hr, habove⟩ := forall_mem_cons.mp habove
    rw [foldlM_cons] at hst
    obtain ⟨st₁, hpass, hst⟩ := Option.bind_eq_some_iff.mp hst
    exact ih (h.pass hr hpass) habove hst

/-! ### Open rows as lines -/

theorem Row.Faithful.leftOpen (h : r.Faithful) :
    leftOpen .stock r.text = (unbalanced r.code).opened := by
  have hcode : unbalanced (lineTokens .stock r.text) = unbalanced (codeTokens r.text) :=
    (foldl_step_codeOf _ {}).symm
  rw [CommandText.leftOpen, hcode, h, unbalanced_map_onLine]

theorem unbalanced_of_opens {e : Enclosure} (h : bearing tokens = .opens e) :
    (unbalanced tokens).opened = [e] := by
  rcases bearing_cases tokens with ⟨-, h'⟩ | ⟨-, -, h'⟩ |
    ⟨-, -, ⟨-, h'⟩ | ⟨e', hu, h'⟩ | ⟨e', -, h'⟩ | h'⟩
  case inr.inr.inr.inl =>
    obtain rfl := Bearing.opens.inj (h.symm.trans h')
    rw [hu]
  all_goals exact absurd (h.symm.trans h') (by simp)

theorem unbalanced_of_label (h : bearing tokens = .label) : (unbalanced tokens).opened = [] := by
  rcases bearing_cases tokens with ⟨-, h'⟩ | ⟨-, hlone, -⟩ |
    ⟨-, -, ⟨-, h'⟩ | ⟨e', -, h'⟩ | ⟨e', -, h'⟩ | h'⟩
  case inr.inl => rw [unbalanced_of_isLoneLabel hlone]
  all_goals exact absurd (h.symm.trans h') (by simp)

theorem openBrackets_append (pattern : Pattern) (lines lines' : List Line) :
    openBrackets pattern (lines ++ lines') =
      openBrackets pattern lines' ++ openBrackets pattern lines := by
  rw [openBrackets, reverse_append, flatMap_append]
  rfl

theorem openBrackets_openRows
    (hheaders : ∀ f ∈ frames, leftOpen .stock f.header.text = [f.enclosure])
    (hlabels : ∀ f ∈ frames, ∀ r ∈ f.label, leftOpen .stock r.text = [])
    (hlabel : ∀ r ∈ label, leftOpen .stock r.text = []) :
    openBrackets .stock ((openRows frames label).map Row.text) =
      (frames.map enclosure).reverse := by
  have hnone {row : Option Row} (hrow : ∀ r ∈ row, leftOpen .stock r.text = []) :
      openBrackets .stock (row.toList.map Row.text) = [] := by
    cases row with
    | none => rfl
    | some r => simpa [openBrackets] using hrow r rfl
  induction frames with
  | nil => exact hnone hlabel
  | cons f frames ih =>
    obtain ⟨hheader, hheaders⟩ := forall_mem_cons.mp hheaders
    obtain ⟨hfirst, hlabels⟩ := forall_mem_cons.mp hlabels
    have hone : openBrackets .stock [f.header.text] = [f.enclosure] := by
      simpa [openBrackets] using hheader
    rw [openRows_cons, map_append, map_cons, ← singleton_append (l := List.map _ _),
      openBrackets_append, openBrackets_append, ih hheaders hlabels, hone, hnone hfirst,
      map_cons, reverse_cons, append_nil]

/-! ### The outline -/

section Blank

section

variable (h : isBlankLine line = true)
include h

theorem isBlank_of_mem : ∀ c ∈ line, isBlank c = true :=
  all_eq_true.mp h

theorem unmarked_of_blank : Unmarked line := by
  refine unmarked_of_not_mem fun hmark => ?_
  have hblank := isBlank_of_mem h _ hmark
  revert hblank
  decide +kernel

theorem lineTokens_of_blank (hfeed : '\n' ∉ line) : lineTokens .stock line = [] := by
  rw [lineTokens_eq .stock hfeed, bareLine_eq fun _ => unmarked_of_blank h,
    scanBare_of_blank]
  exact fun c hc => isBlank_of_mem h c (mem_of_mem_dropReturn hc)

theorem dropOpenBrace?_of_blank : dropOpenBrace? line = none := by
  have hskip : skipBlanks line.reverse = [] := by
    rw [skipBlanks, dropWhile_eq_nil_iff]
    exact fun c hc => isBlank_of_mem h c (mem_reverse.mp hc)
  rw [dropOpenBrace?, hskip]

theorem outline?_blank (hfeed : '\n' ∉ line) (above : List Line) :
    outline? .stock (above ++ [line]) none = some (
      match above.getLast?.bind loneLabel? with
      | some name => .behindLabel .stock above.dropLast name [] none {}
      | none => .atStatement .stock above line [] none {}) := by
  rw [outline?, getLast?_concat, dropLast_concat]
  simp only [cutAt, take_length, drop_length, dropOpenBrace?_of_blank h]
  rw [outlineAtEnd?, lineTokens_of_blank h hfeed]
  simp only [drop_nil, any_nil, Bool.false_eq_true, if_false]
  cases above.getLast?.bind loneLabel? <;> rfl

end

theorem exists_header_of_getLast? {r : Row} (h : (openRows frames none).getLast? = some r) :
    ∃ f ∈ frames, r = f.header := by
  rcases eq_nil_or_concat frames with rfl | ⟨frames, f, rfl⟩
  · cases h
  · refine ⟨f, by simp, ?_⟩
    rw [concat_eq_append] at h
    simpa [openRows] using h.symm

theorem dropLabels_eq_self (h : lines.getLast?.bind loneLabel? = none) :
    dropLabels lines = lines := by
  rw [dropLabels]
  rcases eq_nil_or_concat lines with rfl | ⟨lines, last, rfl⟩
  · rfl
  · rw [concat_eq_append, getLast?_concat, Option.bind_some] at h
    rw [concat_eq_append, reverse_concat, dropWhile_cons, h]
    simp

theorem getLast?_openRows_bind (hheaders : ∀ f ∈ frames, loneLabel? f.header.text = none) :
    ((openRows frames none).map Row.text).getLast?.bind loneLabel? = none := by
  rw [getLast?_map]
  cases hlast : (openRows frames none).getLast? with
  | none => rfl
  | some r =>
    obtain ⟨f, hf, rfl⟩ := exists_header_of_getLast? hlast
    exact hheaders f hf

theorem outline?_openRows (h : isBlankLine line = true) (hfeed : '\n' ∉ line) (label : Option Row)
    (hheaders : ∀ f ∈ frames, loneLabel? f.header.text = none) : ∃ o label' line',
      outline? .stock ((openRows frames label).map Row.text ++ [line]) none = some o ∧
      (label' = label ∨ label' = none) ∧ (line' = line ∨ line' = []) ∧
      o.lines = (Outline.close .stock ((openRows frames label').map Row.text) line' 0).lines ∧
      o.depth = (Outline.close .stock ((openRows frames label').map Row.text) line' 0).depth := by
  rw [outline?_blank h hfeed]
  cases hlast : ((openRows frames label).map Row.text).getLast?.bind loneLabel? with
  | none =>
    refine ⟨_, label, line, rfl, .inl rfl, .inl rfl, ?_, ?_⟩ <;>
      simp only [Outline.atStatement, dropLabel, hlast, Option.isSome_none, Bool.false_eq_true,
        if_false]
  | some name =>
    cases label with
    | none =>
      rw [getLast?_openRows_bind hheaders] at hlast
      cases hlast
    | some r =>
      have hrows : openRows frames (some r) = openRows frames none ++ [r] := by simp [openRows]
      have hdrop : dropLabels ((openRows frames (some r)).map Row.text).dropLast =
          (openRows frames none).map Row.text := by
        rw [hrows, map_append, map_singleton, dropLast_concat]
        exact dropLabels_eq_self (getLast?_openRows_bind hheaders)
      refine ⟨_, none, [], rfl, .inr rfl, .inr rfl, ?_, ?_⟩ <;>
        simp only [Outline.behindLabel, hdrop]

end Blank

/-! ### Reading the outline -/

theorem Row.Genuine.copy (h : r.Genuine) (hcode : r.code ≠ []) (number : Nat) :
    r.Copy (rowAt .stock number (dropReturn r.text)) ∧
      (scanBare .stock number (dropReturn r.text)).2 = false := by
  obtain ⟨hsame, hcontinues⟩ := scanBare_dropReturn number r.text
  rw [scanBare_onLine .stock r.number number r.text] at hsame hcontinues
  rw [codeOf_map_onLine, ← h.tokens] at hsame
  refine ⟨⟨hsame, scanBare_tail .stock number _ ?_⟩, hcontinues.trans h.continues⟩
  rw [hsame]
  simpa [code] using hcode

theorem forall₂_copy (hrows : ∀ r ∈ rows, r.Genuine ∧ r.code ≠ []) (index : Nat) :
    List.Forall₂ Row.Copy rows
      (laden (rowsFrom .stock index (rows.map fun r => dropReturn r.text))) := by
  induction rows generalizing index with
  | nil => exact .nil
  | cons r rows ih =>
    obtain ⟨⟨hr, hcode⟩, hrows⟩ := forall_mem_cons.mp hrows
    obtain ⟨hcopy, -⟩ := hr.copy hcode (index + 1)
    have hne : (rowAt .stock (index + 1) (dropReturn r.text)).tokens ≠ [] := by
      intro hnil
      have hnone := hcopy.code
      rw [code, hnil] at hnone
      simp [codeOf] at hnone
      exact hcode hnone
    rw [map_cons, rowsFrom, laden_cons_of_ne_nil hne]
    exact .cons hcopy (ih hrows _)

theorem scanBare_closer (e : Enclosure) (number : Nat) :
    scanBare .stock number (dropReturn [e.closer.char]) =
      ([⟨.punct e.closer, number, some ⟨1, 1⟩⟩], false) := by
  have hone : scanBare .stock 1 (dropReturn [e.closer.char]) =
      ([⟨.punct e.closer, 1, some ⟨1, 1⟩⟩], false) := by
    cases e <;> decide +kernel
  rw [scanBare_onLine .stock 1 number, hone]
  rfl

theorem forall₂_closedBy (frames : List Frame) (index : Nat) :
    List.Forall₂ ClosedBy frames (laden (rowsFrom .stock index
      (frames.map fun f => dropReturn [f.enclosure.closer.char]))) := by
  induction frames generalizing index with
  | nil => exact .nil
  | cons f frames ih =>
    have htokens : (rowAt .stock (index + 1) (dropReturn [f.enclosure.closer.char])).tokens =
        [⟨.punct f.enclosure.closer, index + 1, some ⟨1, 1⟩⟩] := by
      rw [rowAt, scanBare_closer]
    rw [map_cons, rowsFrom, laden_cons_of_ne_nil (by simp [htokens])]
    exact .cons ⟨_, htokens, by simp [Token.isPunct]⟩ (ih _)

/-- A line that can stand anywhere in a text and is scanned by itself there. -/
structure Portable (line : Line) : Prop where
  feed : '\n' ∉ line
  mark : Unmarked line
  continues : ∀ number, (scanBare .stock number (dropReturn line)).2 = false

theorem Row.Genuine.portable (h : r.Genuine) (hcode : r.code ≠ []) : Portable r.text :=
  ⟨h.feed, h.mark, fun number => (h.copy hcode number).2⟩

theorem portable_of_blank (h : isBlankLine line = true) (hfeed : '\n' ∉ line) : Portable line := by
  refine ⟨hfeed, unmarked_of_blank h, fun number => ?_⟩
  rw [scanBare_of_blank fun c hc => isBlank_of_mem h c (mem_of_mem_dropReturn hc)]

theorem portable_closer (e : Enclosure) : Portable [e.closer.char] := by
  refine ⟨?_, ?_, fun number => by rw [scanBare_closer]⟩ <;> cases e <;> decide

theorem tokenize_intercalate (h : ∀ line ∈ lines, Portable line) (hne : lines ≠ []) :
    tokenize .stock (List.intercalate ['\n'] lines) =
      stream (laden (rowsFrom .stock 0 (lines.map dropReturn))) := by
  have hmark : ∀ line ∈ lines.head?, Unmarked line := fun line hline =>
    (h line (mem_of_mem_head? hline)).mark
  rw [tokenize, linesOf_intercalate (fun line hline => (h line hline).feed) hne,
    ← bareRows_eq fun _ => hmark]
  refine assemble_scanLines ((forall_continues_iff fun _ => hmark).mpr ?_)
  intro r hr
  obtain ⟨number, line, -, -, hline, rfl⟩ := exists_of_mem_rowsFrom hr
  obtain ⟨raw, hraw, rfl⟩ := mem_map.mp hline
  exact (h raw hraw).continues number

/-- The lines of an outline: rows that are open, the line of the cursor, and closing brackets. -/
def outlineLines (frames : List Frame) (label : Option Row) (line : Line) : List Line :=
  (openRows frames label).map Row.text ++ [line] ++
    (frames.map enclosure).reverse.map fun e => [e.closer.char]

theorem tokenize_outlineLines (hrows : ∀ r ∈ openRows frames label, r.Genuine ∧ r.code ≠ [])
    (hline : Portable line) :
    ∃ rows number shut, List.Forall₂ Row.Copy (openRows frames label) rows ∧
      List.Forall₂ ClosedBy frames shut ∧
      tokenize .stock (List.intercalate ['\n'] (outlineLines frames label line)) =
        stream (rows ++ laden [rowAt .stock number (dropReturn line)]) ++
          stream shut.reverse := by
  have hportable : ∀ l ∈ outlineLines frames label line, Portable l := by
    intro l hl
    rcases mem_append.mp hl with hl | hl
    · rcases mem_append.mp hl with hl | hl
      · obtain ⟨r, hr, rfl⟩ := mem_map.mp hl
        exact (hrows r hr).1.portable (hrows r hr).2
      · rw [mem_singleton.mp hl]
        exact hline
    · obtain ⟨e, -, rfl⟩ := mem_map.mp hl
      exact portable_closer e
  let above := (openRows frames label).map fun r => dropReturn r.text
  let closers := frames.reverse.map fun f => dropReturn [f.enclosure.closer.char]
  have hlines : (outlineLines frames label line).map dropReturn =
      above ++ ([dropReturn line] ++ closers) := by
    simp [outlineLines, above, closers, Function.comp_def]
  refine ⟨_, above.length + 1, (laden (rowsFrom .stock (above.length + 1) closers)).reverse,
    forall₂_copy hrows 0, ?_, ?_⟩
  · rw [← forall₂_reverse_iff, reverse_reverse]
    exact forall₂_closedBy frames.reverse _
  · rw [tokenize_intercalate hportable (by simp [outlineLines]), hlines, rowsFrom_append,
      rowsFrom_append, laden_append, laden_append, ← append_assoc, stream_append,
      reverse_reverse, Nat.zero_add]
    rfl

theorem tokenize_outlineLines_blank (hrows : ∀ r ∈ openRows frames label, r.Genuine ∧ r.code ≠ [])
    (hblank : isBlankLine line = true) (hfeed : '\n' ∉ line) :
    ∃ rows shut, List.Forall₂ Row.Copy (openRows frames label) rows ∧
      List.Forall₂ ClosedBy frames shut ∧
      tokenize .stock (List.intercalate ['\n'] (outlineLines frames label line)) =
        stream rows ++ stream shut.reverse := by
  obtain ⟨rows, number, shut, hcopies, hshut, htokens⟩ :=
    tokenize_outlineLines hrows (portable_of_blank hblank hfeed)
  have hempty : (rowAt .stock number (dropReturn line)).tokens = [] := by
    rw [rowAt, scanBare_of_blank fun c hc => isBlank_of_mem hblank c (mem_of_mem_dropReturn hc)]
  rw [laden_cons_of_nil hempty, show laden [] = [] from rfl, append_nil] at htokens
  exact ⟨rows, shut, hcopies, hshut, htokens⟩

theorem parse_of_finishes {input : List Token} {b : ReadM.Body}
    (h : ReadM.Finishes false (2 * input.length + 2) input b) : (parse input).entries = b.1 := by
  have hanswer := (h none [] rfl (Reading.quiet _ 1) ⟨1, rfl⟩).1
  rwa [append_nil] at hanswer

theorem entries_outline {stages : List Stage} (hframed : Framed false none frames label stages)
    (hrows : ∀ r ∈ openRows frames label, r.Genuine ∧ r.code ≠ [])
    (hblank : isBlankLine line = true) (hfeed : '\n' ∉ line) :
    ∃ stages', List.Forall₂ Stage.Alike stages stages' ∧
      Thin none (parse (tokenize .stock (List.intercalate ['\n']
        (outlineLines frames label line)))).entries stages' := by
  obtain ⟨rows, shut, hcopies, hshut, htokens⟩ := tokenize_outlineLines_blank hrows hblank hfeed
  have hlength : frames.length ≤ (stream rows ++ stream shut.reverse).length := by
    have hle := length_le_stream shut.reverse
    rw [length_reverse, ← hshut.length_eq] at hle
    rw [length_append]
    omega
  obtain ⟨es, comments, stages', halike, hthin, hfinishes⟩ :=
    hframed.finishes rfl hcopies hshut
      (show 2 * frames.length <
        2 * (stream rows ++ stream shut.reverse).length + 2 by omega)
  refine ⟨stages', halike, ?_⟩
  rw [htokens, parse_of_finishes hfinishes]
  exact hthin

/-! ### The way to a blank line -/

section Way

variable {inBlock : Bool} {role : Option Token} {stages : List Stage}
variable {text : List Char} {es : List Entry}

theorem Framed.count_block (h : Framed inBlock role frames label stages) :
    (frames.map enclosure).count .block = stages.length := by
  induction h with
  | here => rfl
  | block _ _ _ _ _ _ ih => rw [map_cons, count_cons_self, ih, length_cons]
  | list _ _ _ _ ih => rw [map_cons, count_cons_of_ne (by simp), ih]

theorem Framed.dropLabel (h : Framed inBlock role frames label stages) :
    Framed inBlock role frames none stages := by
  induction h with
  | here => exact .here (pending_none _)
  | block hlead hcode hw ha ho _ ih => exact .block hlead hcode hw ha ho ih
  | list hcode hl ho _ ih => exact .list hcode hl ho ih

theorem reverse_lines (frames : List Frame) (label : Option Row) :
    (Standing.lines ⟨frames.reverse, label⟩).reverse = (openRows frames label).map Row.text := by
  have hframes : (frameLines frames.reverse).reverse =
      (frames.flatMap fun f => f.label.toList ++ [f.header]).map Row.text := by
    induction frames with
    | nil => rfl
    | cons f frames ih =>
      have hfirst : (frameLines [f]).reverse =
          (f.label.toList ++ [f.header]).map Row.text := by
        cases hlabel : f.label <;> simp [frameLines, hlabel]
      rw [frameLines] at hfirst ih ⊢
      rw [reverse_cons, flatMap_append, reverse_append, hfirst, ih,
        flatMap_cons]
      simp only [map_append]
  rw [Standing.lines, reverse_append, hframes, openRows, map_append]
  cases label <;> rfl

theorem openPath_eq {i : Nat} (hline : lines[i]? = some line) {above : List Row}
    (htexts : above.map Row.text = lines.take i) (hfaithful : ∀ r ∈ above, r.Faithful)
    (hst : above.foldlM Standing.pass? {} = some ⟨frames.reverse, label⟩) :
    openPath lines i = (openRows frames label).map Row.text ++ [line] := by
  have hclimb := climb_eq hfaithful hst
  rw [htexts] at hclimb
  rw [openPath, hline]
  simp only
  rw [hclimb, reverse_lines]

theorem Row.Genuine.loneLabel?_eq_none (h : r.Genuine) {e : Enclosure}
    (hopens : bearing r.code = .opens e) : loneLabel? r.text = none := by
  have hopened : (unbalanced r.code).opened ≠ [] := by simp [unbalanced_of_opens hopens]
  obtain ⟨t, ht, hbracket⟩ := exists_opens_of_unbalanced hopened
  have hmem : t ∈ (scanBare .stock r.number r.text).1 := h.tokens ▸ (mem_filter.mp ht).1
  exact loneLabel?_of_opens hbracket fun _ => char_mem_of_scanBare hmem

section Drawn

variable (h : Standing.Drawn rows ⟨frames.reverse, label⟩)

include h

theorem Standing.Drawn.header {f : Frame} (hf : f ∈ frames) :
    f.header ∈ rows ∧ bearing f.header.code = .opens f.enclosure :=
  h.headers f (mem_reverse.mpr hf)

theorem Standing.Drawn.dropLabel : Standing.Drawn rows ⟨frames.reverse, none⟩ :=
  ⟨h.headers, h.labels, by simp⟩

theorem Standing.Drawn.of_mem {r : Row} (hr : r ∈ openRows frames label) :
    r ∈ rows ∧ r.code ≠ [] := by
  have hcode {b : Bearing} (hb : bearing r.code = b) (hne : b ≠ .silent) : r.code ≠ [] := by
    intro hnil
    rw [hnil] at hb
    exact hne hb.symm
  rcases mem_append.mp hr with hr | hr
  · obtain ⟨f, hf, hr⟩ := mem_flatMap.mp hr
    rcases mem_append.mp hr with hr | hr
    · obtain ⟨hmem, hb⟩ := h.labels f (mem_reverse.mpr hf) r (Option.mem_toList.mp hr)
      exact ⟨hmem, hcode hb (by simp)⟩
    · obtain rfl := mem_singleton.mp hr
      exact ⟨(h.header hf).1, hcode (h.header hf).2 (by simp)⟩
  · obtain ⟨hmem, hb⟩ := h.label r (Option.mem_toList.mp hr)
    exact ⟨hmem, hcode hb (by simp)⟩

theorem Standing.Drawn.openBrackets (hrows : ∀ r ∈ rows, r.Faithful) :
    openBrackets .stock ((openRows frames label).map Row.text) =
      (frames.map enclosure).reverse := by
  refine openBrackets_openRows (fun f hf => ?_) (fun f hf r hr => ?_) fun r hr => ?_
  · rw [(hrows _ (h.header hf).1).leftOpen, unbalanced_of_opens (h.header hf).2]
  · obtain ⟨hmem, hb⟩ := h.labels f (mem_reverse.mpr hf) r hr
    rw [(hrows r hmem).leftOpen, unbalanced_of_label hb]
  · obtain ⟨hmem, hb⟩ := h.label r hr
    rw [(hrows r hmem).leftOpen, unbalanced_of_label hb]

end Drawn

theorem genuine_of_mem_rowsFrom (hmark : ∀ line ∈ documentLines text, Unmarked line)
    (hcontinues : ∀ l ∈ scanLines .stock 0 false (linesOf text), l.continues = false)
    (hr : r ∈ textRows .stock text) : r.Genuine := by
  have hfirst : ∀ line ∈ (linesOf text).head?, Unmarked line := fun line hline =>
    unmarked_dropReturn.mp (hmark _ (mem_map_of_mem (mem_of_mem_head? hline)))
  have hrow := (forall_continues_iff fun _ => hfirst).mp hcontinues r hr
  obtain ⟨number, line, -, -, hline, rfl⟩ := exists_of_mem_rowsFrom hr
  exact ⟨rfl, fun hc => (mem_of_mem_documentLines hline hc).2 rfl, hmark line hline, hrow⟩

theorem Row.Genuine.faithful (h : r.Genuine) : r.Faithful := by
  have hrow : r = rowAt .stock r.number r.text := congrArg (Row.mk r.text r.number) h.tokens
  rw [hrow]
  exact faithful_rowAt r.number h.feed h.mark

theorem laid_textRows (hmark : Unmarked text)
    (hcontinues : ∀ l ∈ scanLines .stock 0 false (linesOf text), l.continues = false)
    (hreads : Form.Reads (.items none) (tokenize .stock text) (es, []) []) :
    Entry.StandOn es (laden (textRows .stock text)) ∧
      Laid false none none (laden (textRows .stock text)) es :=
  Form.Reads.laid (fun _ hr => sound_of_mem_laden hr)
    (tokenize_eq_stream hmark hcontinues ▸ hreads)

theorem Entry.StandOn.nodup (h : StandOn es (laden (textRows .stock text))) :
    (linesAll es).Nodup := by
  have hrows : ((textRows .stock text).map number).Nodup := by
    rw [textRows, map_number_rowsFrom]
    exact nodup_range'
  have hladen : ((laden (textRows .stock text)).map number).Sublist
      ((textRows .stock text).map number) := filter_sublist.map _
  exact hrows.sublist (h.trans hladen)

theorem nodup_linesAll (hmark : '\ufeff' ∉ text)
    (hcontinues : ∀ l ∈ scanLines .stock 0 false (linesOf text), l.continues = false)
    (hreads : Form.Reads (.items none) (tokenize .stock text) (es, []) []) :
    (Entry.linesAll es).Nodup :=
  (laid_textRows (unmarked_of_not_mem hmark) hcontinues hreads).1.nodup

/-- At a blank line of a text that is read without a miss, some blocks are open. The entries of the
text lead through their commands, and so do those of the outline at the line, which hold nothing
else. -/
theorem exists_outline (hmark : '\ufeff' ∉ text)
    (hcontinues : ∀ l ∈ scanLines .stock 0 false (linesOf text), l.continues = false)
    (hreads : Form.Reads (.items none) (tokenize .stock text) (es, []) []) {i : Nat}
    (hline : (documentLines text)[i]? = some line) (hblank : isBlankLine line = true) :
    ∃ stages stages' o, Entry.Path none es stages ∧
      openBlocks [] ((tokenize .stock text).filter (·.line ≤ i)) =
        (stages.map fun stage => stage.word.line).reverse ∧
      outline? .stock (openPath (documentLines text) i) none = some o ∧
      o.depth = stages.length ∧ List.Forall₂ Stage.Alike stages stages' ∧
      Thin none (parse (tokenize .stock (List.intercalate ['\n'] o.lines))).entries stages' := by
  obtain ⟨hi, hat⟩ := List.getElem?_eq_some_iff.mp hline
  have hfeed : '\n' ∉ line := fun hc =>
    (mem_of_mem_documentLines (mem_of_getElem? hline) hc).2 rfl
  let above := (documentLines text).take i
  have hlength : above.length = i := by simp [above]; omega
  have hlines : documentLines text = above ++ (documentLines text).drop i :=
    (take_append_drop _ _).symm
  have hrows : textRows .stock text =
      rowsFrom .stock 0 above ++ rowsFrom .stock i ((documentLines text).drop i) := by
    rw [textRows, hlines, rowsFrom_append, hlength, Nat.zero_add, ← hlines]
  have hgenuine : ∀ r ∈ rowsFrom .stock 0 above, r.Genuine := fun r hr =>
    genuine_of_mem_rowsFrom (fun _ hline => unmarked_of_not_mem fun hc =>
      hmark (mem_of_mem_documentLines hline hc).1) hcontinues (hrows ▸ mem_append_left _ hr)
  -- the text is cut in front of the line
  have hmark' : Unmarked text := unmarked_of_not_mem hmark
  have htokens := tokenize_eq_stream hmark' hcontinues
  obtain ⟨frames, label, stages, hpass, hblocks, hframed, hpath⟩ :=
    (laid_textRows hmark' hcontinues hreads).2.cut (laden (rowsFrom .stock 0 above)) _
      (by rw [hrows, laden_append])
  have hst : (rowsFrom .stock 0 above).foldlM Standing.pass? {} = some ⟨frames.reverse, label⟩ := by
    have hst := hpass []
    rwa [foldlM_laden, append_nil] at hst
  have hopen := openPath_eq hline (map_text_rowsFrom .stock 0 above)
    (fun r hr => (hgenuine r hr).faithful) hst
  have hdrawn := drawn_of_foldlM ⟨by simp, by simp, by simp⟩ (fun r hr => hr) hst
  obtain ⟨o, label', line', houtline, hlabel', hline', holines, hodepth⟩ :=
    outline?_openRows hblank hfeed label fun f hf =>
      (hgenuine _ (hdrawn.header hf).1).loneLabel?_eq_none (hdrawn.header hf).2
  -- the label in front of the line is kept or left out
  have hframed' : Framed false none frames label' stages := by
    rcases hlabel' with rfl | rfl
    · exact hframed
    · exact hframed.dropLabel
  have hdrawn' : Standing.Drawn (rowsFrom .stock 0 above) ⟨frames.reverse, label'⟩ := by
    rcases hlabel' with rfl | rfl
    · exact hdrawn
    · exact hdrawn.dropLabel
  have hblank' : isBlankLine line' = true ∧ '\n' ∉ line' := by
    rcases hline' with rfl | rfl
    · exact ⟨hblank, hfeed⟩
    · simp [isBlankLine]
  have hbrackets := hdrawn'.openBrackets fun r hr => (hgenuine r hr).faithful
  obtain ⟨stages', halike, hthin⟩ := entries_outline hframed'
    (fun r hr => (hdrawn'.of_mem hr).imp_left (hgenuine r)) hblank'.1 hblank'.2
  refine ⟨stages, stages', o, hpath, ?_, hopen ▸ houtline, ?_, halike, ?_⟩
  · have hfilter := filter_stream .stock 0 above ((documentLines text).drop i)
    rw [← hlines, hlength, Nat.zero_add] at hfilter
    rw [htokens, textRows, hfilter, hblocks, append_nil]
  · rw [hodepth, Outline.close, hbrackets]
    show (frames.map enclosure).reverse.count .block + 0 = stages.length
    rw [count_reverse, hframed.count_block, Nat.add_zero]
  · rw [holines, Outline.close, hbrackets]
    exact hthin

end Way

end CommandText
