import CommandText.Editor.Document
import CommandText.Proofs.TrailingReturn

/-!
# The rows of a text

A text in which no line is continued is the stream of its lines, each of them scanned by itself. A
line of a document that is put elsewhere still has the same code.
-/

namespace CommandText

open Row List

variable {c : Char} {line : Line} {r : Row} {lines : List Line} {index : Nat}

/-! ### Splitting -/

theorem mem_of_mem_linesOf {text : List Char} (h : line ∈ linesOf text) (hc : c ∈ line) :
    c ∈ text ∧ c ≠ '\n' := by
  rw [linesOf, List.splitOn] at h
  induction text generalizing line with
  | nil =>
    obtain rfl := mem_singleton.mp h
    cases hc
  | cons d text ih =>
    rw [splitOnP_cons_eq_if_modifyHead] at h
    split at h
    · rcases mem_cons.mp h with rfl | h
      · cases hc
      · exact (ih h hc).imp_left (mem_cons_of_mem d)
    · next hd =>
      cases hlines : text.splitOnP (· == '\n') with
      | nil => simp [hlines] at h
      | cons first lines =>
        rw [hlines, modifyHead_cons] at h
        rcases mem_cons.mp h with rfl | h
        · rcases mem_cons.mp hc with rfl | hc
          · exact ⟨mem_cons_self, by simpa using hd⟩
          · exact (ih (by simp [hlines]) hc).imp_left (mem_cons_of_mem d)
        · exact (ih (by simp [hlines, h]) hc).imp_left (mem_cons_of_mem d)

theorem mem_of_mem_dropReturn (h : c ∈ dropReturn line) : c ∈ line := by
  rw [dropReturn] at h
  split at h
  · exact (dropLast_sublist line).mem h
  · exact h

theorem mem_of_mem_documentLines {text : List Char} (h : line ∈ documentLines text)
    (hc : c ∈ line) : c ∈ text ∧ c ≠ '\n' := by
  obtain ⟨line, hline, rfl⟩ := mem_map.mp h
  exact mem_of_mem_linesOf hline (mem_of_mem_dropReturn hc)

theorem linesOf_intercalate (h : ∀ line ∈ lines, '\n' ∉ line) (hne : lines ≠ []) :
    linesOf (List.intercalate ['\n'] lines) = lines :=
  splitOn_intercalate '\n' h hne

theorem linesOf_of_not_mem (h : '\n' ∉ line) : linesOf line = [line] := by
  have hsplit : linesOf (List.intercalate ['\n'] [line]) = [line] :=
    linesOf_intercalate (by simpa using h) (by simp)
  simpa using hsplit

/-! ### Byte order marks -/

/-- A line that does not start with a byte order mark. -/
def Unmarked (line : Line) : Prop := line.head? ≠ some '\ufeff'

instance (line : Line) : Decidable (Unmarked line) :=
  inferInstanceAs (Decidable (line.head? ≠ some '\ufeff'))

theorem unmarked_of_not_mem (h : '\ufeff' ∉ line) : Unmarked line :=
  fun hhead => h (mem_of_mem_head? hhead)

theorem unmarked_dropReturn : Unmarked (dropReturn line) ↔ Unmarked line := by
  rw [dropReturn]
  split
  · next hlast =>
    rcases line with _ | ⟨c, _ | ⟨d, line⟩⟩
    · rfl
    · obtain rfl : c = '\r' := by simpa using hlast
      simp [Unmarked]
    · rfl
  · rfl

theorem bareLine_eq (h : index = 0 → Unmarked line) : bareLine index line = dropReturn line := by
  rw [bareLine]
  split
  · next hindex =>
    have hmark := unmarked_dropReturn.mpr (h hindex)
    refine dropMark.eq_2 _ fun cs heq => hmark ?_
    rw [heq]
    rfl
  · rfl

theorem dropMark_dropReturn (line : Line) :
    dropMark (dropReturn line) = dropReturn (dropMark line) := by
  cases line with
  | nil => rfl
  | cons c line =>
    by_cases hc : c = '\ufeff'
    · rw [hc]
      cases line with
      | nil => rfl
      | cons d line =>
        rw [dropReturn, dropMark, dropReturn, getLast?_cons_cons]
        split <;> rfl
    · rw [dropMark.eq_2 (c :: line) (by simpa using hc), dropMark.eq_2]
      intro cs heq
      rw [dropReturn] at heq
      split at heq
      · cases line with
        | nil => simp at heq
        | cons d line => exact hc (cons.inj heq).1
      · exact hc (cons.inj heq).1

theorem scan_mark (cs : List Char) : scan .stock ('\ufeff' :: cs) = .token (.error "\ufeff") 1 := by
  have hblank : isBlank '\ufeff' = false := by decide +kernel
  rw [scan, scanSolid?_of_startsNothing (by decide +kernel)]
  simp [hblank, scanGeneric?, isContinuation]

theorem wholeLine?_mark (number : Nat) (cs : List Char) :
    wholeLine? number ('\ufeff' :: cs) = none := by
  have hblank : isBlank '\ufeff' = false := by decide +kernel
  rw [wholeLine?, skipBlanks, dropWhile_cons_of_neg (by simp [hblank])]
  simp

theorem unmarked_of_clean {number : Nat}
    (h : ∀ t ∈ codeOf (scanBare .stock number line).1, t.kind ≠ .error) : Unmarked line := by
  intro hhead
  obtain ⟨cs, rfl⟩ := head?_eq_some_iff.mp hhead
  rw [scanBare, wholeLine?_mark] at h
  simp only [scanFrom, scan_mark] at h
  refine h _ (mem_filter.mpr ⟨mem_cons_self, rfl⟩) rfl

theorem unmarked_head_linesOf {text : List Char} (h : Unmarked text) :
    ∀ line ∈ (linesOf text).head?, Unmarked line := by
  rintro line hline hmark
  refine h ?_
  cases text with
  | nil =>
    obtain rfl : line = [] := by simpa [linesOf, List.splitOn] using hline.symm
    cases hmark
  | cons c text =>
    rw [linesOf, List.splitOn, splitOnP_cons_eq_if_modifyHead] at hline
    split at hline
    · obtain rfl : line = [] := by simpa using hline.symm
      cases hmark
    · cases hlines : text.splitOnP (· == '\n') with
      | nil => simp [hlines] at hline
      | cons first lines =>
        rw [hlines, modifyHead_cons] at hline
        obtain rfl : line = c :: first := by simpa using hline.symm
        exact hmark

/-! ### Rows -/

/-- The row of a line. -/
def rowAt (pattern : Pattern) (number : Nat) (line : Line) : Row :=
  ⟨line, number, (scanBare pattern number line).1⟩

/-- The rows of the lines from an index on. -/
def rowsFrom (pattern : Pattern) : Nat → List Line → List Row
  | _, [] => []
  | index, line :: lines => rowAt pattern (index + 1) line :: rowsFrom pattern (index + 1) lines

/-- The lines of a text as rows. -/
def textRows (pattern : Pattern) (text : List Char) : List Row :=
  rowsFrom pattern 0 (documentLines text)

/-- The rows of lines as they are scanned in a text, whose first line may carry a byte order
mark. -/
def bareRows (pattern : Pattern) : Nat → List Line → List Row
  | _, [] => []
  | index, line :: lines =>
    ⟨dropReturn line, index + 1, (scanBare pattern (index + 1) (bareLine index line)).1⟩ ::
      bareRows pattern (index + 1) lines

/-- The rows with tokens. -/
def Row.laden (rows : List Row) : List Row := rows.filter fun r => !r.tokens.isEmpty

theorem Row.laden_cons_of_nil (h : r.tokens = []) (rows : List Row) :
    laden (r :: rows) = laden rows := by
  simp [laden, h]

theorem Row.laden_cons_of_ne_nil (h : r.tokens ≠ []) (rows : List Row) :
    laden (r :: rows) = r :: laden rows := by
  simp [laden, h]

theorem Row.laden_append (rows rows' : List Row) :
    laden (rows ++ rows') = laden rows ++ laden rows' :=
  filter_append rows rows'

section Rows

variable (pattern : Pattern)

theorem map_text_rowsFrom (index : Nat) (lines : List Line) :
    (rowsFrom pattern index lines).map text = lines := by
  induction lines generalizing index with
  | nil => rfl
  | cons line lines ih => rw [rowsFrom, map_cons, ih, rowAt]

theorem map_number_rowsFrom (index : Nat) (lines : List Line) :
    (rowsFrom pattern index lines).map number = List.range' (index + 1) lines.length := by
  induction lines generalizing index with
  | nil => rfl
  | cons line lines ih => rw [rowsFrom, map_cons, ih, length_cons, List.range'_succ]; rfl

theorem rowsFrom_append (index : Nat) (above below : List Line) :
    rowsFrom pattern index (above ++ below) =
      rowsFrom pattern index above ++ rowsFrom pattern (index + above.length) below := by
  induction above generalizing index with
  | nil => rfl
  | cons line above ih =>
    rw [cons_append, rowsFrom, ih, rowsFrom, cons_append, length_cons,
      Nat.add_right_comm, Nat.add_assoc]

variable {pattern}

theorem exists_of_mem_rowsFrom (h : r ∈ rowsFrom pattern index lines) :
    ∃ number line, index < number ∧ number ≤ index + lines.length ∧ line ∈ lines ∧
      r = rowAt pattern number line := by
  induction lines generalizing index with
  | nil => cases h
  | cons line lines ih =>
    rcases mem_cons.mp h with rfl | h
    · exact ⟨index + 1, line, by omega, by simp, mem_cons_self, rfl⟩
    · obtain ⟨number, line', hlt, hle, hmem, hr⟩ := ih h
      rw [length_cons]
      exact ⟨number, line', by omega, by omega, mem_cons_of_mem line hmem, hr⟩

theorem sound_of_mem_laden (h : r ∈ laden (rowsFrom pattern index lines)) : r.Sound := by
  obtain ⟨hmem, htokens⟩ := mem_filter.mp h
  obtain ⟨number, line, -, -, -, rfl⟩ := exists_of_mem_rowsFrom hmem
  exact sound_scanBare pattern number line line (by simpa [rowAt] using htokens)

theorem foldlM_laden (rows : List Row) (st : Standing) :
    (laden rows).foldlM Standing.pass? st = rows.foldlM Standing.pass? st := by
  induction rows generalizing st with
  | nil => rfl
  | cons r rows ih =>
    by_cases htokens : r.tokens = []
    · have hcode : bearing r.code = .silent := by simp [code, codeOf, htokens, bearing]
      rw [foldlM_cons, Standing.pass?_of_silent hcode, laden_cons_of_nil htokens]
      exact ih st
    · rw [laden_cons_of_ne_nil htokens, foldlM_cons, foldlM_cons]
      congr 1
      funext st'
      exact ih st'

end Rows

/-! ### The tokens of a text -/

section Tokenize

variable {pattern : Pattern} {text : List Char}

theorem forall_continues_iff (hmark : index = 0 → ∀ line ∈ lines.head?, Unmarked line) :
    (∀ l ∈ scanLines pattern index false lines, l.continues = false) ↔
      ∀ r ∈ rowsFrom pattern index (lines.map dropReturn),
        (scanBare pattern r.number r.text).2 = false := by
  induction lines generalizing index with
  | nil => simp [scanLines, rowsFrom]
  | cons line lines ih =>
    rw [scanLines, scanLine_eq, bareLine_eq fun hindex => hmark hindex line rfl,
      forall_mem_cons, map_cons, rowsFrom, forall_mem_cons]
    refine and_congr_right fun hfirst => ?_
    have hcontinues : (scanBare pattern (index + 1) (dropReturn line)).2 = false := hfirst
    rw [hcontinues]
    exact ih (by simp)

theorem assemble_scanLines
    (hcontinues : ∀ l ∈ scanLines pattern index false lines, l.continues = false) :
    assemble false (scanLines pattern index false lines) =
      stream (laden (bareRows pattern index lines)) := by
  induction lines generalizing index with
  | nil => rfl
  | cons line lines ih =>
    rw [scanLines] at hcontinues ⊢
    obtain ⟨hfirst, hcontinues⟩ := forall_mem_cons.mp hcontinues
    simp only [hfirst] at hcontinues ⊢
    have htail := ih hcontinues
    rw [scanLine_eq] at hfirst ⊢
    have hline : (scanBare pattern (index + 1) (bareLine index line)).2 = false := hfirst
    rw [bareRows, assemble]
    simp only [hline, Bool.false_or, Bool.false_eq_true, if_false, htail]
    by_cases htokens : (scanBare pattern (index + 1) (bareLine index line)).1 = []
    · rw [laden_cons_of_nil htokens]
      simp [htokens]
    · rw [laden_cons_of_ne_nil htokens, stream_cons]
      simp [htokens, newline]

theorem bareRows_eq (hmark : index = 0 → ∀ line ∈ lines.head?, Unmarked line) :
    bareRows pattern index lines = rowsFrom pattern index (lines.map dropReturn) := by
  induction lines generalizing index with
  | nil => rfl
  | cons line lines ih =>
    rw [bareRows, map_cons, rowsFrom, ih (by simp),
      bareLine_eq fun hindex => hmark hindex line rfl, rowAt]

theorem tokenize_eq_stream (hmark : Unmarked text)
    (hcontinues : ∀ l ∈ scanLines pattern 0 false (linesOf text), l.continues = false) :
    tokenize pattern text = stream (laden (textRows pattern text)) := by
  rw [tokenize, assemble_scanLines hcontinues,
    bareRows_eq fun _ => unmarked_head_linesOf hmark]
  rfl

theorem exists_row_of_mem_stream {rows : List Row} (hrows : ∀ r ∈ rows, r.Sound) {t : Token}
    (ht : t ∈ stream rows) : ∃ r ∈ rows, t.line = r.number := by
  obtain ⟨r, hr, ht⟩ := mem_flatMap.mp ht
  refine ⟨r, hr, ?_⟩
  rcases mem_append.mp ht with ht | ht
  · exact (hrows r hr).line t ht
  · rw [mem_singleton.mp ht, newline]

theorem line_of_mem_stream {t : Token}
    (ht : t ∈ stream (laden (rowsFrom pattern index lines))) :
    index < t.line ∧ t.line ≤ index + lines.length := by
  obtain ⟨r, hr, hline⟩ := exists_row_of_mem_stream (fun _ => sound_of_mem_laden) ht
  obtain ⟨number, line, hlt, hle, -, rfl⟩ := exists_of_mem_rowsFrom (mem_filter.mp hr).1
  rw [hline]
  exact ⟨hlt, hle⟩

theorem filter_stream (pattern : Pattern) (index : Nat) (above below : List Line) :
    (stream (laden (rowsFrom pattern index (above ++ below)))).filter
        (·.line ≤ index + above.length) =
      stream (laden (rowsFrom pattern index above)) := by
  rw [rowsFrom_append, laden, filter_append, stream_append, filter_append]
  have habove : ∀ t ∈ stream (laden (rowsFrom pattern index above)),
      decide (t.line ≤ index + above.length) = true := by
    intro t ht
    exact decide_eq_true (line_of_mem_stream ht).2
  have hbelow : ∀ t ∈ stream (laden (rowsFrom pattern (index + above.length) below)),
      ¬decide (t.line ≤ index + above.length) = true := by
    intro t ht
    have hlt := (line_of_mem_stream ht).1
    simpa using hlt
  have hfirst := filter_eq_self.mpr habove
  have hlast := filter_eq_nil_iff.mpr hbelow
  rw [laden] at hfirst hlast
  rw [hfirst, hlast, append_nil, laden]

end Tokenize

/-! ### Lines by themselves -/

theorem exists_tokenize_line (pattern : Pattern) (h : '\n' ∉ line) :
    ∃ tail, tokenize pattern line = (scanBare pattern 1 (bareLine 0 line)).1 ++ tail ∧
      ∀ t ∈ tail, t.isKind .newline = true := by
  have hnewline : Token.isKind ⟨.newline, 1, none⟩ .newline = true := rfl
  rw [tokenize, linesOf_of_not_mem h, scanLines, scanLines, scanLine_eq, assemble]
  simp only [assemble]
  split
  · exact ⟨_, rfl, by simp⟩
  · split
    · exact ⟨_, rfl, by simpa using hnewline⟩
    · exact ⟨_, rfl, by simp⟩

theorem lineTokens_eq (pattern : Pattern) (h : '\n' ∉ line) :
    lineTokens pattern line = (scanBare pattern 1 (bareLine 0 line)).1 := by
  have hfilter : (scanBare pattern 1 (bareLine 0 line)).1.filter (!·.isKind .newline) =
      (scanBare pattern 1 (bareLine 0 line)).1 := by
    rw [filter_eq_self]
    intro t ht
    have hsound := sound_scanBare pattern 1 (bareLine 0 line) line (ne_nil_of_mem ht)
    rw [hsound.newline t ht, Bool.not_false]
  obtain ⟨tail, htokens, htail⟩ := exists_tokenize_line pattern h
  have hnone : tail.filter (!·.isKind .newline) = [] := by
    rw [filter_eq_nil_iff]
    intro t ht
    simp [htail t ht]
  rw [lineTokens, htokens, filter_append, hfilter, hnone, append_nil]

theorem faithful_of_bareLine (number : Nat) {text bare : Line} (hfeed : '\n' ∉ text)
    (hbare : bareLine 0 text = dropReturn bare) :
    Row.Faithful ⟨text, number, (scanBare .stock number bare).1⟩ := by
  have hcode := (scanBare_dropReturn 1 bare).1
  rw [scanBare_onLine .stock number 1 bare, codeOf_map_onLine] at hcode
  show codeOf (lineTokens .stock text) = _
  rw [lineTokens_eq .stock hfeed, hbare]
  exact hcode

theorem faithful_rowAt (number : Nat) (hfeed : '\n' ∉ line) (hmark : Unmarked line) :
    (rowAt .stock number line).Faithful :=
  faithful_of_bareLine number hfeed (bareLine_eq fun _ => hmark)

end CommandText
