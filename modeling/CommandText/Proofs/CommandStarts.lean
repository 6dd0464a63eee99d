import CommandText.Proofs.TokenSpans

/-!
# Lines that start a command

A line that is continued belongs to one run of tokens with the line below it, and a run ends with a
newline. Commands are counted while lines are scanned: a line counts if its first token is an
identifier and it does not continue the line above. So a run that starts with an identifier counts
once, on the line of its first token, unless lines without a token stand in front of it that are
continued there: then the first token stands on a line that continues another one, and the run does
not count.
-/

namespace CommandText

open List LineTokens

variable {joined : Bool} {index : Nat} {pattern : Pattern} {continues : Nat → Bool}

/-- The tokens with which runs start: those with nothing or a newline in front of them. The flag
says whether nothing or a newline stands in front of them all. -/
def runStarts : Bool → List Token → List Token
  | _, [] => []
  | true, t :: ts => t :: runStarts (t.isKind .newline) ts
  | false, t :: ts => runStarts (t.isKind .newline) ts

/-- Whether the line of a text with a number continues the line above. -/
def continuesLine (pattern : Pattern) (text : List Char) (number : Nat) : Bool :=
  (scanLines pattern 0 false (linesOf text))[number - 1]?.any (·.joined)

/-! ### Runs -/

theorem runStarts_false_append {ts : List Token} (hts : ∀ t ∈ ts, t.isKind .newline = false)
    (more : List Token) : runStarts false (ts ++ more) = runStarts false more := by
  induction ts with
  | nil => rfl
  | cons t ts ih =>
    obtain ⟨ht, hts⟩ := forall_mem_cons.mp hts
    rw [cons_append, runStarts, ht, ih hts]

theorem runStarts_true_append {ts : List Token} (hts : ∀ t ∈ ts, t.isKind .newline = false)
    (more : List Token) :
    runStarts true (ts ++ more) = ts.head?.toList ++ runStarts ts.isEmpty more := by
  cases ts with
  | nil => rfl
  | cons t ts =>
    obtain ⟨ht, hts⟩ := forall_mem_cons.mp hts
    rw [cons_append, runStarts, ht, runStarts_false_append hts]
    rfl

/-! ### Lines -/

theorem of_mem_scanLine {line : Line} {t : Token}
    (ht : t ∈ (scanLine pattern index joined line).tokens) :
    t.line = (scanLine pattern index joined line).number ∧ t.isKind .newline = false := by
  obtain ⟨hline, hkind, -⟩ := (fillsLine_scanLine pattern index joined line).exists_span ht
  exact ⟨hline.trans (number_scanLine pattern index joined line).symm,
    Token.isKind_eq_false_iff.mpr hkind⟩

theorem joined_scanLine (pattern : Pattern) (index : Nat) (joined : Bool) (line : Line) :
    (scanLine pattern index joined line).joined = joined := by
  simp only [scanLine]
  split <;> rfl

theorem number_getElem?_scanLines {lines : List Line} {k : Nat} {l : LineTokens}
    (h : (scanLines pattern index joined lines)[k]? = some l) : l.number = index + k + 1 := by
  induction lines generalizing index joined k with
  | nil => simp [scanLines] at h
  | cons line lines ih =>
    rw [scanLines] at h
    cases k with
    | zero =>
      obtain rfl := Option.some.inj h
      exact number_scanLine pattern index joined line
    | succ k =>
      rw [ih h]
      omega

theorem continuesLine_eq {text : List Char} {l : LineTokens}
    (h : l ∈ scanLines pattern 0 false (linesOf text)) :
    continuesLine pattern text l.number = l.joined := by
  obtain ⟨k, hk⟩ := getElem?_of_mem h
  have hnumber := number_getElem?_scanLines hk
  rw [Nat.zero_add] at hnumber
  rw [continuesLine, hnumber, Nat.add_sub_cancel, hk, Option.any_some]

/-! ### Counting -/

theorem countP_head? {line : Line}
    (h : continues (scanLine pattern index joined line).number = joined) :
    (scanLine pattern index joined line).tokens.head?.toList.countP
        (fun t => t.isKind .identifier && !continues t.line) =
      [scanLine pattern index joined line].countP startsCommand := by
  rw [countP_singleton, startsCommand, joined_scanLine]
  cases hhead : (scanLine pattern index joined line).tokens.head? with
  | none => simp
  | some t =>
    have hline := (of_mem_scanLine (mem_of_mem_head? hhead)).1
    simp [hline, h, Bool.and_comm]

theorem countP_runStarts_assemble (pattern : Pattern) (index : Nat) (joined pending : Bool)
    (lines : List Line) (hpending : pending = true → joined = true)
    (hcontinues : ∀ l ∈ scanLines pattern index joined lines, continues l.number = l.joined) :
    (runStarts (!pending) (assemble pending (scanLines pattern index joined lines))).countP
        (fun t => t.isKind .identifier && !continues t.line) =
      (scanLines pattern index joined lines).countP startsCommand := by
  induction lines generalizing index joined pending with
  | nil => cases pending <;> rfl
  | cons line lines ih =>
    rw [scanLines] at hcontinues ⊢
    obtain ⟨hfirst, hlater⟩ := forall_mem_cons.mp hcontinues
    rw [joined_scanLine] at hfirst
    have hhead := countP_head? hfirst
    have hjoined := joined_scanLine pattern index joined line
    have hnewline (t : Token) (ht : t ∈ (scanLine pattern index joined line).tokens) :=
      (of_mem_scanLine ht).2
    generalize scanLine pattern index joined line = first at hhead hjoined hnewline hlater ⊢
    -- what follows the line starts with a run exactly if none is open behind the line
    have hrest : (runStarts (!(pending || !first.tokens.isEmpty))
          (if first.continues then
            assemble (pending || !first.tokens.isEmpty)
              (scanLines pattern (index + 1) first.continues lines)
          else if pending || !first.tokens.isEmpty then
            ⟨.newline, first.number, none⟩ ::
              assemble false (scanLines pattern (index + 1) first.continues lines)
          else assemble false (scanLines pattern (index + 1) first.continues lines))).countP
          (fun t => t.isKind .identifier && !continues t.line) =
        (scanLines pattern (index + 1) first.continues lines).countP
          startsCommand := by
      cases hends : first.continues with
      | true =>
        rw [hends] at hlater
        exact ih (index + 1) true _ (fun _ => rfl) hlater
      | false =>
        rw [hends] at hlater
        have hnext := ih (index + 1) false false (by simp) hlater
        cases pending || !first.tokens.isEmpty with
        | true => exact hnext
        | false => exact hnext
    rw [assemble, countP_cons, ← hrest, ← countP_singleton]
    cases pending with
    | true =>
      have hopen : [first].countP startsCommand = 0 := by
        simp [startsCommand, hjoined, hpending rfl]
      rw [hopen, Bool.not_true, runStarts_false_append hnewline]
      rfl
    | false =>
      rw [Bool.not_false, runStarts_true_append hnewline, countP_append, hhead, Nat.add_comm,
        Bool.false_or, Bool.not_not]

/-- As many commands are counted as runs start with an identifier on a line that does not continue
another one. So the identifiers with which runs start are counted exactly if none of them stands on
a line that continues another one. -/
theorem commandCount_eq (pattern : Pattern) (text : List Char) :
    let starts := runStarts true (tokenize pattern text)
    commandCount pattern text =
        starts.countP (fun t => t.isKind .identifier && !continuesLine pattern text t.line) ∧
      (commandCount pattern text = starts.countP (·.isKind .identifier) ↔
        ∀ t ∈ starts, t.isKind .identifier = true → continuesLine pattern text t.line = false) := by
  intro starts
  have hcount : commandCount pattern text =
      starts.countP (fun t => t.isKind .identifier && !continuesLine pattern text t.line) :=
    (countP_runStarts_assemble pattern 0 false false (linesOf text) (by simp)
      fun _ => continuesLine_eq).symm
  refine ⟨hcount, ?_⟩
  -- the identifiers are those that count and those on lines that continue another one
  have hall := starts.countP_eq_countP_filter_add (·.isKind .identifier)
    (fun t => !continuesLine pattern text t.line)
  rw [countP_filter, ← hcount] at hall
  rw [hall, Nat.left_eq_add, countP_eq_zero]
  simp only [mem_filter, Bool.not_not, and_imp]
  refine forall₂_congr fun t _ => ?_
  cases continuesLine pattern text t.line <;> simp

/-- A line without a token, which the line below it continues: the command there is not counted. -/
theorem commandCount_continuedBlank :
    let text := "\\\nBox".toList
    commandCount .stock text = 0 ∧
      (runStarts true (tokenize .stock text)).countP (·.isKind .identifier) = 1 := by
  decide +kernel

end CommandText
