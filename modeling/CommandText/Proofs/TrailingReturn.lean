import CommandText.Proofs.CutText

/-!
# A carriage return at the end of a line

A line may still end with a carriage return when the one that belongs to the line end has been
dropped. It is a blank there, and only a comment takes it up, so the code of the line is the same
with it and without.
-/

namespace CommandText

open List

theorem isBlank_return : isBlank '\r' = true := by decide

theorem stops_return : Stops ['\r'] := by
  refine ⟨?_, ?_⟩
  · rintro c ⟨⟩
    decide
  · simpa using (by decide : isStop '\r' = true)

theorem isContinuation_append_return (cs : List Char) :
    isContinuation (cs ++ ['\r']) = isContinuation cs := by
  cases cs with
  | nil => rfl
  | cons c cs =>
    by_cases hc : c = '\\'
    · rw [hc, cons_append, isContinuation, isContinuation, all_append]
      simp [isBlank_return]
    · simp [isContinuation, hc]

theorem scan_append_return (c : Char) (cs : List Char) :
    scan .stock (c :: (cs ++ ['\r'])) = scan .stock (c :: cs) ∨
    (∃ t t', scan .stock (c :: (cs ++ ['\r'])) = .token (.comment t) (cs.length + 2) ∧
      scan .stock (c :: cs) = .token (.comment t') (cs.length + 1)) ∨
    (scan .stock (c :: (cs ++ ['\r'])) = .blanks (cs.length + 2) ∧
      scan .stock (c :: cs) = .blanks (cs.length + 1)) := by
  have hne : c :: cs ≠ [] := by simp
  have hfirm := scanFirm?_append stops_return.parted hne (scanString?_append hne stops_return.quote)
  have hgeneric := scanGeneric?_append hne stops_return.angle
  have hcontinuation := isContinuation_append_return (c :: cs)
  rw [cons_append] at hfirm hgeneric hcontinuation
  simp only [scan, scanSolid?_eq, hfirm, hgeneric, hcontinuation]
  cases scanFirm? (c :: cs) with
  | some x => exact .inl rfl
  | none =>
    by_cases hhash : c = '#'
    · rw [hhash]
      exact .inr (.inl ⟨String.ofList (cs ++ ['\r']), String.ofList cs, by simp [scanComment?],
        by simp [scanComment?]⟩)
    · have hcomment (cs : List Char) : scanComment? (c :: cs) = none := by
        rw [scanComment?]
        simpa using hhash
      have hblanks : (c :: (cs ++ ['\r'])).takeWhile isBlank =
          if ((c :: cs).takeWhile isBlank).length = (c :: cs).length then c :: (cs ++ ['\r'])
          else (c :: cs).takeWhile isBlank := by
        rw [← cons_append, takeWhile_append]
        simp [isBlank_return]
      simp only [hcomment, Option.orElse_eq_orElse, Option.orElse_none, hblanks]
      by_cases hall : ((c :: cs).takeWhile isBlank).length = (c :: cs).length
      · -- the line is blank from here on
        have hne : (c :: cs).takeWhile isBlank ≠ [] := by
          intro hnil
          rw [hnil] at hall
          simp at hall
        refine .inr (.inr ⟨?_, ?_⟩)
        · simp [hall]
        · rw [if_pos hne, hall]
          rfl
      · exact .inl (by simp only [hall, if_false, take_succ_cons, take_zero])

theorem codeOf_scanFrom_append_return (line column skip : Nat) (cs : List Char) :
    codeOf (scanFrom .stock line column skip (cs ++ ['\r'])).1 =
        codeOf (scanFrom .stock line column skip cs).1 ∧
      (scanFrom .stock line column skip (cs ++ ['\r'])).2 =
        (scanFrom .stock line column skip cs).2 := by
  induction cs generalizing column skip with
  | nil =>
    have hreturn : scanFrom .stock line column skip ['\r'] = ([], false) :=
      scanFrom_of_blank (by simp [isBlank_return]) column skip
    simp [hreturn, scanFrom]
  | cons c cs ih =>
    cases skip with
    | succ skip =>
      rw [cons_append, scanFrom, scanFrom]
      exact ih _ _
    | zero =>
      rw [cons_append, scanFrom, scanFrom]
      rcases scan_append_return c cs with hsame | ⟨t, t', h, h'⟩ | ⟨h, h'⟩
      · rw [hsame]
        split
        · exact ⟨rfl, rfl⟩
        · exact ih _ _
        · next lexeme length _ =>
          obtain ⟨htokens, hcontinues⟩ := ih (column + 1) (length - 1)
          refine ⟨?_, hcontinues⟩
          simp only [codeOf] at htokens ⊢
          rw [filter_cons, filter_cons, htokens]
      · rw [h, h']
        simp [scanFrom_of_length_le, codeOf, Token.isKind, Token.kind, Lexeme.kind]
      · rw [h, h']
        simp [scanFrom_of_length_le]

theorem codeOf_of_wholeLine? {number : Nat} {line : Line} {t : Token}
    (h : wholeLine? number line = some t) :
    codeOf (scanBare .stock number line).1 = [] ∧ (scanBare .stock number line).2 = false := by
  obtain ⟨-, hkind⟩ := wholeLine?_kind h
  simp only [scanBare, h, and_true]
  rcases hkind with hkind | hkind <;> simp [codeOf, Token.isKind, hkind]

theorem isSome_wholeLine?_append_return (number : Nat) (line : Line) :
    (wholeLine? number (line ++ ['\r'])).isSome = (wholeLine? number line).isSome := by
  have hskip : skipBlanks (line ++ ['\r']) =
      if (skipBlanks line).isEmpty then [] else skipBlanks line ++ ['\r'] := by
    rw [skipBlanks, dropWhile_append]
    simp [skipBlanks, isBlank_return]
  simp only [wholeLine?, hskip]
  cases skipBlanks line with
  | nil => rfl
  | cons c cs =>
    by_cases hhash : c = '#'
    · simp [hhash]
    · by_cases hat : c = '@'
      · simp [hat]
      · simp [hhash, hat]

theorem scanBare_dropReturn (number : Nat) (line : Line) :
    codeOf (scanBare .stock number (dropReturn line)).1 =
        codeOf (scanBare .stock number line).1 ∧
      (scanBare .stock number (dropReturn line)).2 = (scanBare .stock number line).2 := by
  rw [dropReturn]
  split
  · next hlast =>
    obtain ⟨line, rfl⟩ := getLast?_eq_some_iff.mp hlast
    rw [dropLast_concat]
    have hwhole := isSome_wholeLine?_append_return number line
    cases h : wholeLine? number line with
    | some t =>
      rw [h, Option.isSome_some, Option.isSome_iff_exists] at hwhole
      obtain ⟨t', h'⟩ := hwhole
      obtain ⟨hcode, hcontinues⟩ := codeOf_of_wholeLine? h
      obtain ⟨hcode', hcontinues'⟩ := codeOf_of_wholeLine? h'
      exact ⟨hcode.trans hcode'.symm, hcontinues.trans hcontinues'.symm⟩
    | none =>
      have h' : wholeLine? number (line ++ ['\r']) = none := by
        rw [h] at hwhole
        simpa using hwhole
      obtain ⟨hcode, hcontinues⟩ := codeOf_scanFrom_append_return number 1 0 line
      simp only [scanBare, h, h']
      exact ⟨hcode.symm, hcontinues.symm⟩
  · exact ⟨rfl, rfl⟩

end CommandText
