import CommandText.Editor.Context
import CommandText.Proofs.CommentTexts
import CommandText.Proofs.InstantiatedModel

/-!
# What is typed at the end of a line

What is typed at the cursor stands right in front of it. The last token of a line ends with the
line, unless the line ends with blanks or with a continuation. Behind blanks nothing is typed. A
word in front of a continuation counts as typed although it does not end the line.
-/

namespace CommandText

open List

section Words

variable {pattern : Pattern} {line column : Nat} {cs : List Char} {tokens : List Token}

theorem eq_nil_of_blank (h : ∀ c ∈ cs, isBlank c = true)
    (hlast : ∀ c ∈ cs.getLast?, isBlank c = false) : cs = [] := by
  cases hc : cs.getLast? with
  | none => exact getLast?_eq_none_iff.mp hc
  | some c =>
    exact absurd (h c (mem_of_getLast? hc)) (by simp [hlast c hc])

theorem eq_backslash_of_isContinuation (h : isContinuation cs = true)
    (hlast : ∀ c ∈ cs.getLast?, isBlank c = false) : cs = ['\\'] := by
  unfold isContinuation at h
  split at h
  · next rest =>
    have hrest : rest = [] := eq_nil_of_blank (all_eq_true.mp h) fun c hc =>
      hlast c (by rw [getLast?_cons, Option.mem_def.mp hc]; rfl)
    rw [hrest]
  · cases h

theorem Walks.exists_blanks (h : Walks pattern line column cs []) :
    ∃ blanks tail, cs = blanks ++ tail ∧ (∀ c ∈ blanks, isBlank c = true) ∧
      (tail = [] ∨ isContinuation tail = true) := by
  generalize htokens : ([] : List Token) = tokens at h
  induction h with
  | nil => exact ⟨[], [], rfl, forall_mem_nil _, .inl rfl⟩
  | continuation h => exact ⟨[], _, rfl, forall_mem_nil _, .inr h⟩
  | blanks hu _ ih =>
    obtain ⟨blanks, tail, rfl, hblanks, htail⟩ := ih htokens
    exact ⟨_, tail, (append_assoc _ _ _).symm, forall_mem_append.mpr ⟨hu, hblanks⟩, htail⟩
  | token => cases htokens

theorem toList_text_of_scan {w : List Char} {lexeme : Lexeme} (hkind : lexeme.kind = .identifier)
    (h : scan pattern (w ++ cs) = .token lexeme w.length) : lexeme.text.toList = w := by
  have hword := (comment_or_word_of_scan h).2 hkind
  generalize htext : w ++ cs = text at hword
  cases text with
  | nil => cases hword
  | cons c rest =>
    have hprefix : c :: rest.takeWhile isWord <+: w ++ cs :=
      htext ▸ (prefix_cons_inj c).mpr (List.takeWhile_prefix isWord)
    simp only [scanWord?] at hword
    split at hword
    · split at hword <;> obtain ⟨rfl, hlength⟩ := Prod.mk.inj (Option.some.inj hword)
      · cases hkind
      · rw [Lexeme.text, String.toList_ofList, prefix_iff_eq_take.mp hprefix, hlength,
          take_left]
    · cases hword

theorem Walks.exists_word {t : Token} (ht : t.kind = .identifier) {front : List Token}
    (h : Walks pattern line column cs (front ++ [t])) :
    ∃ before after column, cs = before ++ (t.text.toList ++ after) ∧
      Walks pattern line column after [] := by
  generalize htokens : front ++ [t] = tokens at h
  induction h generalizing front with
  | nil | continuation => simp at htokens
  | @blanks _ u _ _ _ _ ih =>
    obtain ⟨before, after, column, rfl, hafter⟩ := ih htokens
    exact ⟨u ++ before, after, column, (append_assoc _ _ _).symm, hafter⟩
  | @token _ w cs lexeme _ _ hscan h ih =>
    cases front with
    | nil =>
      obtain ⟨rfl, rfl⟩ := cons.inj htokens
      exact ⟨[], cs, _, by rw [Token.text, toList_text_of_scan ht hscan, nil_append], h⟩
    | cons u front =>
      obtain ⟨before, after, column, rfl, hafter⟩ := ih (cons.inj htokens).2
      exact ⟨w ++ before, after, column, (append_assoc _ _ _).symm, hafter⟩

end Words

/-! ### At the cursor -/

/-- A line ends with a text, or with the text and a continuation. -/
def EndsTyped (line : Line) (typed : List Char) : Prop :=
  typed <:+ line ∨ ∃ blanks, (∀ c ∈ blanks, isBlank c = true) ∧ typed ++ blanks ++ ['\\'] <:+ line

section Typed

variable {pattern : Pattern} {above : List Line} {line : Line} {typed : List Char}

theorem EndsTyped.length_le (h : EndsTyped line typed) : typed.length ≤ line.length := by
  rcases h with h | ⟨blanks, -, h⟩
  · exact h.length_le
  · have hlength := h.length_le
    rw [append_assoc, length_append] at hlength
    exact (Nat.le_add_right _ _).trans hlength

theorem endsTyped_nil (line : Line) : EndsTyped line [] := .inl nil_suffix

theorem bareLine_suffix (hlast : ∀ c ∈ line.getLast?, isBlank c = false) :
    bareLine 0 line <:+ line := by
  have hreturn : dropReturn line = line := by
    rw [dropReturn, if_neg]
    intro hreturn
    exact absurd (hlast _ hreturn) (by rw [isBlank_return]; decide)
  rw [bareLine, if_pos rfl, hreturn]
  unfold dropMark
  split
  · exact suffix_cons _ _
  · exact suffix_refl _

theorem endsTyped_word (hfeed : '\n' ∉ line) {t : Token}
    (hlast : (lineTokens pattern line).getLast? = some t) (ht : t.isKind .identifier = true)
    (hblank : endsBlank line = false) : EndsTyped line t.text.toList := by
  obtain ⟨front, htokens⟩ := getLast?_eq_some_iff.mp hlast
  have hlast : ∀ c ∈ line.getLast?, isBlank c = false := by
    intro c hc
    rw [endsBlank, Option.mem_def.mp hc] at hblank
    exact hblank
  obtain ⟨mark, hmark⟩ := bareLine_suffix hlast
  have hwalks : Walks pattern 1 1 (bareLine 0 line) (front ++ [t]) := by
    rw [lineTokens_eq pattern hfeed, scanBare] at htokens
    split at htokens
    · next whole hwhole =>
      obtain rfl : t = whole := by
        simpa using congrArg getLast? htokens.symm
      obtain ⟨-, hkind⟩ := wholeLine?_kind hwhole
      simp [Token.isKind_iff.mp ht] at hkind
    · exact htokens ▸ walks_scanFrom pattern 1 1 (bareLine 0 line)
  obtain ⟨before, after, _, hbare, hafter⟩ := hwalks.exists_word (Token.isKind_iff.mp ht)
  obtain ⟨blanks, tail, rfl, hblanks, htail⟩ := hafter.exists_blanks
  rw [hbare] at hmark
  rcases htail with rfl | htail
  · obtain rfl : blanks = [] := eq_nil_of_blank hblanks fun c hc => hlast c (by
      rw [← hmark]
      simp [getLast?_append, Option.mem_def.mp hc])
    exact .inl ⟨mark ++ before, by simpa using hmark⟩
  · obtain rfl : tail = ['\\'] := eq_backslash_of_isContinuation htail fun c hc => hlast c (by
      rw [← hmark]
      simp [getLast?_append, Option.mem_def.mp hc])
    exact .inr ⟨blanks, hblanks, mark ++ before, by simpa using hmark⟩

theorem endsTyped_splitTyped (line : Line) (arguments : List Token) :
    EndsTyped line (splitTyped line arguments).1 := by
  rw [splitTyped]
  split
  · split
    · exact .inl (drop_suffix _ _)
    · exact endsTyped_nil line
  · exact endsTyped_nil line

theorem endsTyped_outlineAtEnd? (hfeed : '\n' ∉ line) {problem : Option CursorProblem}
    {flags : CursorFlags} {o : Outline}
    (h : outlineAtEnd? pattern above line problem flags = some o) : EndsTyped line o.typed := by
  have hoff (h : Outline.offPath? above = some o) : EndsTyped line o.typed := by
    rw [Outline.offPath?] at h
    split at h <;> cases h
    exact endsTyped_nil line
  rw [outlineAtEnd?] at h
  simp only at h
  split at h
  · cases h
  · split at h
    · split at h <;> cases h <;> exact endsTyped_nil line
    · next first rest htokens =>
      split at h
      · next hkind =>
        split at h <;> cases h
        · next hword =>
          obtain ⟨hrest, hblank⟩ := Bool.and_eq_true_iff.mp hword
          rw [isEmpty_iff.mp hrest] at htokens
          exact endsTyped_word hfeed (congrArg getLast? htokens) (Token.isKind_iff.mpr hkind)
            (by simpa using hblank)
        · exact endsTyped_splitTyped line _
      · cases h
        exact endsTyped_nil line
      · next second more _ =>
        split at h
        · cases h
          exact endsTyped_nil line
        · split at h
          · next hkind =>
            split at h <;> cases h
            · next hword =>
              obtain ⟨hmore, hblank⟩ := Bool.and_eq_true_iff.mp hword
              rw [isEmpty_iff.mp hmore] at htokens
              exact endsTyped_word hfeed (congrArg getLast? htokens) hkind
                (by simpa using hblank)
            · exact endsTyped_splitTyped line _
          · exact hoff h
      · exact hoff h

theorem not_mem_dropOpenBrace? {c : Char} (h : c ∉ line) : c ∉ (dropOpenBrace? line).getD line := by
  rw [dropOpenBrace?]
  split
  · next rest hrest =>
    intro hc
    have hskip : rest ⊆ line.reverse := fun a ha =>
      (dropWhile_suffix isBlank).subset (show a ∈ skipBlanks line.reverse from hrest ▸ .tail _ ha)
    exact h (mem_reverse.mp (hskip (mem_reverse.mp hc)))
  · exact h

end Typed

/-- The line in front of a cursor, without an opening brace and the blanks behind that, ends with
what is typed there, or with that and a continuation. -/
theorem typed_ends_line {s : Schema} (above : List Line) {last : Line} (hfeed : '\n' ∉ last)
    {column : Option Nat} {context : Context}
    (h : context? s (above ++ [last]) column = some context) :
    let line := last.take (cutAt column last)
    let line := (dropOpenBrace? line).getD line
    context.typed.length ≤ line.length ∧
      (context.typed <:+ line ∨ ∃ blanks, (∀ c ∈ blanks, isBlank c = true) ∧
        context.typed ++ blanks ++ ['\\'] <:+ line) := by
  obtain ⟨o, ho, rfl⟩ := Option.map_eq_some_iff.mp h
  have hcut : '\n' ∉ last.take (cutAt column last) := fun hmem => hfeed (mem_of_mem_take hmem)
  have hline := not_mem_dropOpenBrace? hcut
  rw [outline?, getLast?_concat, dropLast_concat] at ho
  simp only at ho hline ⊢
  have hends : EndsTyped ((dropOpenBrace? (last.take (cutAt column last))).getD
      (last.take (cutAt column last))) o.typed := by
    split at ho
    · next line hbrace =>
      rw [hbrace] at hline ⊢
      exact endsTyped_outlineAtEnd? hline ho
    · next hbrace =>
      rw [hbrace] at hline ⊢
      exact endsTyped_outlineAtEnd? hline ho
  exact ⟨hends.length_le, hends⟩

/-- The command word of a line that nothing follows is typed. -/
theorem typed_ends_line_box : ∃ s, boxes.build = .ok s ∧
    ∃ context, context? s ["  Box \x7b".toList] (some 6) = some context ∧
      context.typed = "Box".toList ∧ context.typed <:+ "  Box".toList := by
  obtain ⟨s, hs, hcontext⟩ : ∃ s, boxes.build = .ok s ∧
      (context? s ["  Box \x7b".toList] (some 6)).any (fun context =>
        context.typed = "Box".toList) = true := ⟨_, rfl, by decide +kernel⟩
  obtain ⟨context, hcontext, htyped⟩ := (Option.any_eq_true _ _).mp hcontext
  refine ⟨s, hs, context, hcontext, of_decide_eq_true htyped, ?_⟩
  rcases (typed_ends_line [] (by decide) hcontext).2 with h | ⟨blanks, -, front, hfront⟩
  · exact h
  · have hlast := congrArg getLast? hfront
    rw [← append_assoc, getLast?_concat] at hlast
    exact absurd hlast (by decide)

/-- With a continuation behind it, the word is typed although the line does not end with it. -/
theorem typed_before_continuation : ∃ s, boxes.build = .ok s ∧
    ∃ context, context? s ["Box\\".toList] none = some context ∧
      context.typed = "Box".toList ∧ ¬ context.typed <:+ "Box\\".toList := by
  obtain ⟨s, hs, hcontext⟩ : ∃ s, boxes.build = .ok s ∧
      (context? s ["Box\\".toList] none).any (fun context =>
        context.typed = "Box".toList) = true := ⟨_, rfl, by decide +kernel⟩
  obtain ⟨context, hcontext, htyped⟩ := (Option.any_eq_true _ _).mp hcontext
  replace htyped := of_decide_eq_true htyped
  exact ⟨s, hs, context, hcontext, htyped, htyped ▸ by decide⟩

end CommandText
