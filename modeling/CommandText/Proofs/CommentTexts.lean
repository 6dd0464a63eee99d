import CommandText.Proofs.TextRows
import CommandText.Proofs.TokenSpans

/-!
# Comments and notes are single lines

A comment takes the rest of its line, and so does a note. What they say stands on one line of the
text, so it holds no line feed.
-/

namespace CommandText

open List

variable {index : Nat} {pattern : Pattern} {t : Token}

theorem comment_or_word_of_scan {cs : List Char} {lexeme : Lexeme} {length : Nat}
    (h : scan pattern cs = .token lexeme length) :
    (lexeme.kind = .comment → scanComment? cs = some (lexeme, length)) ∧
      (lexeme.kind = .identifier → scanWord? cs = some (lexeme, length)) := by
  cases found_of_scan h with
  | comment h => simp [h, kind_of_scanComment? h]
  | word h => rcases kind_of_scanWord? h with hkind | hkind <;> simp [h, hkind]
  | reference h => simp [kind_of_scanReference? h]
  | float h => simp [kind_of_scanFloat? h]
  | hex h => rcases kind_of_scanHex? h with hkind | hkind <;> simp [hkind]
  | integer h => rcases kind_of_scanInteger? h with hkind | hkind <;> simp [hkind]
  | string h => simp [kind_of_scanString? h]
  | boolean h => simp [kind_of_scanBoolean? h]
  | punct h => simp [kind_of_scanPunct? h]
  | generic _ _ h => simp [kind_of_scanGeneric? h]
  | error => constructor <;> rintro ⟨⟩

/-- A token that is found in some characters, the first of which stands in a column. -/
def Token.FoundIn (pattern : Pattern) (column : Nat) (cs : List Char) (t : Token) : Prop :=
  ∃ pre w rest, cs = pre ++ (w ++ rest) ∧ w ≠ [] ∧
    scan pattern (w ++ rest) = .token t.lexeme w.length ∧
    t.span = some ⟨column + pre.length, column + pre.length + w.length - 1⟩

theorem Token.FoundIn.append {column : Nat} {u cs : List Char}
    (h : t.FoundIn pattern (column + u.length) cs) : t.FoundIn pattern column (u ++ cs) := by
  obtain ⟨pre, w, rest, rfl, hne, hscan, hspan⟩ := h
  refine ⟨u ++ pre, w, rest, (append_assoc ..).symm, hne, hscan, ?_⟩
  rw [hspan, length_append, Nat.add_assoc column]

theorem Walks.foundIn {line column : Nat} {cs : List Char} {tokens : List Token}
    (h : Walks pattern line column cs tokens) (ht : t ∈ tokens) : t.FoundIn pattern column cs := by
  induction h with
  | nil | continuation => cases ht
  | blanks _ _ ih => exact (ih ht).append
  | @token column w cs _ _ hne hscan _ ih =>
    rcases mem_cons.mp ht with rfl | ht
    · exact ⟨[], w, cs, rfl, hne, hscan, rfl⟩
    · exact (ih ht).append

theorem mem_of_mem_text {joined : Bool} {line : Line}
    (ht : t ∈ (scanLine pattern index joined line).tokens)
    (hkind : t.kind = .comment ∨ t.kind = .note) {c : Char} (hc : c ∈ t.text.toList) :
    c ∈ bareLine index line := by
  simp only [scanLine] at ht
  split at ht
  · next u hu =>
    obtain rfl := mem_singleton.mp ht
    have hskip : c ∈ skipBlanks (bareLine index line) := by
      cases joined with
      | true => cases hu
      | false =>
        simp only [wholeLine?, Bool.false_eq_true, if_false] at hu
        split at hu <;> cases hu
        all_goals
          next cs hline =>
          rw [Token.text, Lexeme.text, String.toList_ofList] at hc
          rw [hline]
          exact mem_cons_of_mem _ hc
    exact (dropWhile_suffix isBlank).subset hskip
  · obtain ⟨pre, w, rest, hline, -, hscan, -⟩ := (walks_scanFrom _ _ _ _).foundIn ht
    have hcomment := (comment_or_word_of_scan hscan).1
      (hkind.resolve_right (plain_scan hscan).note)
    refine hline ▸ mem_append_right pre ?_
    unfold scanComment? at hcomment
    split at hcomment
    · next hfound =>
      obtain ⟨htext, -⟩ := Prod.mk.inj (Option.some.inj hcomment)
      rw [Token.text, ← htext, Lexeme.text, String.toList_ofList] at hc
      exact hfound ▸ mem_cons_of_mem _ hc
    · cases hcomment

theorem exists_line_of_mem_assemble {joined pending : Bool} {lines : List Line}
    (ht : t ∈ assemble pending (scanLines pattern index joined lines)) (hkind : t.kind ≠ .newline) :
    ∃ index joined, ∃ line ∈ lines, t ∈ (scanLine pattern index joined line).tokens := by
  induction lines generalizing index joined pending with
  | nil => cases ht
  | cons line lines ih =>
    rw [scanLines, assemble] at ht
    rcases mem_append.mp ht with ht | ht
    · exact ⟨index, joined, line, mem_cons_self, ht⟩
    · have hbehind {pending joined : Bool}
          (ht : t ∈ assemble pending (scanLines pattern (index + 1) joined lines)) :
          ∃ index joined, ∃ l ∈ line :: lines, t ∈ (scanLine pattern index joined l).tokens := by
        obtain ⟨index, joined, l, hl, ht⟩ := ih ht
        exact ⟨index, joined, l, mem_cons_of_mem _ hl, ht⟩
      split at ht
      · exact hbehind ht
      · split at ht
        · rcases mem_cons.mp ht with rfl | ht
          · exact absurd rfl hkind
          · exact hbehind ht
        · exact hbehind ht

theorem mem_of_mem_bareLine {line : Line} {c : Char} (h : c ∈ bareLine index line) : c ∈ line := by
  have hmark (line : Line) (h : c ∈ dropMark line) : c ∈ line := by
    unfold dropMark at h
    split at h
    · exact mem_cons_of_mem _ h
    · exact h
  rw [bareLine] at h
  split at h
  · exact mem_of_mem_dropReturn (hmark _ h)
  · exact mem_of_mem_dropReturn h

theorem not_mem_text_of_mem_tokenize {text : List Char} (ht : t ∈ tokenize pattern text)
    (hkind : t.kind = .comment ∨ t.kind = .note) : '\n' ∉ t.text.toList := by
  intro hc
  have hne : t.kind ≠ .newline := by rcases hkind with hkind | hkind <;> simp [hkind]
  obtain ⟨index, joined, line, hline, ht⟩ := exists_line_of_mem_assemble ht hne
  exact (mem_of_mem_linesOf hline (mem_of_mem_bareLine (mem_of_mem_text ht hkind hc))).2 rfl

end CommandText
