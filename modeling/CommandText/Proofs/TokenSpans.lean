import CommandText.Proofs.ScannedLine
import Mathlib.Data.List.Chain

/-!
# The characters of a text and its tokens

Every character of a text belongs to one token, is blank, or belongs to a continuation at the end of
its line. The tokens of a line stand side by side, whatever the reference pattern is: a match never
reaches beyond the end of the line, and the scanner goes on right behind it.
-/

namespace CommandText

open List Token

variable {lexeme : Lexeme} {length : Nat} {pattern : Pattern} {tokens : List Token} {cs : List Char}
variable {t : Token}

/-! ### References -/

section Search

variable {p : Pattern} {m : Pattern.Match}
variable {offset : Nat} {found : Option Match}

theorem Pattern.stop_le_of_complete (hfound : ∀ m ∈ found, m.stop ≤ offset)
    (complete : Option Nat) :
    ∀ m ∈ (complete.map fun start => (⟨start, offset⟩ : Match)).or found, m.stop ≤ offset := by
  cases complete with
  | none => exact hfound
  | some start =>
    rintro _ ⟨⟩
    exact Nat.le_refl offset

theorem Pattern.stop_le_of_search {before : Option Char} {f : Frontier} {rest : List Char}
    (hfound : ∀ m ∈ found, m.stop ≤ offset) (h : p.search found offset before f rest = some m) :
    m.stop ≤ offset + rest.length := by
  induction rest generalizing found offset before f with
  | nil =>
    rw [search] at h
    exact stop_le_of_complete hfound _ m h
  | cons c rest ih =>
    rw [search] at h
    generalize (if found.isNone && (offset == 0 || !p.atStart) then
      p.enter ⟨offset, before, c :: rest⟩ offset p.first f else f) = g at h
    have hfound' := stop_le_of_complete hfound g.complete
    split at h
    · exact Nat.le_add_right_of_le (hfound' m h)
    · have hle := ih (fun m hm => Nat.le_succ_of_le (hfound' m hm)) h
      rw [length_cons]
      omega

theorem Pattern.stop_le_of_find? {text : List Char} (h : p.find? text = some m) :
    m.stop ≤ text.length := by
  have hle := stop_le_of_search (by simp) h
  rwa [Nat.zero_add] at hle

end Search

theorem length_of_scan_token (hne : cs ≠ []) (h : scan pattern cs = .token lexeme length) :
    0 < length ∧ length ≤ cs.length := by
  rcases scanReference?_or_placed hne h with href | hplaced
  · rw [scanReference?] at href
    split at href
    · next m hm =>
      split at href
      · next hlt =>
        cases href
        exact ⟨Nat.zero_lt_of_lt hlt, Pattern.stop_le_of_find? hm⟩
      · cases href
    · cases href
  · exact ⟨hplaced.pos, hplaced.le⟩

/-! ### One line -/

theorem scanFrom_blanks {line column : Nat} {u : List Char} (hne : u ≠ [])
    (h : scan pattern (u ++ cs) = .blanks u.length) : scanFrom pattern line column 0 (u ++ cs) =
      scanFrom pattern line (column + u.length) 0 cs := by
  cases u with
  | nil => exact absurd rfl hne
  | cons c u =>
    rw [cons_append] at h ⊢
    rw [scanFrom, h]
    simp only [length_cons, Nat.add_sub_cancel, scanFrom_skip]
    rw [show column + 1 + u.length = column + (u.length + 1) by omega]

/-- A line from a column on, with the tokens that are found there under a pattern. -/
inductive Walks (pattern : Pattern) (line : Nat) : Nat → List Char → List Token → Prop
  | nil {column : Nat} : Walks pattern line column [] []
  | continuation {column : Nat} {cs : List Char} (h : isContinuation cs = true) :
      Walks pattern line column cs []
  | blanks {column : Nat} {u cs : List Char} {tokens : List Token}
      (hu : ∀ c ∈ u, isBlank c = true) (h : Walks pattern line (column + u.length) cs tokens) :
      Walks pattern line column (u ++ cs) tokens
  | token {column : Nat} {w cs : List Char} {lexeme : Lexeme} {tokens : List Token} (hne : w ≠ [])
      (hscan : scan pattern (w ++ cs) = .token lexeme w.length)
      (h : Walks pattern line (column + w.length) cs tokens) :
      Walks pattern line column (w ++ cs)
        (⟨lexeme, line, some ⟨column, column + w.length - 1⟩⟩ :: tokens)

theorem walks_scanFrom (pattern : Pattern) (line column : Nat) (cs : List Char) :
    Walks pattern line column cs (scanFrom pattern line column 0 cs).1 := by
  induction hlength : cs.length using Nat.strongRecOn generalizing column cs with
  | ind n ih =>
    cases cs with
    | nil =>
      rw [scanFrom]
      exact .nil
    | cons c cs =>
      cases hscan : scan pattern (c :: cs) with
      | continuation =>
        rw [scanFrom, hscan]
        exact .continuation (isContinuation_of_scan hscan)
      | blanks length =>
        obtain ⟨hrun, hpos⟩ := length_of_scan_blanks hscan
        have hall := all_eq_true.mp (all_takeWhile (p := isBlank) (l := c :: cs))
        have hcs := takeWhile_append_dropWhile (p := isBlank) (l := c :: cs)
        generalize (c :: cs).takeWhile isBlank = u at hrun hall hcs
        generalize (c :: cs).dropWhile isBlank = rest at hcs
        subst hrun
        rw [← hcs] at hscan hlength ⊢
        rw [scanFrom_blanks (length_pos_iff.mp hpos) hscan]
        rw [length_append] at hlength
        exact .blanks hall (ih rest.length (by omega) _ _ rfl)
      | token lexeme length =>
        obtain ⟨hpos, hle⟩ := length_of_scan_token (by simp) hscan
        obtain ⟨w, rest, hw, rfl⟩ : ∃ w rest, c :: cs = w ++ rest ∧ length = w.length :=
          ⟨_, _, (take_append_drop length _).symm, (length_take_of_le hle).symm⟩
        have hne : w ≠ [] := length_pos_iff.mp hpos
        rw [hw] at hscan hlength ⊢
        rw [scanFrom_token hne hscan]
        rw [length_append] at hlength
        exact .token hne hscan (ih rest.length (by omega) _ _ rfl)

/-- The tokens of a line from a column on. Blanks stand between them, and behind them a continuation
may stand. -/
inductive FillsLine (line : Nat) : Nat → List Char → List Token → Prop
  | nil {column : Nat} : FillsLine line column [] []
  | continuation {column : Nat} {cs : List Char} (h : isContinuation cs = true) :
      FillsLine line column cs []
  | blank {column : Nat} {c : Char} {cs : List Char} {tokens : List Token}
      (hc : isBlank c = true) (h : FillsLine line (column + 1) cs tokens) :
      FillsLine line column (c :: cs) tokens
  | token {column : Nat} {w cs : List Char} {lexeme : Lexeme} {tokens : List Token} (hne : w ≠ [])
      (hkind : lexeme.kind ≠ .newline) (h : FillsLine line (column + w.length) cs tokens) :
      FillsLine line column (w ++ cs)
        (⟨lexeme, line, some ⟨column, column + w.length - 1⟩⟩ :: tokens)

/-- A place of a line that no token has to cover: a blank, or a place in a continuation at the end
of the line. -/
def IsGap (cs : Line) (k : Nat) : Prop :=
  (∃ c, cs[k]? = some c ∧ isBlank c = true) ∨ ∃ j ≤ k, isContinuation (cs.drop j) = true

theorem IsGap.append {cs : Line} {k : Nat} (h : IsGap cs k) (front : List Char) :
    IsGap (front ++ cs) (front.length + k) := by
  rcases h with ⟨c, hc, hblank⟩ | ⟨j, hj, hcontinuation⟩
  · refine .inl ⟨c, ?_, hblank⟩
    rwa [getElem?_append_right (Nat.le_add_right _ _), Nat.add_sub_cancel_left]
  · refine .inr ⟨front.length + j, by omega, ?_⟩
    rwa [drop_length_add_append]

section FillsLine

variable {line column : Nat}
variable {k number : Nat}

theorem FillsLine.blanks {u : List Char} (hu : ∀ c ∈ u, isBlank c = true)
    (h : FillsLine line (column + u.length) cs tokens) :
    FillsLine line column (u ++ cs) tokens := by
  induction u generalizing column with
  | nil => exact h
  | cons c u ih =>
    obtain ⟨hc, hu⟩ := forall_mem_cons.mp hu
    refine .blank hc (ih hu ?_)
    rwa [Nat.add_assoc, Nat.add_comm 1]

theorem fillsLine_scanFrom (pattern : Pattern) (line column : Nat) (cs : List Char) :
    FillsLine line column cs (scanFrom pattern line column 0 cs).1 := by
  have hwalks := walks_scanFrom pattern line column cs
  generalize (scanFrom pattern line column 0 cs).1 = tokens at hwalks ⊢
  induction hwalks with
  | nil => exact .nil
  | continuation h => exact .continuation h
  | blanks hu _ ih => exact .blanks hu ih
  | token hne hscan _ ih => exact .token hne (plain_scan hscan).newline ih

theorem eq_of_wholeLine? {line : Line} (h : wholeLine? number line = some t) :
    skipBlanks line ≠ [] ∧ t.line = number ∧
      t.span = some ⟨(line.takeWhile isBlank).length + 1, line.length⟩ := by
  simp only [wholeLine?] at h
  split at h
  · next hskip =>
    cases h
    exact ⟨by simp [hskip], rfl, rfl⟩
  · next hskip =>
    cases h
    exact ⟨by simp [hskip], rfl, rfl⟩
  · cases h

theorem fillsLine_wholeLine? {line : Line} (h : wholeLine? number line = some t) :
    FillsLine number 1 line [t] := by
  have hkind : t.lexeme.kind ≠ .newline := by
    rcases (wholeLine?_kind h).2 with hkind | hkind <;> rw [Token.kind] at hkind <;> simp [hkind]
  have hall := all_eq_true.mp (all_takeWhile (p := isBlank) (l := line))
  have hline : line.takeWhile isBlank ++ skipBlanks line = line := takeWhile_append_dropWhile
  obtain ⟨hne, hnumber, hspan⟩ := eq_of_wholeLine? h
  have hpos := length_pos_iff.mpr hne
  have hlength := congrArg List.length hline
  rw [length_append] at hlength
  have htoken : FillsLine number (1 + (line.takeWhile isBlank).length) (skipBlanks line ++ [])
      [⟨t.lexeme, number, some ⟨_, _⟩⟩] := .token hne hkind .nil
  have hfills := FillsLine.blanks hall htoken
  rw [append_nil, hline] at hfills
  obtain ⟨lexeme, number', span⟩ := t
  obtain rfl : number' = number := hnumber
  obtain rfl : span = some ⟨(line.takeWhile isBlank).length + 1, line.length⟩ := hspan
  rwa [Nat.add_comm 1, show (line.takeWhile isBlank).length + 1 + (skipBlanks line).length - 1 =
    line.length by omega] at hfills

theorem fillsLine_scanLine (pattern : Pattern) (index : Nat) (joined : Bool) (line : Line) :
    FillsLine (index + 1) 1 (bareLine index line) (scanLine pattern index joined line).tokens := by
  simp only [scanLine]
  split
  · next t ht =>
    cases joined with
    | true => cases ht
    | false => exact fillsLine_wholeLine? ht
  · exact fillsLine_scanFrom pattern _ _ _

section

variable (h : FillsLine line column cs tokens)
include h

theorem FillsLine.exists_span (ht : t ∈ tokens) :
    t.line = line ∧ t.kind ≠ .newline ∧
      ∃ a, t.span = some a ∧ column ≤ a.first ∧ a.first ≤ a.last ∧ a.last < column + cs.length := by
  induction h with
  | nil | continuation => cases ht
  | blank hc _ ih =>
    obtain ⟨hline, hkind, a, ha, hfirst, hle, hlast⟩ := ih ht
    rw [length_cons]
    exact ⟨hline, hkind, a, ha, by omega, hle, by omega⟩
  | @token column w cs lexeme tokens hne hkind _ ih =>
    have hpos := length_pos_iff.mpr hne
    rw [length_append]
    rcases mem_cons.mp ht with rfl | ht
    · refine ⟨rfl, hkind, _, rfl, Nat.le_refl _, ?_, ?_⟩ <;> dsimp only <;> omega
    · obtain ⟨hline, hkind, a, ha, hfirst, hle, hlast⟩ := ih ht
      exact ⟨hline, hkind, a, ha, by omega, hle, by omega⟩

theorem FillsLine.pairwise :
    tokens.Pairwise fun t u => ∀ a ∈ t.span, ∀ b ∈ u.span, a.last < b.first := by
  induction h with
  | nil | continuation => exact .nil
  | blank _ _ ih => exact ih
  | @token column w cs lexeme tokens hne _ hrest ih =>
    refine .cons ?_ ih
    rintro u hu _ ⟨⟩ b hb
    obtain ⟨-, -, b', hb', hfirst, -⟩ := hrest.exists_span hu
    obtain rfl : b' = b := Option.some.inj (hb'.symm.trans hb)
    have hpos := length_pos_iff.mpr hne
    show column + w.length - 1 < b'.first
    omega

theorem FillsLine.countP_of_lt (hk : k < column) : tokens.countP (·.covers k) = 0 := by
  rw [countP_eq_zero]
  intro t ht
  obtain ⟨-, -, a, ha, hfirst, -⟩ := h.exists_span ht
  simp only [Token.covers, ha, Bool.and_eq_true, decide_eq_true_eq]
  omega

theorem FillsLine.countP_covers (hk : k < cs.length) :
    tokens.countP (·.covers (column + k)) = 1 ∨
      tokens.countP (·.covers (column + k)) = 0 ∧ IsGap cs k := by
  induction h generalizing k with
  | nil => cases hk
  | continuation h => exact .inr ⟨rfl, .inr ⟨0, Nat.zero_le k, h⟩⟩
  | @blank column c cs tokens hc hrest ih =>
    cases k with
    | zero => exact .inr ⟨hrest.countP_of_lt (Nat.lt_succ_self _), .inl ⟨c, rfl, hc⟩⟩
    | succ k =>
      have hk := ih (Nat.lt_of_succ_lt_succ hk)
      rw [show column + 1 + k = column + (k + 1) by omega] at hk
      refine hk.imp_right (And.imp_right fun hgap => ?_)
      have hgap := hgap.append [c]
      rwa [length_singleton, Nat.add_comm] at hgap
  | @token column w cs lexeme tokens hne _ hrest ih =>
    have hpos := length_pos_iff.mpr hne
    by_cases hw : k < w.length
    · -- the place is in the first token
      refine .inl ?_
      rw [countP_cons, hrest.countP_of_lt (by omega)]
      have hfirst : Token.covers ⟨lexeme, line, some ⟨column, column + w.length - 1⟩⟩
          (column + k) = true := by
        simp only [Token.covers, Bool.and_eq_true, decide_eq_true_eq]
        omega
      rw [if_pos hfirst]
    · -- the place is behind the first token
      obtain ⟨k, rfl⟩ := Nat.exists_eq_add_of_le (Nat.le_of_not_lt hw)
      rw [length_append] at hk
      have hk : k < cs.length := by omega
      have hfirst : ¬ Token.covers ⟨lexeme, line, some ⟨column, column + w.length - 1⟩⟩
          (column + (w.length + k)) = true := by
        simp only [Token.covers, Bool.and_eq_true, decide_eq_true_eq]
        omega
      rw [countP_cons, if_neg hfirst, Nat.add_zero, ← Nat.add_assoc]
      exact (ih hk).imp_right (And.imp_right fun hgap => hgap.append w)

end

end FillsLine

/-! ### All lines -/

/-- The tokens of the lines from an index on. `pending` says that a run of tokens is open: only then
it may end. -/
inductive FillsLines : Nat → Bool → List Line → List Token → Prop
  | nil {index : Nat} {pending : Bool} : FillsLines index pending [] []
  | line {index : Nat} {pending pending' : Bool} {line : Line} {lines : List Line}
      {tokens more : List Token} (hline : FillsLine (index + 1) 1 line tokens)
      (hrun : pending' = true → pending = true ∨ tokens ≠ [])
      (h : FillsLines (index + 1) pending' lines more) :
      FillsLines index pending (line :: lines) (tokens ++ more)
  | newline {index : Nat} {lines : List Line} {more : List Token}
      (h : FillsLines index false lines more) :
      FillsLines index true lines (⟨.newline, index, none⟩ :: more)

theorem number_scanLine (pattern : Pattern) (index : Nat) (joined : Bool) (line : Line) :
    (scanLine pattern index joined line).number = index + 1 := by
  simp only [scanLine]
  split <;> rfl

/-- The tokens of a text stand in its lines. -/
theorem fillsLines_scanLines (pattern : Pattern) (index : Nat) (joined pending : Bool)
    (lines : List Line) :
    FillsLines index pending (lines.mapIdx fun i => bareLine (index + i))
      (assemble pending (scanLines pattern index joined lines)) := by
  induction lines generalizing index joined pending with
  | nil => exact .nil
  | cons line lines ih =>
    have hshift : (fun i => bareLine (index + (i + 1))) = fun i => bareLine (index + 1 + i) := by
      funext i
      rw [Nat.add_assoc, Nat.add_comm 1]
    have hline := fillsLine_scanLine pattern index joined line
    rw [mapIdx_cons, hshift, scanLines, assemble, number_scanLine]
    generalize scanLine pattern index joined line = scanned at hline ⊢
    have hrun : (pending || !scanned.tokens.isEmpty) = true →
        pending = true ∨ scanned.tokens ≠ [] := by simp
    split
    · exact .line hline hrun (ih _ _ _)
    · split
      · next hpending => exact .line hline (fun _ => hrun hpending) (.newline (ih _ _ _))
      · exact .line hline (fun h => by cases h) (ih _ _ _)

/-- Whether a token stands at a place of the text. -/
def Token.standsAt (t : Token) (line column : Nat) : Bool := t.line == line && t.covers column

section FillsLines

variable {index : Nat} {pending : Bool} {lines : List Line}
variable {k number : Nat}

section

variable (h : FillsLines index pending lines tokens)
include h

theorem FillsLines.le_line (ht : t ∈ tokens) : index ≤ t.line := by
  induction h with
  | nil => cases ht
  | line hline _ _ ih =>
    rcases mem_append.mp ht with ht | ht
    · rw [(hline.exists_span ht).1]
      exact Nat.le_succ _
    · exact Nat.le_of_succ_le (ih ht)
  | newline _ ih =>
    rcases mem_cons.mp ht with rfl | ht
    · exact Nat.le_refl _
    · exact ih ht

theorem FillsLines.span_eq_none_iff (ht : t ∈ tokens) : t.span = none ↔ t.kind = .newline := by
  induction h with
  | nil => cases ht
  | line hline _ _ ih =>
    rcases mem_append.mp ht with ht | ht
    · obtain ⟨-, hkind, a, ha, -⟩ := hline.exists_span ht
      simp [ha, hkind]
    · exact ih ht
  | newline _ ih =>
    rcases mem_cons.mp ht with rfl | ht
    · exact ⟨fun _ => rfl, fun _ => rfl⟩
    · exact ih ht

theorem FillsLines.exists_line {a : Span} (ht : t ∈ tokens) (ha : t.span = some a) :
    ∃ i line, t.line = index + i + 1 ∧ lines[i]? = some line ∧
      1 ≤ a.first ∧ a.first ≤ a.last ∧ a.last ≤ line.length := by
  induction h with
  | nil => cases ht
  | @line index _ _ line _ _ _ hline _ _ ih =>
    rcases mem_append.mp ht with ht | ht
    · obtain ⟨hnumber, -, b, hb, hfirst, hle, hlast⟩ := hline.exists_span ht
      obtain rfl : b = a := Option.some.inj (hb.symm.trans ha)
      exact ⟨0, line, hnumber, rfl, hfirst, hle, by omega⟩
    · obtain ⟨i, line, hnumber, hi, hspan⟩ := ih ht
      exact ⟨i + 1, line, by omega, hi, hspan⟩
  | newline _ ih =>
    rcases mem_cons.mp ht with rfl | ht
    · cases ha
    · exact ih ht

theorem FillsLines.sorted : tokens.Pairwise fun t u => t.line ≤ u.line := by
  induction h with
  | nil => exact .nil
  | line hline _ hmore ih =>
    refine pairwise_append.mpr ⟨?_, ih, fun t ht u hu => ?_⟩
    · refine hline.pairwise.imp_of_mem fun ht hu _ => ?_
      rw [(hline.exists_span ht).1, (hline.exists_span hu).1]
    · rw [(hline.exists_span ht).1]
      exact hmore.le_line hu
  | newline hmore ih => exact .cons (fun _ => hmore.le_line) ih

theorem FillsLines.apart :
    tokens.Pairwise fun t u => t.line = u.line → ∀ a ∈ t.span, ∀ b ∈ u.span, a.last < b.first := by
  induction h with
  | nil => exact .nil
  | line hline _ hmore ih =>
    refine pairwise_append.mpr ⟨hline.pairwise.imp ?_, ih, ?_⟩
    · intro t u hspans _
      exact hspans
    · -- a token of a later line is not on this one
      intro t ht u hu htu a _ b hb
      obtain ⟨i, _, hu, -⟩ := hmore.exists_line hu hb
      rw [(hline.exists_span ht).1, hu] at htu
      omega
  | newline _ ih => exact .cons (fun _ _ _ _ ha => by cases ha) ih

theorem FillsLines.head (hpending : pending = false) : ∀ t ∈ tokens.head?, t.kind ≠ .newline := by
  induction h with
  | nil => simp
  | @line _ pending pending' _ _ tokens more hline hrun _ ih =>
    cases tokens with
    | nil =>
      refine ih (Bool.eq_false_iff.mpr fun hpending' => ?_)
      rcases hrun hpending' with hopen | hne
      · rw [hpending] at hopen
        cases hopen
      · exact hne rfl
    | cons t tokens =>
      rintro _ ⟨⟩
      exact (hline.exists_span mem_cons_self).2.1
  | newline => cases hpending

theorem FillsLines.newlines : tokens.IsChain fun t u => t.kind = .newline → u.kind ≠ .newline := by
  induction h with
  | nil => exact .nil
  | line hline _ _ ih =>
    refine isChain_append.mpr ⟨?_, ih, fun t ht _ _ hkind => ?_⟩
    · exact (hline.pairwise.imp_of_mem fun ht _ _ hkind =>
        absurd hkind (hline.exists_span ht).2.1).isChain
    · exact absurd hkind (hline.exists_span (mem_of_getLast? ht)).2.1
  | newline hmore ih =>
    refine isChain_cons.mpr ⟨fun u hu _ => hmore.head rfl u hu, ih⟩

end

theorem FillsLine.countP_standsAt {column : Nat} (h : FillsLine number column cs tokens)
    (number' : Nat) : tokens.countP (·.standsAt number' k) =
      if number' = number then tokens.countP (·.covers k) else 0 := by
  split
  · next hnumber =>
    refine countP_congr fun t ht => ?_
    rw [standsAt, (h.exists_span ht).1, hnumber, beq_self_eq_true, Bool.true_and]
  · next hnumber =>
    refine countP_eq_zero.mpr fun t ht => ?_
    simp [standsAt, (h.exists_span ht).1, Ne.symm hnumber]

theorem FillsLines.countP_of_le (h : FillsLines index pending lines tokens)
    (hnumber : number ≤ index) : tokens.countP (·.standsAt number k) = 0 := by
  refine countP_eq_zero.mpr fun t ht hat => ?_
  rw [standsAt, Bool.and_eq_true, beq_iff_eq, Token.covers] at hat
  obtain ⟨hline, hcovers⟩ := hat
  cases ha : t.span with
  | none => simp [ha] at hcovers
  | some a =>
    obtain ⟨i, _, hline', -⟩ := h.exists_line ht ha
    omega

theorem FillsLines.countP_standsAt (h : FillsLines index pending lines tokens) {i : Nat}
    {line : Line} (hi : lines[i]? = some line) (hk : k < line.length) :
    tokens.countP (·.standsAt (index + i + 1) (k + 1)) = 1 ∨
      tokens.countP (·.standsAt (index + i + 1) (k + 1)) = 0 ∧ IsGap line k := by
  induction h generalizing i with
  | nil => cases hi
  | line hline _ hmore ih =>
    rw [countP_append, hline.countP_standsAt]
    cases i with
    | zero =>
      obtain rfl := Option.some.inj hi
      rw [hmore.countP_of_le (Nat.le_refl _), if_pos rfl, Nat.add_zero, Nat.add_comm k]
      exact hline.countP_covers hk
    | succ i =>
      rw [if_neg (by omega), Nat.zero_add, Nat.add_comm i, ← Nat.add_assoc]
      exact ih hi
  | newline _ ih =>
    rw [countP_cons_of_neg (by simp [standsAt, Token.covers])]
    exact ih hi

end FillsLines

/-- Tokens that account for all characters of some lines. -/
structure Accounts (lines : List Line) (tokens : List Token) : Prop where
  sorted : tokens.Pairwise fun t u => t.line ≤ u.line
  /-- Only line ends have no columns. -/
  span_eq_none_iff : ∀ t ∈ tokens, t.span = none ↔ t.kind = .newline
  within : ∀ t ∈ tokens, ∀ a, t.span = some a → ∃ i line, t.line = i + 1 ∧ lines[i]? = some line ∧
    1 ≤ a.first ∧ a.first ≤ a.last ∧ a.last ≤ line.length
  apart : tokens.Pairwise fun t u =>
    t.line = u.line → ∀ a ∈ t.span, ∀ b ∈ u.span, a.last < b.first
  head : ∀ t ∈ tokens.head?, t.kind ≠ .newline
  newlines : tokens.IsChain fun t u => t.kind = .newline → u.kind ≠ .newline
  /-- A place that no token covers is a gap. -/
  covered : ∀ i line, lines[i]? = some line → ∀ k < line.length,
    tokens.countP (·.standsAt (i + 1) (k + 1)) = 1 ∨
      tokens.countP (·.standsAt (i + 1) (k + 1)) = 0 ∧ IsGap line k

/-- The tokens of a text account for its characters. -/
theorem accounts_tokenize (pattern : Pattern) (text : List Char) :
    Accounts ((linesOf text).mapIdx bareLine) (tokenize pattern text) := by
  have hfills : FillsLines 0 false ((linesOf text).mapIdx bareLine) (tokenize pattern text) := by
    have hlines := fillsLines_scanLines pattern 0 false false (linesOf text)
    simp only [Nat.zero_add] at hlines
    exact hlines
  refine ⟨hfills.sorted, fun _ => hfills.span_eq_none_iff, fun t ht a ha => ?_, hfills.apart,
    hfills.head rfl, hfills.newlines, fun i line hi k hk => ?_⟩
  · obtain ⟨i, line, hline, hi⟩ := hfills.exists_line ht ha
    exact ⟨i, line, by omega, hi⟩
  · have hcount := hfills.countP_standsAt hi hk
    rwa [Nat.zero_add] at hcount

end CommandText
