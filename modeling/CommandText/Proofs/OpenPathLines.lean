import CommandText.Proofs.BlankCursor
import CommandText.Proofs.KeptRows

/-!
# The lines on the open path

Which lines of a document lead to a line of it, said by the brackets and labels of the whole text. A
line is kept if it opens a bracket whose partner stands at the line or below it, or if it is a label
alone and the next line with code is kept so, or is the line itself.
-/

namespace CommandText

open Row List Unbalanced

variable {t : Token}

/-! ### Lines by their tokens -/

/-- A bracket that is opened on line `j` has its partner on line `i` or below. Lines count from zero
here, and from one on tokens. -/
def OpenAcross (tokens : List Token) (i j : Nat) : Prop :=
  ∃ o c, Pair tokens o c ∧ o.line = j + 1 ∧ i < c.line

/-- The tokens of a line, apart from those of some kinds. -/
def tokensOn (aside : List TokenKind) (tokens : List Token) (j : Nat) : List Token :=
  tokens.filter fun t => t.line == j + 1 && !aside.contains t.kind

/-- From line `j` on, no line above line `i` has tokens, or the first one that has is open across
line `i`. -/
def LeadsTo (aside : List TokenKind) (tokens : List Token) (i j : Nat) : Prop :=
  (∀ k, j ≤ k → k < i → tokensOn aside tokens k = []) ∨
    ∃ k, j ≤ k ∧ k < i ∧ (∀ k', j ≤ k' → k' < k → tokensOn aside tokens k' = []) ∧
      tokensOn aside tokens k ≠ [] ∧ OpenAcross tokens i k

/-- Line `j` is open across line `i`, or it is a lone label that leads to it. -/
def OnPath (aside : List TokenKind) (tokens : List Token) (i j : Nat) : Prop :=
  OpenAcross tokens i j ∨
    isLoneLabel (tokensOn aside tokens j) = true ∧ LeadsTo aside tokens i (j + 1)

/-- The path to line `i` holds the lines above that are on it, from the top down, then line `i`
itself, and nothing else. -/
def KeepsPath (aside : List TokenKind) (text : List Char) (i : Nat) : Prop :=
  ∃ js : List Nat, js.Pairwise (· < ·) ∧
    (∀ j, j ∈ js ↔ j < i ∧ OnPath aside (tokenize .stock text) i j) ∧
    openPath (documentLines text) i = (js ++ [i]).map fun j => (documentLines text).getD j []

/-! ### Tokens on rows -/

theorem shuts_laden (rows : List Row) : shuts (laden rows) = shuts rows := by
  induction rows with
  | nil => rfl
  | cons r rows ih =>
    by_cases htokens : r.tokens = []
    · have hcode : bearing r.code = .silent := by simp [code, codeOf, htokens, bearing]
      rw [laden_cons_of_nil htokens, shuts, hcode, ih]
    · rw [laden_cons_of_ne_nil htokens, shuts, shuts, ih]

/-- Tokens that stand on numbered rows and close all that they open. -/
structure Ruled (tokens : List Token) (rows : List Row) : Prop where
  tokens_eq : tokens = Row.stream (Row.laden rows)
  numbers : rows.map Row.number = List.range' 1 rows.length
  sound : ∀ r ∈ Row.laden rows, r.Sound
  acts : ∀ r ∈ rows, r.Acts
  closed : rows.foldlM Standing.pass? {} = some {}

namespace Ruled

variable {tokens : List Token} {above below rest : List Row} {r : Row}

theorem numbers_append (h : Ruled tokens (above ++ below)) :
    above.map number = List.range' 1 above.length ∧
      below.map number = List.range' (1 + above.length) below.length := by
  have hnumbers := h.numbers
  rw [map_append, length_append, ← List.range'_append_1] at hnumbers
  exact append_inj hnumbers (by simp)

theorem number_eq (h : Ruled tokens (above ++ r :: below)) : r.number = above.length + 1 := by
  have hnumbers := h.numbers_append.2
  rw [map_cons, length_cons, List.range'_succ] at hnumbers
  rw [(cons.inj hnumbers).1, Nat.add_comm]

theorem getD_text {rows : List Row} (h : Ruled tokens rows) (hr : r ∈ rows) :
    (rows.map text).getD (r.number - 1) [] = r.text := by
  obtain ⟨above, below, rfl⟩ := append_of_mem hr
  rw [h.number_eq]
  simp

theorem line_le (h : Ruled tokens (above ++ below)) (ht : t ∈ stream (laden above)) :
    t.line ≤ above.length := by
  obtain ⟨r, hr, hline⟩ := exists_row_of_mem_stream (fun r hr => h.sound r (by
    rw [laden_append]
    exact mem_append_left _ hr)) ht
  have hnumber := mem_map_of_mem (f := number) (mem_filter.mp hr).1
  rw [h.numbers_append.1, mem_range'_1] at hnumber
  omega

theorem lt_line (h : Ruled tokens (above ++ below)) (ht : t ∈ stream (laden below)) :
    above.length < t.line := by
  obtain ⟨r, hr, hline⟩ := exists_row_of_mem_stream (fun r hr => h.sound r (by
    rw [laden_append]
    exact mem_append_right _ hr)) ht
  have hnumber := mem_map_of_mem (f := number) (mem_filter.mp hr).1
  rw [h.numbers_append.2, mem_range'_1] at hnumber
  omega

section

variable (h : Ruled tokens (above ++ r :: below))
include h

theorem split :
    tokens = stream (laden above) ++
      (stream (laden [r]) ++ stream (laden below)) := by
  rw [h.tokens_eq, ← stream_append, ← laden_append, ← stream_append,
    ← laden_append, singleton_append]

theorem line_eq (ht : t ∈ stream (laden [r])) : t.line = above.length + 1 := by
  have hbelow : Ruled tokens ((above ++ [r]) ++ below) := by simpa using h
  have hle : t.line ≤ (above ++ [r]).length := by
    refine hbelow.line_le ?_
    rw [laden_append, stream_append]
    exact mem_append_right _ ht
  have hlt : above.length < t.line := by
    refine h.lt_line ?_
    rw [← singleton_append, laden_append, stream_append]
    exact mem_append_left _ ht
  simp at hle
  omega

theorem tokensOn_eq : tokensOn [.newline, .comment, .note] tokens above.length = r.code := by
  have habove : tokensOn [.newline, .comment, .note] (stream (laden above))
      above.length = [] := by
    refine filter_eq_nil_iff.mpr fun t ht => ?_
    have hle := h.line_le ht
    simp
    omega
  have hbelow : tokensOn [.newline, .comment, .note] (stream (laden below))
      above.length = [] := by
    refine filter_eq_nil_iff.mpr fun t ht => ?_
    have hrest : Ruled tokens ((above ++ [r]) ++ below) := by simpa using h
    have hlt := hrest.lt_line ht
    simp at hlt ⊢
    omega
  have hrow : tokensOn [.newline, .comment, .note] (stream (laden [r]))
      above.length = r.code := by
    by_cases htokens : r.tokens = []
    · rw [laden_cons_of_nil htokens, code, htokens]
      rfl
    · have hladen : laden [r] = [r] := laden_cons_of_ne_nil htokens []
      have hstream : stream [r] = r.tokens ++ [r.newline] := stream_cons r []
      have hsound : r.Sound := h.sound r (by
        rw [laden_append, laden_cons_of_ne_nil htokens]
        simp)
      have hend : tokensOn [.newline, .comment, .note] [r.newline] above.length = [] := by
        simp [tokensOn, newline, Token.kind, Lexeme.kind]
      rw [hladen, hstream, tokensOn, filter_append]
      rw [tokensOn] at hend
      rw [hend, append_nil, code, codeOf]
      refine filter_congr fun t ht => ?_
      have hline : t.line = above.length + 1 := (hsound.line t ht).trans h.number_eq
      have hnewline := hsound.newline t ht
      rw [Token.isKind_eq_false_iff] at hnewline
      rw [hline, beq_self_eq_true, Bool.true_and, Token.isKind, Token.isKind]
      revert hnewline
      cases t.kind <;> decide
  rw [h.split]
  simp only [tokensOn, filter_append] at habove hbelow hrow ⊢
  rw [habove, hbelow, hrow, nil_append, append_nil]

end

/-! ### Rows that stay open -/

theorem foldl_step_tail {tail : List Token} (h : Row.IsTail tail) (u : Unbalanced) :
    tail.foldl Unbalanced.step u = u := by
  rcases h with rfl | ⟨t, rfl, ht⟩
  · rfl
  · exact step_of_kind (by simp [Token.isKind_iff.mp ht]) u

theorem exists_append_of_not_mem {before after x y : List Token} (h : before ++ t :: after = x ++ y)
    (ht : t ∉ x) : ∃ before', before = x ++ before' ∧ y = before' ++ t :: after := by
  rcases append_eq_append_iff.mp h with ⟨x', rfl, hx'⟩ | ⟨before', rfl, hy⟩
  · cases x' with
    | nil => exact ⟨[], by simp, hx'.symm⟩
    | cons u x' =>
      obtain ⟨rfl, -⟩ := cons.inj hx'
      simp at ht
  · exact ⟨before', rfl, hy⟩

theorem exists_append_of_not_mem' {before after x y : List Token}
    (h : before ++ t :: after = x ++ y) (ht : t ∉ y) :
    ∃ after', x = before ++ t :: after' ∧ after = after' ++ y := by
  rcases append_eq_append_iff.mp h with ⟨x', rfl, hx'⟩ | ⟨before', rfl, hy⟩
  · cases x' with
    | nil =>
      rw [nil_append] at hx'
      rw [← hx'] at ht
      simp at ht
    | cons u x' =>
      obtain ⟨rfl, rfl⟩ := cons.inj hx'
      exact ⟨x', rfl, rfl⟩
  · rw [hy] at ht
    simp at ht

theorem exists_pass (h : Ruled tokens (above ++ r :: (below ++ rest))) :
    ∃ st st₁ st₂ : Standing, st.pass? r = some st₁ ∧ below.foldlM Standing.pass? st₁ = some st₂ ∧
      rest.foldlM Standing.pass? st₂ = some {} := by
  have hclosed := h.closed
  rw [foldlM_append] at hclosed
  obtain ⟨st, -, hclosed⟩ := Option.bind_eq_some_iff.mp hclosed
  rw [foldlM_cons] at hclosed
  obtain ⟨st₁, hr, hclosed⟩ := Option.bind_eq_some_iff.mp hclosed
  rw [foldlM_append] at hclosed
  obtain ⟨st₂, hbelow, hrest⟩ := Option.bind_eq_some_iff.mp hclosed
  exact ⟨st, st₁, st₂, hr, hbelow, hrest⟩

theorem acts_laden (h : Ruled tokens (above ++ below)) : ∀ r ∈ laden below, r.Acts :=
  fun r hr => h.acts r (mem_append_right _ (mem_filter.mp hr).1)

section

variable (h : Ruled tokens (above ++ r :: (below ++ rest)))
include h

theorem closed_eq_nil_iff : (unbalanced (stream (laden below))).closed = [] ↔ shuts below = 0 := by
  obtain ⟨st, st₁, st₂, -, hbelow, -⟩ := h.exists_pass
  rw [← foldlM_laden] at hbelow
  rw [closed_stream_eq_nil_iff hbelow (fun r' hr' => ?_), shuts_laden]
  exact h.acts_laden r' (by
    rw [← singleton_append, laden_append, laden_append]
    exact mem_append_right _ (mem_append_left _ hr'))

theorem openAcross_of_staysOpen (hopen : r.staysOpen below = true) :
    OpenAcross tokens (above.length + 1 + below.length) above.length := by
  rw [staysOpen] at hopen
  split at hopen
  · next e hb =>
    have hshuts : shuts below = 0 := by simpa using hopen
    have hacts := h.acts r (by simp)
    obtain ⟨x, o, hholds, ho⟩ := hacts.opener e hb
    obtain ⟨tail, htokens, htail⟩ := hholds.tokens
    obtain ⟨st, st₁, st₂, hr, hbelow, hrest⟩ := h.exists_pass
    -- behind the bracket, the rest of the row changes nothing, and the other rows close it
    have hladen : laden [r] = [r] := laden_cons_of_ne_nil hholds.sound.ne_nil []
    have hnewline (u : Unbalanced) : u.step r.newline = u :=
      u.step_of_kind (by simp [newline, Token.kind, Lexeme.kind])
    have hpass : (laden (below ++ rest)).foldlM Standing.pass? st₁ = some {} := by
      rw [foldlM_laden, foldlM_append, hbelow]
      exact hrest
    rw [Standing.pass?_of_opens hb] at hr
    cases hr
    have hfold := foldl_act_of_pass hpass []
    rw [← foldl_step_stream (fun r' hr' => h.acts_laden r' (by
      rw [← singleton_append, laden_append]
      exact mem_append_right _ hr')), laden_append, stream_append] at hfold
    have hshut : ((tail ++ r.newline :: stream (laden below)) ++
        stream (laden rest)).foldl Unbalanced.step
          ⟨[], e :: st.frames.map Frame.enclosure⟩ = {} := by
      rw [append_assoc, foldl_append, foldl_step_tail htail, cons_append,
        foldl_cons, hnewline]
      exact hfold
    obtain ⟨between, c, after, hsplit, hc, hbalanced⟩ := exists_partner_behind hshut (by
      rw [unbalanced, foldl_append, foldl_step_tail htail, foldl_cons, hnewline]
      exact h.closed_eq_nil_iff.mpr hshuts)
    refine ⟨o, c, ⟨e, stream (laden above) ++ x, _, after, ?_, ho, hc, hbalanced⟩, ?_, ?_⟩
    · rw [h.split, hladen, stream_cons, laden_append, stream_append, hsplit, htokens]
      simp [stream]
    · rw [hholds.line (by simp), h.number_eq]
    · have hbehind : Ruled tokens ((above ++ r :: below) ++ rest) := by simpa using h
      have hlt := hbehind.lt_line (t := c) (by simp [hsplit])
      simp at hlt
      omega
  · cases hopen

theorem staysOpen_of_openAcross
    (hopen : OpenAcross tokens (above.length + 1 + below.length) above.length) :
    r.staysOpen below = true := by
  obtain ⟨o, c, ⟨e, before, between, after, heq, ho, hc, hbalanced⟩, holine, hcline⟩ := hopen
  -- the opening bracket stands on the row, and the closing one on the last rows
  obtain ⟨x, rfl, hx⟩ := exists_append_of_not_mem (heq.symm.trans h.split) fun hmem => by
    have hle := h.line_le hmem
    omega
  obtain ⟨y, hrow, hbehind⟩ := exists_append_of_not_mem' hx.symm fun hmem => by
    have hrest : Ruled tokens ((above ++ [r]) ++ (below ++ rest)) := by simpa using h
    have hlt := hrest.lt_line hmem
    simp at hlt
    omega
  rw [laden_append, stream_append, ← append_assoc] at hbehind
  obtain ⟨z, rfl, -⟩ := exists_append_of_not_mem hbehind fun hmem => by
    rcases mem_append.mp hmem with hmem | hmem
    · have hline := h.line_eq (t := c) (by simp [hrow, hmem])
      omega
    · have hrest : Ruled tokens ((above ++ r :: below) ++ rest) := by simpa using h
      have hle := hrest.line_le (t := c) (by
        rw [← singleton_append, laden_append, laden_append, stream_append,
          stream_append]
        exact mem_append_right _ (mem_append_right _ hmem))
      simp at hle
      omega
  -- so nothing of what stands between them is left over
  have hunbalanced := hbalanced.foldl_step {}
  rw [foldl_append] at hunbalanced
  have hmid := closed_eq_nil (congrArg Unbalanced.closed hunbalanced)
  have hy : (unbalanced y).closed = [] := by
    rw [foldl_append] at hmid
    exact closed_eq_nil hmid
  have hladen : laden [r] = [r] := by
    refine laden_cons_of_ne_nil (fun htokens => ?_) []
    rw [laden_cons_of_nil htokens] at hrow
    simp [laden, stream] at hrow
  rw [hladen] at hrow
  -- the row opens what its own bracket opens, and nothing else
  have hacts := h.acts r (by simp)
  have hfold := foldl_step_stream (forall_mem_singleton.mpr hacts) {}
  rw [hrow, foldl_append, foldl_cons, step_of_opens ho,
    foldl_step_eq hy] at hfold
  have hact : (bearing r.code).act {} = _ := hfold.symm
  obtain ⟨e', hb⟩ := Bearing.exists_opens_of_act (b := bearing r.code) (by simp [hact])
  rw [hb] at hact
  have hopened : (unbalanced y).opened = [] := by
    have hone := congrArg Unbalanced.opened hact
    cases hcases : (unbalanced y).opened with
    | nil => rfl
    | cons => simp [Bearing.act, hcases] at hone
  have hneutral : unbalanced y = {} := by
    calc unbalanced y = ⟨(unbalanced y).closed, (unbalanced y).opened⟩ := rfl
      _ = {} := by rw [hy, hopened]
  have hbelow : (unbalanced (stream (laden below))).closed = [] := by
    rw [foldl_append, ← unbalanced, hneutral] at hmid
    exact hmid
  rw [staysOpen, hb]
  simpa using h.closed_eq_nil_iff.mp hbelow

theorem staysOpen_iff :
    r.staysOpen below = true ↔
      OpenAcross tokens (above.length + 1 + below.length) above.length :=
  ⟨h.openAcross_of_staysOpen, h.staysOpen_of_openAcross⟩

end

/-! ### Rows that are kept -/

theorem leads_iff (h : Ruled tokens (above ++ (below ++ rest))) :
    leads below = true ↔ LeadsTo [.newline, .comment, .note] tokens
      (above.length + below.length) above.length := by
  induction below generalizing above with
  | nil =>
    refine iff_of_true rfl (.inl fun k hk hlt => ?_)
    simp at hlt
    omega
  | cons r below ih =>
    rw [cons_append] at h
    have hcode := h.tokensOn_eq
    have hbelow : Ruled tokens ((above ++ [r]) ++ (below ++ rest)) := by simpa using h
    have ih := ih hbelow
    have hlength : (above ++ [r]).length + below.length = above.length + (r :: below).length := by
      simp
      omega
    rw [hlength, length_append, length_singleton] at ih
    rw [leads]
    split
    · next hsilent =>
      -- the row says nothing, so the line below it decides
      rw [List.isEmpty_iff] at hsilent
      rw [hsilent] at hcode
      rw [ih]
      refine or_congr ⟨fun hall k hk hlt => ?_, fun hall k hk hlt => hall k (by omega) hlt⟩
        ⟨?_, ?_⟩
      · rcases Nat.lt_or_eq_of_le hk with hk | rfl
        · exact hall k hk hlt
        · exact hcode
      · rintro ⟨k, hk, hlt, hall, hne, hopen⟩
        refine ⟨k, by omega, hlt, fun k' hk' hlt' => ?_, hne, hopen⟩
        rcases Nat.lt_or_eq_of_le hk' with hk' | rfl
        · exact hall k' hk' hlt'
        · exact hcode
      · rintro ⟨k, hk, hlt, hall, hne, hopen⟩
        have hk : above.length < k := Nat.lt_of_le_of_ne hk fun heq => hne (heq ▸ hcode)
        exact ⟨k, hk, hlt, fun k' hk' hlt' => hall k' (by omega) hlt', hne, hopen⟩
    · next hsilent =>
      rw [List.isEmpty_iff] at hsilent
      rw [h.staysOpen_iff, Nat.add_assoc, Nat.add_comm 1, ← length_cons (a := r)]
      constructor
      · intro hopen
        exact .inr ⟨above.length, by simp, by simp, fun k hk hlt => by omega,
          by rwa [hcode], hopen⟩
      · rintro (hall | ⟨k, hk, hlt, hall, hne, hopen⟩)
        · exact absurd (hcode.symm.trans (hall _ (Nat.le_refl _) (by simp))) hsilent
        · rcases Nat.lt_or_eq_of_le hk with hk | rfl
          · exact absurd (hcode.symm.trans (hall _ (Nat.le_refl _) hk)) hsilent
          · exact hopen

theorem mem_keptRows_iff (h : Ruled tokens (above ++ (below ++ rest))) (j : Nat) :
    j ∈ (keptRows below).map (·.number - 1) ↔
      above.length ≤ j ∧ j < above.length + below.length ∧
        OnPath [.newline, .comment, .note] tokens (above.length + below.length) j := by
  induction below generalizing above with
  | nil =>
    simp [keptRows]
    omega
  | cons r below ih =>
    have hbelow : Ruled tokens ((above ++ [r]) ++ (below ++ rest)) := by simpa using h
    have ih := ih hbelow
    have hleads := hbelow.leads_iff
    have hlength : (above ++ [r]).length + below.length = above.length + (r :: below).length := by
      simp
      omega
    rw [hlength, length_append, length_singleton] at ih hleads
    have hopen := h.staysOpen_iff (r := r)
    rw [Nat.add_assoc, Nat.add_comm 1, ← length_cons (a := r)] at hopen
    have hhere : (r.staysOpen below || isLoneLabel r.code && leads below) = true ↔
        OnPath [.newline, .comment, .note] tokens (above.length + (r :: below).length)
          above.length := by
      rw [Bool.or_eq_true, Bool.and_eq_true, hopen, hleads, OnPath,
        h.tokensOn_eq]
    have hnumber : r.number - 1 = above.length := by
      rw [h.number_eq, Nat.add_sub_cancel]
    rw [keptRows]
    split
    · next hkept =>
      rw [map_cons, mem_cons, ih, hnumber]
      constructor
      · rintro (rfl | ⟨hle, hlt, hpath⟩)
        · exact ⟨Nat.le_refl _, by simp, hhere.mp hkept⟩
        · exact ⟨by omega, hlt, hpath⟩
      · rintro ⟨hle, hlt, hpath⟩
        rcases Nat.lt_or_eq_of_le hle with hle | rfl
        · exact .inr ⟨hle, hlt, hpath⟩
        · exact .inl rfl
    · next hkept =>
      rw [ih]
      constructor
      · rintro ⟨hle, hlt, hpath⟩
        exact ⟨by omega, hlt, hpath⟩
      · rintro ⟨hle, hlt, hpath⟩
        have hne : above.length ≠ j := by
          rintro rfl
          exact hkept (hhere.mpr hpath)
        exact ⟨by omega, hlt, hpath⟩

end Ruled

/-! ### The rows of a text -/

theorem map_text_bareRows (index : Nat) (lines : List Line) :
    (bareRows .stock index lines).map text = lines.map dropReturn := by
  induction lines generalizing index with
  | nil => rfl
  | cons line lines ih => rw [bareRows, map_cons, ih, map_cons]

theorem map_number_bareRows (index : Nat) (lines : List Line) :
    (bareRows .stock index lines).map number =
      List.range' (index + 1) (bareRows .stock index lines).length := by
  induction lines generalizing index with
  | nil => rfl
  | cons line lines ih => rw [bareRows, map_cons, ih, length_cons, List.range'_succ]

theorem exists_of_mem_bareRows {index : Nat} {lines : List Line} {r : Row}
    (h : r ∈ bareRows .stock index lines) : ∃ i line, line ∈ lines ∧
      r = ⟨dropReturn line, i + 1, (scanBare .stock (i + 1) (bareLine i line)).1⟩ := by
  induction lines generalizing index with
  | nil => cases h
  | cons line lines ih =>
    rcases mem_cons.mp h with rfl | h
    · exact ⟨index, line, mem_cons_self, rfl⟩
    · obtain ⟨i, line', hline, hr⟩ := ih h
      exact ⟨i, line', mem_cons_of_mem line hline, hr⟩

section Text

variable {text : List Char}
  (hcontinues : ∀ l ∈ scanLines .stock 0 false (linesOf text), l.continues = false)
  (hproblems : (parse (tokenize .stock text)).problems = [])

include hcontinues hproblems

theorem ruled_bareRows : Ruled (tokenize .stock text) (bareRows .stock 0 (linesOf text)) := by
  have htokens := assemble_scanLines hcontinues
  have hsound : ∀ r ∈ laden (bareRows .stock 0 (linesOf text)), r.Sound := by
    intro r hr
    obtain ⟨hmem, hne⟩ := mem_filter.mp hr
    obtain ⟨i, line, -, rfl⟩ := exists_of_mem_bareRows hmem
    exact sound_scanBare .stock (i + 1) (bareLine i line) (dropReturn line) (by simpa using hne)
  have hparse : parse (tokenize .stock text) = ⟨(parse (tokenize .stock text)).entries, []⟩ := by
    rw [← hproblems]
  have hreads := (parse_eq_iff _ _).mp hparse
  rw [tokenize, htokens] at hreads
  have harranged := hreads.arranged hsound
  refine ⟨htokens, map_number_bareRows 0 _, hsound, fun r hr => ?_, ?_⟩
  · by_cases hnil : r.tokens = []
    · exact acts_of_silent (by simp [code, codeOf, hnil])
    · exact harranged.acts r (mem_filter.mpr ⟨hr, by simpa using hnil⟩)
  · rw [← foldlM_laden]
    exact harranged.laid.rows_closed []

theorem faithful_bareRows : ∀ r ∈ bareRows .stock 0 (linesOf text), r.Faithful := by
  intro r hr
  have hclean := ((ruled_bareRows hcontinues hproblems).acts r hr).clean
  obtain ⟨i, line, hline, rfl⟩ := exists_of_mem_bareRows hr
  have hmark : Unmarked (bareLine i line) := unmarked_of_clean hclean
  refine faithful_of_bareLine (i + 1)
    (fun hc => (mem_of_mem_linesOf hline (mem_of_mem_dropReturn hc)).2 rfl) ?_
  by_cases hi : i = 0
  · rw [bareLine, if_pos rfl, bareLine, if_pos hi, dropMark_dropReturn]
  · rw [bareLine, if_neg hi] at hmark
    rw [bareLine_eq fun _ => hmark, bareLine, if_neg hi]

/-- In a text that is read without a miss and in which no line is continued, the path to a line
holds the lines above that open a bracket with its partner at the line or below, and the lone labels
that lead to such a line or to the line itself. -/
theorem keepsPath_of_read {i : Nat} (hi : i < (documentLines text).length) :
    KeepsPath [.newline, .comment, .note] text i := by
  have hruled := ruled_bareRows hcontinues hproblems
  have hfaithful := faithful_bareRows hcontinues hproblems
  have htexts : (bareRows .stock 0 (linesOf text)).map Row.text = documentLines text :=
    map_text_bareRows 0 _
  generalize bareRows .stock 0 (linesOf text) = rows at hruled hfaithful htexts
  have hlength : (rows.take i).length = i := by
    rw [← htexts, length_map] at hi
    simp
    omega
  have hsplit : Ruled (tokenize .stock text) ([] ++ (rows.take i ++ rows.drop i)) := by
    simpa using hruled
  -- what is open at the line is what is kept of the rows above
  have hclosed := hruled.closed
  rw [← take_append_drop i rows, foldlM_append] at hclosed
  obtain ⟨⟨frames, label⟩, hst, -⟩ := Option.bind_eq_some_iff.mp hclosed
  obtain ⟨new, hframes, hopen⟩ := openRows_of_pass hst
  have hkept : openRows new.reverse label = keptRows (rows.take i) := by simpa using hopen
  have hpass : (rows.take i).foldlM Standing.pass? ⟨[], none⟩ = some ⟨new.reverse.reverse, label⟩ :=
    hst.trans (by simp [hframes])
  have hpath := openPath_eq (getElem?_eq_getElem hi) (by rw [map_take, htexts])
    (fun r hr => hfaithful r (mem_of_mem_take hr)) hpass
  have hindices : (rows.take i).map (·.number - 1) = List.range i := by
    rw [nil_append] at hsplit
    have hnumbers := hsplit.numbers_append.1
    have hmap := congrArg (List.map (· - 1)) hnumbers
    rw [map_map, hlength, map_sub_range' (by simp)] at hmap
    exact hmap.trans range_eq_range'.symm
  refine ⟨(keptRows (rows.take i)).map (·.number - 1), ?_, fun j => ?_, ?_⟩
  · have hsub := (keptRows_sublist (rows.take i)).map (·.number - 1)
    rw [hindices] at hsub
    exact pairwise_lt_range.sublist hsub
  · simpa [hlength] using hsplit.mem_keptRows_iff j
  · rw [hpath, hkept, map_append, map_map]
    congr 1
    · refine map_congr_left fun r hr => ?_
      have hmem : r ∈ rows := mem_of_mem_take ((keptRows_sublist _).mem hr)
      rw [← htexts]
      exact (hruled.getD_text hmem).symm
    · simp [hi]

end Text

/-- A box below a label and a note, beside a list that is closed above. -/
def labeledText : List Char :=
  ("Box \x7b\n  extras: [\n    Box\n  ]\n  main:\n  @ kept\n  Box \x7b # inner\n    Box\n" ++
    "  \x7d\n\x7d").toList

theorem keepsPath_labeledText :
    (∀ l ∈ scanLines .stock 0 false (linesOf labeledText), l.continues = false) ∧
      (parse (tokenize .stock labeledText)).problems = [] ∧
      7 < (documentLines labeledText).length ∧
      KeepsPath [.newline, .comment, .note] labeledText 7 := by
  have hcontinues : ∀ l ∈ scanLines .stock 0 false (linesOf labeledText), l.continues = false := by
    decide +kernel
  have hproblems : (parse (tokenize .stock labeledText)).problems = [] := by decide +kernel
  exact ⟨hcontinues, hproblems, by decide +kernel,
    keepsPath_of_read hcontinues hproblems (by decide +kernel)⟩

/-! ### Notes -/

theorem OpenAcross.exists_opens {tokens : List Token} {i j : Nat} (h : OpenAcross tokens i j) :
    ∃ o ∈ tokens, o.line = j + 1 ∧ o.opens? ≠ none := by
  obtain ⟨o, c, ⟨e, before, between, after, rfl, ho, -, -⟩, hline, -⟩ := h
  exact ⟨o, by simp, hline, by simp [ho]⟩

/-- A box below a label and a note. -/
def notedText : List Char := "Box \x7b\n  main:\n  @ kept\n  Box\n\x7d".toList

/-- A note does not part a label from the command below it. If notes counted as code, the label
would not be on the path to the command, but it is kept. -/
theorem not_keepsPath_notedText :
    (∀ l ∈ scanLines .stock 0 false (linesOf notedText), l.continues = false) ∧
      (parse (tokenize .stock notedText)).problems = [] ∧
      3 < (documentLines notedText).length ∧ ¬KeepsPath [.newline, .comment] notedText 3 := by
  refine ⟨by decide +kernel, by decide +kernel, by decide +kernel, ?_⟩
  rintro ⟨js, -, hmem, hpath⟩
  have hclosed {j : Nat} (hj : j = 1 ∨ j = 2) : ¬OpenAcross (tokenize .stock notedText) 3 j := by
    intro hopen
    obtain ⟨o, ho, hline, hne⟩ := hopen.exists_opens
    have hnone : ∀ o ∈ tokenize .stock notedText, o.line = 2 ∨ o.line = 3 → o.opens? = none := by
      decide +kernel
    exact hne (hnone o ho (by omega))
  have hlabel : 1 ∉ js := by
    intro hjs
    rcases ((hmem 1).mp hjs).2 with hopen | ⟨-, hall | ⟨k, hle, hlt, -, -, hopen⟩⟩
    · exact hclosed (.inl rfl) hopen
    · exact absurd (hall 2 (by omega) (by omega)) (by decide +kernel)
    · exact hclosed (.inr (by omega)) hopen
  have hkept : "  main:".toList ∈ openPath (documentLines notedText) 3 := by decide +kernel
  rw [hpath] at hkept
  obtain ⟨j, hj, hline⟩ := mem_map.mp hkept
  have hle : j ≤ 3 := by
    rcases mem_append.mp hj with hj | hj
    · exact ((hmem j).mp hj).1.le
    · rw [mem_singleton.mp hj]
  have hone : ∀ j ≤ 3, (documentLines notedText).getD j [] = "  main:".toList → j = 1 := by
    decide +kernel
  obtain rfl := hone j hle hline
  simp [hlabel] at hj

end CommandText
