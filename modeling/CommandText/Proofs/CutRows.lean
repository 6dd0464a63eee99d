import CommandText.Proofs.BlankCursor
import CommandText.Proofs.ScannedLine

/-!
# Lines that are cut and shut

A line of a text is cut behind one of its tokens, and blanks and closing brackets are put in place
of what followed. Its tokens are the ones in front of the cut and those brackets, wherever the line
is put then.
-/

namespace CommandText

open List

variable {c : Char} {pre : List Char}

/-! ### The ends of tokens -/

section EndsIn

variable {l : Lexeme} {c : Char}

theorem Lexeme.EndsIn.eq_colon (h : l.EndsIn c) (herror : l.kind ≠ .error)
    (hcomment : l.kind ≠ .comment) (hstop : isStop c = true) :
    c = ':' ∨ ∃ p, l = .punct p ∧ c = p.char := by
  cases l with
  | label => exact .inl h
  | punct p => exact .inr ⟨p, rfl, h⟩
  | comment => exact absurd rfl hcomment
  | error => exact absurd rfl herror
  | _ => exact .inl (h hstop)

theorem Lexeme.EndsIn.isStop_of_kind (h : l.EndsIn c)
    (hkind : l.kind = .label ∨ l.kind = .punctuation) :
    isStop c = true := by
  cases l with
  | label =>
    obtain rfl : c = ':' := h
    decide
  | punct p =>
    obtain rfl : c = p.char := h
    cases p <;> decide
  | _ => simp [kind] at hkind

theorem Lexeme.EndsIn.isBlank_eq_false (h : l.EndsIn c) (herror : l.kind ≠ .error)
    (hcomment : l.kind ≠ .comment) : isBlank c = false := by
  by_contra hblank
  rw [Bool.not_eq_false] at hblank
  rcases h.eq_colon herror hcomment (by rw [isStop, hblank, Bool.true_or]) with rfl | ⟨p, -, rfl⟩
  · exact absurd hblank (by decide +kernel)
  · cases p <;> exact absurd hblank (by decide +kernel)

theorem Lexeme.EndsIn.eq_openBrace (h : l.EndsIn '\x7b') (herror : l.kind ≠ .error)
    (hcomment : l.kind ≠ .comment) : l = .punct .openBrace := by
  rcases h.eq_colon herror hcomment (by decide) with h | ⟨p, rfl, hp⟩
  · cases h
  · cases p <;> first | rfl | cases hp

end EndsIn

/-! ### Brackets in place of the rest -/

theorem stops_shut {gap : List Char} (hgap : ∀ c ∈ gap, isBlank c = true) (lists : Nat) :
    Stops (gap ++ List.replicate lists ']') := by
  have hstop : ∀ c ∈ gap ++ List.replicate lists ']', isStop c = true ∧ c ≠ ':' := by
    intro c hc
    rcases mem_append.mp hc with hc | hc
    · refine ⟨by rw [isStop, hgap c hc, Bool.true_or], ?_⟩
      rintro rfl
      exact absurd (hgap _ hc) (by decide +kernel)
    · rw [eq_of_mem_replicate hc]
      decide
  exact ⟨fun c hc => hstop c (mem_of_mem_head? hc), fun c hc => (hstop c hc).1⟩

theorem detached_of_blank (hc : isBlank c = true) (cs : List Char) : Detached (c :: cs) := by
  intro d hd
  obtain rfl : c = d := by simpa using hd
  exact (stops_shut (forall_mem_singleton.mpr hc) 0).detached c rfl

theorem exists_brackets (line column lists : Nat) :
    ∃ brackets : List Token, brackets.length = lists ∧
      (∀ b ∈ brackets, b.isPunct .closeBracket = true) ∧
      Scans line column (List.replicate lists ']') brackets := by
  induction lists generalizing column with
  | zero => exact ⟨[], rfl, by simp, .nil⟩
  | succ lists ih =>
    obtain ⟨brackets, hlength, hall, hscans⟩ := ih (column + 1)
    have hone : scan .stock [']'] = .token (.punct .closeBracket) 1 := by decide +kernel
    have hscan := scan_append (by simp) (stops_shut (forall_mem_nil _) lists) hone (by decide)
    exact ⟨_ :: brackets, by rw [length_cons, hlength],
      forall_mem_cons.mpr ⟨by simp [Token.isPunct], hall⟩,
      .token (w := [']']) (by simp) hscan hscans⟩

/-- Some text is read as some tokens with blanks and closing brackets behind it, wherever the line
is put. -/
def Shuts (pre : Line) (us : List Token) : Prop :=
  ∀ (number : Nat) (gap : List Char) (lists : Nat), (∀ c ∈ gap, isBlank c = true) →
    ∃ brackets : List Token, brackets.length = lists ∧
      (∀ b ∈ brackets, b.isPunct .closeBracket = true) ∧
      scanBare .stock number (dropReturn (pre ++ (gap ++ List.replicate lists ']'))) =
        (us.map (Token.onLine number) ++ brackets, false)

/-- Text that ends with the last of its tokens, and is read as these tokens with blanks and closing
brackets behind it. -/
structure Trimmed (pre : Line) (us : List Token) : Prop where
  shuts : Shuts pre us
  feed : '\n' ∉ pre
  mark : Unmarked pre
  ends : ∃ u ∈ us.getLast?, u.IsClean ∧ ∃ c ∈ pre.getLast?, u.lexeme.EndsIn c

namespace Trimmed

variable {pre : Line} {us : List Token} {gap : List Char}

variable (h : Trimmed pre us)
include h

theorem exists_last : ∃ c, pre.getLast? = some c ∧ isBlank c = false := by
  obtain ⟨u, -, ⟨herror, hcomment⟩, c, hc, hends⟩ := h.ends
  exact ⟨c, hc, hends.isBlank_eq_false herror hcomment⟩

theorem ne_nil : pre ≠ [] := by
  obtain ⟨c, hc, -⟩ := h.exists_last
  exact ne_nil_of_mem (mem_of_getLast? hc)

variable (hgap : ∀ c ∈ gap, isBlank c = true)
include hgap

theorem portable (hfeed : '\n' ∉ gap) (lists : Nat) :
    Portable (pre ++ (gap ++ List.replicate lists ']')) := by
  refine ⟨?_, ?_, fun number => ?_⟩
  · rw [mem_append, mem_append, mem_replicate]
    rintro (hc | hc | ⟨-, hc⟩)
    · exact h.feed hc
    · exact hfeed hc
    · cases hc
  · rw [Unmarked, head?_append_of_ne_nil _ h.ne_nil]
    exact h.mark
  · obtain ⟨brackets, -, -, hscan⟩ := h.shuts number gap lists hgap
    rw [hscan]

theorem lineTokens_eq (hfeed : '\n' ∉ gap) :
    lineTokens .stock (pre ++ gap) = us.map (Token.onLine 1) := by
  obtain ⟨brackets, hlength, -, hscan⟩ := h.shuts 1 gap 0 hgap
  obtain rfl := length_eq_zero_iff.mp hlength
  have hportable := h.portable hgap hfeed 0
  rw [replicate_zero, append_nil] at hscan hportable
  rw [CommandText.lineTokens_eq .stock hportable.feed, bareLine_eq fun _ => hportable.mark, hscan,
    append_nil]

theorem skipBlanks_reverse : skipBlanks (pre ++ gap).reverse = pre.reverse := by
  obtain ⟨c, hc, hblank⟩ := h.exists_last
  obtain ⟨pre, rfl⟩ := getLast?_eq_some_iff.mp hc
  rw [reverse_append, skipBlanks, dropWhile_append_of_pos (by simpa using hgap),
    reverse_concat, dropWhile_cons_of_neg (by simp [hblank])]

theorem dropOpenBrace?_eq_none (hlast : ∀ u ∈ us.getLast?, u.isPunct .openBrace = false) :
    dropOpenBrace? (pre ++ gap) = none := by
  obtain ⟨u, hu, ⟨herror, hcomment⟩, c, hc, hends⟩ := h.ends
  rw [dropOpenBrace?, h.skipBlanks_reverse hgap]
  split
  · next rest hrest =>
    obtain rfl : c = '\x7b' := by
      rw [← head?_reverse, hrest] at hc
      exact (Option.some.inj hc).symm
    have hopen := hlast u hu
    rw [Token.isPunct, hends.eq_openBrace herror hcomment] at hopen
    simp at hopen
  · rfl

end Trimmed

theorem dropReturn_shut {gap : List Char} (hlast : pre.getLast? = some c) (hc : isBlank c = false)
    (hgap : ∀ c ∈ gap, isBlank c = true) (lists : Nat) : ∃ gap', (∀ c ∈ gap', isBlank c = true) ∧
      dropReturn (pre ++ (gap ++ List.replicate lists ']')) =
        pre ++ (gap' ++ List.replicate lists ']') := by
  rw [dropReturn]
  split
  · next hreturn =>
    cases lists with
    | succ lists =>
      rw [replicate_succ', ← append_assoc, ← append_assoc, getLast?_concat] at hreturn
      cases hreturn
    | zero =>
      rcases eq_nil_or_concat gap with rfl | ⟨gap, d, rfl⟩
      · obtain rfl : c = '\r' := by simpa [hlast] using hreturn
        rw [isBlank_return] at hc
        cases hc
      · rw [concat_eq_append] at hgap ⊢
        refine ⟨gap, fun c hc => hgap c (mem_append_left _ hc), ?_⟩
        rw [replicate_zero, append_nil, append_nil, ← append_assoc,
          dropLast_concat]
  · exact ⟨gap, hgap, rfl⟩

theorem skipBlanks_append (hmem : c ∈ pre) (hc : isBlank c = false) (rest : List Char) :
    skipBlanks (pre ++ rest) = skipBlanks pre ++ rest := by
  have hne : skipBlanks pre ≠ [] := ne_nil_of_mem (mem_skipBlanks hmem hc)
  rw [skipBlanks, dropWhile_append, if_neg]
  · rfl
  · exact fun hempty => hne (isEmpty_iff.mp hempty)

theorem wholeLine?_append_eq_none {number : Nat} {rest : List Char} (hmem : c ∈ pre)
    (hc : isBlank c = false) (h : wholeLine? number (pre ++ rest) = none) (t : List Char) :
    wholeLine? number (pre ++ t) = none := by
  simp only [wholeLine?, skipBlanks_append hmem hc] at h ⊢
  obtain ⟨d, cs, hpre⟩ := exists_cons_of_ne_nil (ne_nil_of_mem (mem_skipBlanks hmem hc))
  rw [hpre] at h ⊢
  by_cases hhash : d = '#'
  · simp [hhash] at h
  · by_cases hat : d = '@'
    · simp [hat] at h
    · simp [hhash, hat]

namespace Row.Genuine

variable {r : Row} {us vs : List Token}

theorem scans (hr : r.Genuine) (hcode : r.code ≠ []) :
    wholeLine? r.number r.text = none ∧ Scans r.number 1 r.text r.tokens := by
  cases hwhole : wholeLine? r.number r.text with
  | some t =>
    refine absurd ?_ hcode
    rw [Row.code, hr.tokens]
    exact (codeOf_of_wholeLine? hwhole).1
  | none =>
    refine ⟨rfl, scans_iff.mpr ?_⟩
    have htokens := hr.tokens
    have hcontinues := hr.continues
    rw [scanBare, hwhole] at htokens hcontinues
    exact Prod.ext htokens.symm hcontinues

theorem exists_cut (hr : r.Genuine) (hcode : r.code ≠ []) (htokens : r.tokens = us ++ vs)
    (hne : us ≠ []) (hclean : ∀ u ∈ us, u.IsClean) :
    ∃ pre rest, r.text = pre ++ rest ∧ Scans r.number (1 + pre.length) rest vs ∧
      (∃ u ∈ us.getLast?, EndsWith r.number 1 pre rest u) ∧ (Parted pre rest → Trimmed pre us) := by
  obtain ⟨hwhole, hscans⟩ := hr.scans hcode
  rw [htokens] at hscans
  obtain ⟨pre, rest, htext, -, hrest, ⟨u, hu, hends⟩, hstands⟩ := hscans.cut hne
  obtain ⟨herror, hcomment⟩ := hclean u (mem_of_getLast? hu)
  obtain ⟨c, hlast, hc⟩ := hends.exists_last
  have hblank := hc.isBlank_eq_false herror hcomment
  have hfeed : '\n' ∉ pre := fun hmem => hr.feed (htext ▸ mem_append_left rest hmem)
  have hmark : Unmarked pre := by
    have hmark := hr.mark
    rwa [htext, Unmarked,
      head?_append_of_ne_nil _ (ne_nil_of_mem (mem_of_getLast? hlast))] at hmark
  refine ⟨pre, rest, htext, hrest, ⟨u, hu, hends⟩, fun hparted =>
    ⟨fun number gap lists hgap => ?_, hfeed, hmark, u, hu, ⟨herror, hcomment⟩, c, hlast, hc⟩⟩
  obtain ⟨gap', hgap', hdrop⟩ := dropReturn_shut hlast hblank hgap lists
  obtain ⟨brackets, hlength, hall, hbrackets⟩ :=
    exists_brackets r.number (1 + pre.length + gap'.length) lists
  have hshut := hstands hparted hclean _ _ (stops_shut hgap' lists) (.blanks hgap' hbrackets)
  rw [htext] at hwhole
  have hwhole' := wholeLine?_append_eq_none (mem_of_getLast? hlast) hblank hwhole
    (gap' ++ List.replicate lists ']')
  refine ⟨brackets.map (Token.onLine number), by rw [length_map, hlength], by simpa using hall, ?_⟩
  rw [hdrop, scanBare_onLine .stock r.number, scanBare, hwhole']
  simp only [scans_iff.mp hshut, map_append]

theorem exists_cut_before {v : Token} (hr : r.Genuine) (hcode : r.code ≠ [])
    (htokens : r.tokens = us ++ v :: vs) (hne : us ≠ []) (hclean : ∀ u ∈ us, u.IsClean)
    (hparted : ∀ u ∈ us.getLast?, ∀ a ∈ u.span, ∀ b ∈ v.span,
      u.kind = .label ∨ u.kind = .punctuation ∨ a.last + 1 ≠ b.first) :
    ∃ pre gap rest, r.text = pre ++ (gap ++ rest) ∧ (∀ c ∈ gap, isBlank c = true) ∧
      (∃ last, v.span = some ⟨pre.length + gap.length + 1, last⟩) ∧ Trimmed pre us ∧
      ∃ u ∈ us.getLast?, EndsWith r.number 1 pre (gap ++ rest) u ∧
        (u.kind = .label ∨ u.kind = .punctuation ∨ gap ≠ []) := by
  obtain ⟨pre, rest, htext, hrest, ⟨u, hu, hends⟩, htrimmed⟩ :=
    hr.exists_cut hcode htokens hne hclean
  obtain ⟨gap, w, rest, rfl, hgap, -, -, -, hspan, -⟩ := hrest.exists_gap
  obtain ⟨front, x, -, -, -, -, huspan⟩ := id hends
  have hkinds := hparted u hu _ huspan _ hspan
  have hgap' : u.kind = .label ∨ u.kind = .punctuation ∨ gap ≠ [] := by
    refine hkinds.imp_right (Or.imp_right fun hne hnil => hne ?_)
    rw [hnil, length_nil]
    simp only
    omega
  rw [show 1 + pre.length + gap.length = pre.length + gap.length + 1 by omega] at hspan
  refine ⟨pre, gap, w ++ rest, htext, hgap, ⟨_, hspan⟩, htrimmed ?_, u, hu, hends, hgap'⟩
  cases gap with
  | nil =>
    obtain ⟨c, hlast, hc⟩ := hends.exists_last
    exact .inr ⟨c, hlast, hc.isStop_of_kind (hgap'.imp_right (Or.resolve_right · (absurd rfl)))⟩
  | cons d gap => exact .inl (detached_of_blank (hgap d mem_cons_self) _)

theorem exists_tokenize (hr : r.Genuine) (hcode : r.code ≠ [])
    (hclean : ∀ u ∈ r.tokens, u.IsClean) :
    ∃ tail, tokenize .stock (r.text ++ [' ']) = r.tokens.map (Token.onLine 1) ++ tail := by
  have hne : r.tokens ≠ [] := by
    intro hnil
    exact hcode (by rw [Row.code, hnil]; rfl)
  obtain ⟨pre, rest, htext, hrest, -, htrimmed⟩ :=
    hr.exists_cut hcode (append_nil _).symm hne hclean
  have hblank := hrest.blank_of_nil
  have hgap : ∀ c ∈ rest ++ [' '], isBlank c = true := by
    simpa [or_imp, forall_and] using ⟨hblank, show isBlank ' ' = true by decide⟩
  have hfeed : '\n' ∉ r.text ++ [' '] := by simpa using hr.feed
  have hfeed' : '\n' ∉ rest ++ [' '] :=
    fun hmem => hfeed (by simp [htext] at hmem ⊢; exact .inr hmem)
  have hdetached : Detached rest := by simpa using (stops_shut hblank 0).detached
  have htokens := (htrimmed (.inl hdetached)).lineTokens_eq hgap hfeed'
  obtain ⟨tail, htokenize, -⟩ := exists_tokenize_line .stock hfeed
  refine ⟨tail, ?_⟩
  rw [htokenize, ← CommandText.lineTokens_eq .stock hfeed, htext, append_assoc, htokens]

end Row.Genuine

end CommandText
