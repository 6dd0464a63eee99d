import CommandText.Proofs.CommentedTokens
import CommandText.Proofs.CutRows

/-!
# The tokens of a text with a comment behind a line

A comment behind a line with code is one more token in front of the line end, wherever in a text the
line stands, and it changes no other token: the blank in front of it ends what stands there, and it
holds no quote or bracket that could be taken for the end of a string or a generic value.
-/

namespace CommandText

open List Token

variable {l : Line} {cs t : List Char} {tokens : List Token}

/-- A line with a comment behind it. -/
def noted (l : Line) : Line := l ++ " # note".toList

/-- A line with code that has no comment and is not continued. -/
structure PlainLine (l : Line) : Prop where
  code : (scanLine .stock 0 false l).tokens ≠ []
  uncommented : ∀ t ∈ (scanLine .stock 0 false l).tokens, t.kind ≠ .comment ∧ t.kind ≠ .note
  ends : (scanLine .stock 0 false l).continues = false

/-! ### One line -/

theorem Scans.move {number column : Nat} (h : Scans number column cs tokens)
    (number' column' : Nat) : ∃ tokens',
      Scans number' column' cs tokens' ∧ tokens'.map Token.lexeme = tokens.map Token.lexeme := by
  induction h generalizing column' with
  | nil => exact ⟨[], .nil, rfl⟩
  | blank hc _ ih =>
    obtain ⟨tokens', h, hlexemes⟩ := ih (column' + 1)
    exact ⟨tokens', .blank hc h, hlexemes⟩
  | @token _ w _ _ _ hne hscan _ ih =>
    obtain ⟨tokens', h, hlexemes⟩ := ih (column' + w.length)
    exact ⟨_, .token hne hscan h, congrArg (_ :: ·) hlexemes⟩

theorem Scans.append {number column : Nat} {more : List Token} (h : Scans number column cs tokens)
    (hcode : ∀ u ∈ tokens, u.kind ≠ .comment) (ht : Detached t) (hquote : '"' ∉ t)
    (hangle : '>' ∉ t) (hmore : Scans number (column + cs.length) t more) :
    Scans number column (cs ++ t) (tokens ++ more) := by
  induction h with
  | nil => exact hmore
  | blank hc _ ih =>
    refine .blank hc (ih hcode ?_)
    rwa [Nat.add_assoc, Nat.add_comm 1, ← length_cons]
  | token hw hscan _ ih =>
    obtain ⟨hfirst, hcode⟩ := forall_mem_cons.mp hcode
    have hscan' := scan_append_of_detached (by simp [hw]) ht hquote hangle hscan hfirst
    rw [append_assoc] at hscan' ⊢
    refine .token hw hscan' (ih hcode ?_)
    rwa [Nat.add_assoc, ← length_append]

/-- Text that is read as some tokens behind any line without a comment. -/
structure Trails (t : List Char) (more : Nat → Nat → List Token) : Prop where
  detached : Detached t
  quote : '"' ∉ t
  angle : '>' ∉ t
  last : ∀ l : Line, (l ++ t).getLast? ≠ some '\r'
  scans : ∀ number column, Scans number column t (more number column)

/-- The comment that a noted line ends in, after `column` characters of the line. -/
def noteToken (number column : Nat) : Token :=
  ⟨.comment " note", number, some ⟨column + 1, column + 1 + 6 - 1⟩⟩

theorem trails_note :
    Trails " # note".toList fun number column => [noteToken number column] := by
  refine ⟨?_, by decide, by decide, by simp, fun number column => .blank (by decide) ?_⟩
  · rintro _ ⟨⟩
    decide
  · have hscan : scan .stock ("# note".toList ++ []) =
        .token (.comment " note") "# note".toList.length := by decide +kernel
    exact .token (by simp) hscan .nil

theorem dropMark_append (hne : cs ≠ []) (t : List Char) :
    dropMark (cs ++ t) = dropMark cs ++ t := by
  obtain ⟨c, cs, rfl⟩ := exists_cons_of_ne_nil hne
  by_cases hc : c = '\ufeff'
  · rw [hc]
    rfl
  · rw [cons_append, dropMark.eq_2 _ (by simpa using hc), dropMark.eq_2 _ (by simpa using hc),
      cons_append]

theorem bareLine_cases (index : Nat) (l : Line) :
    bareLine index l = bareLine 0 l ∨ bareLine index l = '\ufeff' :: bareLine 0 l := by
  rw [bareLine, bareLine, if_pos rfl]
  split
  · exact .inl rfl
  · generalize dropReturn l = cs
    unfold dropMark
    split
    · exact .inr rfl
    · exact .inl rfl

theorem exists_bareLine_append {index : Nat} (hne : bareLine index l ≠ [])
    (ht : (l ++ t).getLast? ≠ some '\r') : ∃ gap, (∀ c ∈ gap, isBlank c = true) ∧
      bareLine index (l ++ t) = bareLine index l ++ (gap ++ t) := by
  obtain ⟨gap, hgap, hl⟩ : ∃ gap, (∀ c ∈ gap, isBlank c = true) ∧ l = dropReturn l ++ gap := by
    rw [dropReturn]
    split
    · next hlast =>
      obtain ⟨l, rfl⟩ := getLast?_eq_some_iff.mp hlast
      exact ⟨['\r'], by simp [isBlank_return], by rw [dropLast_concat]⟩
    · exact ⟨[], by simp, (append_nil l).symm⟩
  have hdrop : dropReturn (l ++ t) = dropReturn l ++ (gap ++ t) := by
    rw [dropReturn, if_neg ht, ← append_assoc, ← hl]
  refine ⟨gap, hgap, ?_⟩
  have hne : dropReturn l ≠ [] := by
    rintro hnil
    simp [bareLine, hnil, dropMark] at hne
  rw [bareLine, bareLine, hdrop, dropMark_append hne]
  split <;> rfl

/-- The tokens of a text that is a plain line where it stands. -/
def PlainText (number : Nat) (cs : List Char) : Prop :=
  wholeLine? number cs = none ∧ ∃ tokens, Scans number 1 cs tokens ∧ tokens ≠ [] ∧
    ∀ t ∈ tokens, t.kind ≠ .comment

theorem PlainLine.plainText (h : PlainLine l) (index : Nat) :
    PlainText (index + 1) (bareLine index l) := by
  have hfirst := scanLine_eq .stock 0 l
  have hcode := h.code
  have huncommented := h.uncommented
  have hends := h.ends
  rw [hfirst] at hcode huncommented hends
  simp only [scanBare] at hcode huncommented hends
  cases hwhole : wholeLine? 1 (bareLine 0 l) with
  | some t =>
    simp only [hwhole, mem_singleton, forall_eq] at huncommented
    exact absurd (wholeLine?_kind hwhole).2 (not_or.mpr huncommented)
  | none =>
    simp only [hwhole] at hcode huncommented hends
    have hscans : Scans 1 1 (bareLine 0 l) _ := scans_iff.mpr (Prod.ext rfl hends)
    have hmove (column : Nat) : ∃ tokens, Scans (index + 1) column (bareLine 0 l) tokens ∧
        tokens ≠ [] ∧ ∀ t ∈ tokens, t.kind ≠ .comment := by
      obtain ⟨tokens, h, hlexemes⟩ := hscans.move (index + 1) column
      refine ⟨tokens, h, fun hnil => hcode ?_, fun t ht => ?_⟩
      · simpa [hnil] using hlexemes.symm
      · have hmem := mem_map_of_mem (f := Token.lexeme) ht
        rw [hlexemes] at hmem
        obtain ⟨u, hu, hut⟩ := mem_map.mp hmem
        rw [Token.kind, ← hut]
        exact (huncommented u hu).1
    rcases bareLine_cases index l with heq | heq
    · rw [heq]
      exact ⟨by rw [wholeLine?_onLine 1, hwhole]; rfl, hmove 1⟩
    · obtain ⟨tokens, h, -, hcode⟩ := hmove 2
      have hmark : Scans (index + 1) 1 ('\ufeff' :: bareLine 0 l) _ :=
        .token (cons_ne_nil '\ufeff' []) (scan_mark _) h
      rw [heq]
      refine ⟨wholeLine?_mark _ _, _, hmark, by simp, forall_mem_cons.mpr ⟨?_, hcode⟩⟩
      simp [Token.kind, Lexeme.kind]

theorem scanLine_of_scans {index : Nat} (hwhole : wholeLine? (index + 1) (bareLine index l) = none)
    (h : Scans (index + 1) 1 (bareLine index l) tokens) (joined : Bool) :
    scanLine .stock index joined l = ⟨index + 1, tokens, joined, false⟩ := by
  have hnone : (if joined then none else wholeLine? (index + 1) (bareLine index l)) = none := by
    rw [hwhole, ite_self]
  simp only [scanLine, hnone, scans_iff.mp h]

/-- Comments and notes end a line, and a line that is continued has none. -/
structure LineTokens.Tidy (x : LineTokens) : Prop where
  chain : x.tokens.IsChain Precedes
  continued : x.continues = true → ∀ t ∈ x.tokens, t.kind ≠ .comment ∧ t.kind ≠ .note

theorem tidy_scanFrom (pattern : Pattern) (number column skip : Nat) (cs : List Char)
    (joined : Bool) :
    LineTokens.Tidy ⟨number, (scanFrom pattern number column skip cs).1, joined,
      (scanFrom pattern number column skip cs).2⟩ := by
  induction cs generalizing column skip with
  | nil => exact ⟨.nil, by simp [scanFrom]⟩
  | cons c cs ih =>
    cases skip with
    | succ skip =>
      rw [scanFrom]
      exact ih _ _
    | zero =>
      rw [scanFrom]
      split
      · exact ⟨.nil, by simp⟩
      · exact ih _ _
      · next lexeme length hscan =>
        have hplain := plain_scan hscan
        obtain ⟨hchain, hcontinued⟩ := ih (column + 1) (length - 1)
        by_cases hcomment : lexeme.kind = .comment
        · -- nothing is left behind a comment
          have hlength : length = cs.length + 1 := hplain.comment hcomment
          rw [scanFrom_of_length_le pattern number _ _ cs (by omega)]
          exact ⟨.singleton _, by simp⟩
        · have hcode : lexeme.kind ≠ .comment ∧ lexeme.kind ≠ .note := ⟨hcomment, hplain.note⟩
          exact ⟨hchain.cons fun _ _ => .inr hcode,
            fun h => forall_mem_cons.mpr ⟨hcode, hcontinued h⟩⟩

theorem tidy_scanLine (pattern : Pattern) (index : Nat) (joined : Bool) (line : Line) :
    (scanLine pattern index joined line).Tidy := by
  simp only [scanLine]
  split
  · exact ⟨.singleton _, by simp⟩
  · exact tidy_scanFrom pattern _ _ _ _ joined

theorem PlainLine.exists_not_blank (h : PlainLine l) (index : Nat) :
    ∃ c ∈ bareLine index l, isBlank c = false := by
  obtain ⟨-, tokens, hscans, hne, -⟩ := h.plainText index
  by_contra hblank
  simp only [not_exists, not_and, Bool.not_eq_false] at hblank
  have hnil := (scans_iff.mp hscans).symm.trans (scanFrom_of_blank hblank 1 0)
  exact hne (congrArg Prod.fst hnil)

theorem PlainLine.exists_scanLine (h : PlainLine l) (index : Nat) {more : Nat → Nat → List Token}
    (ht : Trails t more) :
    ∃ tokens column, tokens ≠ [] ∧ EndsInCode tokens ∧ ∀ joined,
      scanLine .stock index joined l = ⟨index + 1, tokens, joined, false⟩ ∧
      scanLine .stock index joined (l ++ t) =
        ⟨index + 1, tokens ++ more (index + 1) column, joined, false⟩ := by
  obtain ⟨hwhole, tokens, hscans, hne, hcode⟩ := h.plainText index
  obtain ⟨d, hd, hdark⟩ := h.exists_not_blank index
  obtain ⟨gap, hgap, hbare⟩ := exists_bareLine_append (ne_nil_of_mem hd) (ht.last l)
  have hmem {c : Char} (hc : isBlank c = false) (hct : c ∉ t) : c ∉ gap ++ t := by
    rw [mem_append, not_or]
    exact ⟨fun h => by simp [hgap c h] at hc, hct⟩
  have hdetached : Detached (gap ++ t) := by
    cases gap with
    | nil => exact ht.detached
    | cons c gap =>
      have hc := hgap c mem_cons_self
      rintro _ ⟨⟩
      refine ⟨by simp [isStop, hc], ?_⟩
      rintro rfl
      exact absurd hc (by decide)
  have hlonger := hscans.append hcode hdetached (hmem (by decide) ht.quote)
    (hmem (by decide) ht.angle) ((ht.scans _ _).blanks hgap)
  rw [← hbare] at hlonger
  have hwhole' : wholeLine? (index + 1) (bareLine index (l ++ t)) = none :=
    hbare ▸ wholeLine?_append_eq_none hd hdark (by rwa [append_nil]) _
  have hline := scanLine_of_scans hwhole hscans
  have htidy := tidy_scanLine .stock index false l
  have hplain : PlainTokens (index + 1) (bareLine index l) _ := plainTokens_scanFrom .stock 1 0 _
  rw [hline] at htidy
  rw [scans_iff.mp hscans] at hplain
  refine ⟨tokens, _, hne, ⟨htidy.chain, fun t ht => ?_⟩, fun joined =>
    ⟨hline joined, scanLine_of_scans hwhole' hlonger joined⟩⟩
  have hmem := mem_of_getLast? ht
  exact ⟨isKind_eq_false_iff.mp (hplain.newline t hmem), hcode t hmem,
    isKind_eq_false_iff.mp (hplain.note t hmem)⟩

/-! ### A text -/

theorem EndsInCode.append {xs ys : List Token} (hxs : xs.IsChain Precedes)
    (hys : EndsInCode ys) (hne : ys ≠ []) (h : ∀ x ∈ xs.getLast?, ∀ y ∈ ys.head?, x.Precedes y) :
    EndsInCode (xs ++ ys) := by
  refine ⟨hxs.append hys.chain h, ?_⟩
  rw [getLast?_append_of_ne_nil _ hne]
  exact hys.last

/-- The tokens of a line, with a newline behind them unless it is continued. -/
def LineTokens.closed (pending : Bool) (x : LineTokens) : List Token :=
  x.tokens ++
    if !x.continues && (pending || !x.tokens.isEmpty) then [⟨.newline, x.number, none⟩] else []

theorem assemble_cons (pending : Bool) (x : LineTokens) (xs : List LineTokens) :
    assemble pending (x :: xs) = x.closed pending ++
      assemble (x.continues && (pending || !x.tokens.isEmpty)) xs := by
  rw [assemble, LineTokens.closed, append_assoc]
  cases x.continues with
  | true => rfl
  | false => cases pending || !x.tokens.isEmpty <;> rfl

theorem LineTokens.Tidy.endsInCode {x : LineTokens} (h : x.Tidy) (pending : Bool) {ts : List Token}
    (hts : EndsInCode ts) (hne : ts ≠ []) : EndsInCode (x.closed pending ++ ts) := by
  rw [closed, append_assoc]
  split
  · refine .append h.chain (.append (.singleton _) hts hne ?_) (by simp) ?_
    · rintro _ ⟨⟩ u -
      exact .inr ⟨nofun, nofun⟩
    · rintro t - _ ⟨⟩
      exact .inl rfl
  · next hopen =>
    refine .append h.chain hts hne fun t ht u _ => .inr (h.continued ?_ t (mem_of_getLast? ht))
    have hfull : x.tokens ≠ [] := ne_nil_of_mem (mem_of_getLast? ht)
    simpa [hfull] using hopen

theorem exists_front (lines : List Line) (index : Nat) (joined pending : Bool) :
    ∃ front joined' pending', (∀ below, assemble pending
        (scanLines .stock index joined (lines ++ below)) = front ++ assemble pending'
          (scanLines .stock (index + lines.length) joined' below)) ∧
      ∀ ts, EndsInCode ts → ts ≠ [] → EndsInCode (front ++ ts) := by
  induction lines generalizing index joined pending with
  | nil => exact ⟨[], joined, pending, fun _ => rfl, fun _ h _ => h⟩
  | cons line lines ih =>
    have htidy := tidy_scanLine .stock index joined line
    obtain ⟨front, joined', pending', hfront, hends⟩ := ih (index + 1)
      (scanLine .stock index joined line).continues
      ((scanLine .stock index joined line).continues &&
        (pending || !(scanLine .stock index joined line).tokens.isEmpty))
    refine ⟨(scanLine .stock index joined line).closed pending ++ front, joined', pending',
      fun below => ?_, fun ts hts hne => ?_⟩
    · rw [cons_append, scanLines, assemble_cons, hfront, append_assoc, length_cons,
        Nat.add_assoc, Nat.add_comm 1]
    · rw [append_assoc]
      exact htidy.endsInCode pending (hends ts hts hne) (by simp [hne])

theorem linesOf_intercalate_eq_flatMap {parts : List (List Char)} (hne : parts ≠ []) :
    linesOf (List.intercalate ['\n'] parts) = parts.flatMap linesOf := by
  induction parts with
  | nil => exact absurd rfl hne
  | cons part parts ih =>
    cases parts with
    | nil => simp [List.intercalate]
    | cons next parts =>
      rw [flatMap_cons, ← ih (by simp), intercalate_cons_cons, append_assoc]
      exact splitOnP_append_cons _ _ (by simp)

theorem linesOf_intercalate_line (hline : '\n' ∉ l) (above below : List Line) :
    linesOf (List.intercalate ['\n'] (above ++ l :: below)) =
      above.flatMap linesOf ++ l :: below.flatMap linesOf := by
  rw [linesOf_intercalate_eq_flatMap (by simp), flatMap_append, flatMap_cons,
    linesOf_of_not_mem hline, singleton_append]

theorem PlainLine.exists_ending (h : PlainLine l) (hfeed : '\n' ∉ l) (above below : List Line) :
    ∃ (o : Ending) (front : List Token), front ≠ [] ∧ EndsInCode front ∧
      tokenize .stock (List.intercalate ['\n'] (above ++ l :: below)) = front ++ o.bare ∧
      tokenize .stock (List.intercalate ['\n'] (above ++ noted l :: below)) =
        front ++ o.commented := by
  have hfeed' : '\n' ∉ noted l := by simpa [noted] using hfeed
  obtain ⟨front, joined, pending, hfront, hends⟩ :=
    exists_front (above.flatMap linesOf) 0 false false
  generalize 0 + (above.flatMap linesOf).length = index at hfront
  obtain ⟨tokens, column, hne, hcode, hscan⟩ := h.exists_scanLine index trails_note
  obtain ⟨hbare, hcommented⟩ := hscan joined
  rw [← noted] at hcommented
  let rest := assemble false (scanLines .stock (index + 1) false (below.flatMap linesOf))
  refine ⟨⟨noteToken (index + 1) column, ⟨.newline, index + 1, none⟩, rest, rfl, rfl⟩,
    front ++ tokens, by simp [hne], hends tokens hcode hne, ?_, ?_⟩
  · rw [tokenize, linesOf_intercalate_line hfeed, hfront, scanLines, hbare, assemble_cons]
    simp [LineTokens.closed, hne, Ending.bare, rest]
  · rw [tokenize, linesOf_intercalate_line hfeed', hfront, scanLines, hcommented, assemble_cons]
    simp [LineTokens.closed, Ending.commented, rest]

end CommandText
