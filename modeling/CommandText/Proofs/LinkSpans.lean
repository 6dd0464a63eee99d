import CommandText.Proofs.CommentTexts
import CommandText.Proofs.RejoinedTokens
import CommandText.Proofs.ValueLink

/-!
# The characters of a link

A link is told in three ways of counting: the cursor and the range of the link in UTF-16 units, the
span of the link in characters, on a line that got a blank at its end. No token that can be a link
ends with a blank, so the span stays within the line, and its characters alone are the same token.
-/

namespace CommandText

open List

variable {line : Line} {t : Token} {link : Link} {s : Schema} {l : Lexeme} {cs : List Char}

/-! ### Tokens by themselves -/

theorem kind_of_scan_of_mark {c : Char} {length : Nat} (hc : c = '#' ∨ c = '@')
    (h : scan .stock (c :: cs) = .token l length) : l.kind = .comment ∨ l.kind = .error := by
  have hstart : Pattern.inReference c = false ∧ startsName c = false ∧ Punct.ofChar? c = none ∧
      isBlank c = false := by
    rcases hc with rfl | rfl <;> exact ⟨inReference_of_ascii (by decide), by decide⟩
  obtain ⟨hreference, hname, hpunct, hblank⟩ := hstart
  have hnone := scanReference?_cons_eq_none hreference cs
  rcases hc with rfl | rfl <;>
    simp [scan, scanSolid?, hnone, scanFloat?, splitFloat?, scanHex?, scanInteger?, splitSign,
      scanString?, scanBoolean?, scanWord?, hname, scanPunct?, hpunct, scanComment?, hblank,
      scanGeneric?, isContinuation] at h
  · exact .inl (h.1 ▸ rfl)
  · exact .inr (h.1 ▸ rfl)

/-- Blanks and the marks of whole lines and of byte orders start neither code nor values. -/
theorem head_of_scan {c : Char} {length : Nat} (h : scan .stock (c :: cs) = .token l length)
    (hclean : l.kind ≠ .error) (hcode : l.kind ≠ .comment) :
    isBlank c = false ∧ c ≠ '#' ∧ c ≠ '@' ∧ c ≠ '\ufeff' := by
  have hmark (hc : c = '#' ∨ c = '@') : False :=
    (kind_of_scan_of_mark hc h).elim hcode hclean
  refine ⟨?_, fun hc => hmark (.inl hc), fun hc => hmark (.inr hc), ?_⟩
  · by_contra hblank
    rw [scan_of_isBlank (by simpa using hblank)] at h
    cases h
  · rintro rfl
    rw [scan_mark] at h
    cases h
    exact hclean rfl

theorem of_isLinkable (h : l.kind.isLinkable = true) :
    l.kind ≠ .error ∧ l.kind ≠ .comment ∧ ∀ c, l.EndsIn c → isBlank c = false := by
  have hends (c : Char) (hc : isStop c = true → c = ':') : isBlank c = false := by
    by_contra hblank
    have hblank : isBlank c = true := by simpa using hblank
    obtain rfl := hc (by rw [isStop, hblank, Bool.true_or])
    exact absurd hblank (by decide)
  cases l with
  | reference | integer | string | identifier =>
    exact ⟨by simp [Lexeme.kind], by simp [Lexeme.kind], hends⟩
  | _ => cases h

theorem isBlank_getLast_of_scan {w : List Char} (hne : w ≠ [])
    (hscan : scan .stock (w ++ cs) = .token l w.length) (hkind : l.kind.isLinkable = true) :
    ∀ c ∈ w.getLast?, isBlank c = false := by
  intro c hc
  refine (of_isLinkable hkind).2.2 c ((placed_scan (by simp [hne]) hscan).ends c ?_)
  rwa [take_left]

/-- The characters of a token that can be a link are read as the token again. -/
theorem tokenize_of_scan {w : List Char} (hfeed : '\n' ∉ w) (hne : w ≠ [])
    (hscan : scan .stock (w ++ cs) = .token l w.length) (hkind : l.kind.isLinkable = true) :
    tokenize .stock w = [⟨l, 1, some ⟨1, w.length⟩⟩, ⟨.newline, 1, none⟩] := by
  obtain ⟨hclean, hcode, -⟩ := of_isLinkable hkind
  have hlast := isBlank_getLast_of_scan hne hscan hkind
  have halone := scan_rejoin hne hscan hclean hcode (by simp [EndsHere] : EndsHere []) fun _ => rfl
  obtain ⟨c, w, rfl⟩ := exists_cons_of_ne_nil hne
  obtain ⟨hblank, hhash, hat, hbom⟩ := head_of_scan hscan hclean hcode
  have hskip : skipBlanks (c :: w) = c :: w := by simp [skipBlanks, hblank]
  have hwhole : wholeLine? 1 (c :: w ++ []) = none := by
    rw [append_nil, wholeLine?_eq_none_iff, hskip]
    simp [hhash, hat]
  have hreturn : (c :: w ++ []).getLast? ≠ some '\r' := by
    rw [append_nil]
    exact fun h => absurd (hlast '\r' h) (by decide)
  obtain ⟨tokens, htokens, hend⟩ := exists_tokenize_eq (by simpa using hfeed) hreturn
    (by simpa [Unmarked] using hbom) hwhole hne halone
  rw [append_nil] at htokens
  rw [htokens, hend rfl]

theorem foundIn_of_mem_tokenize (hfeed : '\n' ∉ line) (hmark : Unmarked line)
    (ht : t ∈ tokenize .stock (line ++ [' '])) (hkind : t.kind.isLinkable = true) :
    t.FoundIn .stock 1 (line ++ [' ']) := by
  have hunmarked : Unmarked (line ++ [' ']) := by
    cases line with
    | nil => exact fun h => by cases h
    | cons c line => exact hmark
  have hbare : bareLine 0 (line ++ [' ']) = line ++ [' '] := by
    rw [bareLine_eq fun _ => hunmarked]
    exact if_neg (by simp)
  obtain ⟨tail, htokens, htail⟩ := exists_tokenize_line .stock
    (fun h => (mem_append.mp h).elim hfeed (by simp) : '\n' ∉ line ++ [' '])
  rw [htokens, hbare, scanBare, mem_append] at ht
  rcases ht with ht | ht
  · cases hwhole : wholeLine? 1 (line ++ [' ']) with
    | none =>
      rw [hwhole] at ht
      exact (walks_scanFrom ..).foundIn ht
    | some u =>
      rw [hwhole] at ht
      obtain rfl := mem_singleton.mp ht
      rcases (wholeLine?_kind hwhole).2 with h | h <;> rw [h] at hkind <;> cases hkind
  · have hnewline := htail t ht
    rw [Token.isKind, beq_iff_eq] at hnewline
    rw [hnewline] at hkind
    cases hkind

/-- A token that can be a link and is found on a line with a blank behind it lies in the line. -/
theorem exists_cut_of_foundIn {a : Span} (h : t.FoundIn .stock 1 (line ++ [' ']))
    (hkind : t.kind.isLinkable = true) (hspan : t.span = some a) :
    ∃ pre w rest cs, line = pre ++ (w ++ rest) ∧ w ≠ [] ∧
      a = ⟨pre.length + 1, pre.length + w.length⟩ ∧
      scan .stock (w ++ cs) = .token t.lexeme w.length := by
  obtain ⟨pre, w, rest, hline, hne, hscan, hplace⟩ := h
  have hlast := isBlank_getLast_of_scan hne hscan hkind
  have ha : a = ⟨pre.length + 1, pre.length + w.length⟩ := by
    rw [hplace] at hspan
    cases hspan
    rw [Nat.add_comm 1, Nat.add_right_comm, Nat.add_sub_cancel]
  cases rest using reverseRecOn with
  | nil =>
    have hblank := congrArg getLast? hline
    rw [getLast?_concat, append_nil, getLast?_append_of_ne_nil _ hne] at hblank
    exact absurd (hlast ' ' hblank.symm) (by decide)
  | append_singleton rest c =>
    rw [← append_assoc, ← append_assoc] at hline
    refine ⟨pre, w, rest, _, ?_, hne, ha, hscan⟩
    rw [(append_inj' hline rfl).1, append_assoc]

/-! ### Links -/

theorem exists_token_of_link? {above : List Line} {column : Nat}
    (h : link? s (above ++ [line]) column = some link) :
    ∃ t ∈ tokenize s.pattern (line ++ [' ']), t.covers (column % columnLimit) = true ∧
      t.span = some link.span ∧ t.kind.isLinkable = true ∧ t.text = link.value := by
  simp only [link?, getLast?_concat, Option.bind_eq_bind, Option.bind_some,
    Option.bind_eq_some_iff] at h
  obtain ⟨outer, -, element, -, index, hindex, t, ht, span, hspan, hlink⟩ := h
  obtain ⟨hlt, hcovers, -⟩ := findIdx?_eq_some_iff_getElem.mp hindex
  rw [(List.getElem?_eq_some_iff.mp ht).2] at hcovers
  split at hlink
  · cases hlink
  · next hkind =>
    cases hlink
    exact ⟨t, List.mem_of_getElem? ht, hcovers, hspan, by simpa using hkind, rfl⟩

/-- A link at a place between two characters covers the place, lies in the line, and the characters
that it covers are, by themselves, one token of its value. -/
theorem linkAt_covers {text : List Char} {place : Position} (hpattern : s.pattern = .stock)
    (hline : (documentLines text)[place.line]? = some line) (hmark : Unmarked line) {k : Nat}
    (hk : k ≤ line.length) (hplace : place.character = unitOffset line k)
    (hlimit : place.character < columnLimit) (h : linkAt s text place = some link) :
    let range := link.range place.line line
    (range.start.line = place.line ∧ range.start.character ≤ place.character) ∧
      (range.stop.line = place.line ∧ place.character < range.stop.character) ∧
      (0 < link.span.first ∧ link.span.last ≤ line.length) ∧ ∃ t,
        tokenize s.pattern ((line.take link.span.last).drop (link.span.first - 1)) =
          [t, ⟨.newline, 1, none⟩] ∧ t.kind.isLinkable = true ∧ t.text = link.value := by
  have hfeed : '\n' ∉ line := fun hc =>
    (mem_of_mem_documentLines (List.mem_of_getElem? hline) hc).2 rfl
  simp only [linkAt, pathTo?, openPath, hline, getLast?_concat, Option.map_some, hplace,
    charColumn_unitOffset hk] at h
  obtain ⟨t, ht, hcovers, hspan, hkind, hvalue⟩ := exists_token_of_link? h
  rw [hpattern] at ht ⊢
  obtain ⟨pre, w, rest, cs, rfl, hne, hcut, hscan⟩ :=
    exists_cut_of_foundIn (foundIn_of_mem_tokenize hfeed hmark ht hkind) hkind hspan
  have htokens := tokenize_of_scan
    (fun hc => hfeed (mem_append_right _ (mem_append_left _ hc))) hne hscan hkind
  have hcolumn : (k + 1) % columnLimit = k + 1 ∨ (k + 1) % columnLimit = 0 := by
    have hle := length_le_unitLength ((pre ++ (w ++ rest)).take k)
    rw [length_take_of_le hk] at hle
    rw [hplace, unitOffset] at hlimit
    rcases Nat.lt_or_eq_of_le (show k + 1 ≤ columnLimit by omega) with hlt | heq
    · exact .inl (Nat.mod_eq_of_lt hlt)
    · exact .inr (by rw [heq, Nat.mod_self])
  have hwithin : pre.length ≤ k ∧ k < pre.length + w.length := by
    simp only [Token.covers, hspan, hcut, Bool.and_eq_true, decide_eq_true_eq] at hcovers
    omega
  have hlength : pre.length + w.length ≤ (pre ++ (w ++ rest)).length := by
    simp only [length_append]
    omega
  refine ⟨⟨rfl, ?_⟩, ⟨rfl, ?_⟩, ?_, ⟨t.lexeme, 1, some ⟨1, w.length⟩⟩, ?_, hkind, hvalue⟩
  · rw [hplace, Link.range, hcut]
    exact unitOffset_mono hwithin.1
  · rw [hplace, Link.range, hcut]
    exact unitOffset_lt hwithin.2 hlength
  · rw [hcut]
    exact ⟨Nat.succ_pos _, hlength⟩
  · rw [hcut]
    simp only [Nat.add_sub_cancel]
    rw [← append_assoc, take_left' (length_append ..), drop_left, htokens]

/-- In a crate, a jar whose name has a character of two units. -/
def smilingJar : List Char := "Crate \x7b\n  Jar \"😀\", tags: [red, blue]\n\x7d".toList

/-- The link at the second character of the second tag. -/
theorem linkAt_covers_smilingJar : ∃ s link, crates.build = .ok s ∧
    linkAt s smilingJar ⟨1, 25⟩ = some link ∧
    link.range 1 "  Jar \"😀\", tags: [red, blue]".toList = ⟨⟨1, 24⟩, ⟨1, 28⟩⟩ ∧ ∃ t,
      tokenize s.pattern "blue".toList = [t, ⟨.newline, 1, none⟩] ∧
        t.kind.isLinkable = true ∧ t.text = "blue" := by
  obtain ⟨s, hs⟩ : ∃ s, crates.build = .ok s := ⟨_, rfl⟩
  have hall : s.pattern = .stock ∧ (linkAt s smilingJar ⟨1, 25⟩).map (fun l => (l.span, l.value)) =
      some (⟨24, 27⟩, "blue") := by
    cases hs
    decide +kernel
  obtain ⟨hpattern, hlink⟩ := hall
  obtain ⟨link, hlink, htold⟩ := Option.map_eq_some_iff.mp hlink
  obtain ⟨hspan, hvalue⟩ := Prod.mk.inj htold
  have hline : (documentLines smilingJar)[1]? =
      some "  Jar \"😀\", tags: [red, blue]".toList := by decide +kernel
  obtain ⟨-, -, -, htoken⟩ := linkAt_covers hpattern hline (by decide) (k := 24) (by decide)
    (by decide +kernel) (by decide +kernel) hlink
  rw [hspan, hvalue] at htoken
  refine ⟨s, link, hs, hlink, ?_, htoken⟩
  rw [Link.range, hspan]
  decide +kernel

end CommandText
