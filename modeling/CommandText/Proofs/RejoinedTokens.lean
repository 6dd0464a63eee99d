import CommandText.Proofs.LongFloats
import CommandText.Proofs.TokenSpans

/-!
# Tokens that are cut out of a line and joined again

The characters of a token are read as the same token if its neighbours change, as long as a blank
or nothing follows. So a line can be taken apart at the columns of its tokens and put together with
single spaces, and the tokens stay.

References, numbers and words end by themselves where the token ends, and the alternatives that were
tried before them stay without a match on fewer characters. Strings and generic values end with a
character of their own. One generic value looks further: `<%a>` is a value between angle brackets
only because no `%>` follows anywhere on the line, so it has to be shown that joining the pieces
makes no new `%>`.
-/

namespace CommandText

open Token List

open Pattern (inReference)

variable {l : Lexeme}

/-! ### Characters of a token -/

section Trim

variable {w cs : List Char} {x : Scanned}

theorem eq_of_length_takeWhile {p : Char → Bool} (h : ((w ++ cs).takeWhile p).length = w.length) :
    (w ++ cs).takeWhile p = w :=
  (prefix_of_prefix_length_le (List.takeWhile_prefix p) (prefix_append w cs)
    h.le).eq_of_length h

theorem takeWhile_prefix_append (p : Char → Bool) (w cs : List Char) :
    w.takeWhile p <+: (w ++ cs).takeWhile p := by
  rw [takeWhile_append]
  split
  · next hlength =>
    rw [(List.takeWhile_prefix p).eq_of_length hlength]
    exact prefix_append _ _
  · exact prefix_refl _

theorem scanReference?_of_append (h : scanReference? .stock (w ++ cs) = some x)
    (hlength : x.2 = w.length) : scanReference? .stock w = some x := by
  rw [scanReference?_stock] at h
  split at h
  · next hslash =>
    cases h
    have htake := eq_of_length_takeWhile hlength
    rw [htake] at hslash ⊢
    have hself : w.takeWhile inReference = w := by
      rw [takeWhile_eq_self_iff, ← htake]
      exact fun c hc => mem_takeWhile_imp hc
    rw [scanReference?_stock, hself, if_pos hslash]
  · cases h

theorem scanReference?_eq_none_of_append (h : scanReference? .stock (w ++ cs) = none) :
    scanReference? .stock w = none := by
  rw [scanReference?_stock] at h ⊢
  split at h
  · cases h
  · next hslash =>
    exact if_neg fun hmem => hslash ((takeWhile_prefix_append inReference w cs).subset hmem)

theorem scanFloat?_of_append (h : scanFloat? (w ++ cs) = some x) (hlength : x.2 = w.length) :
    scanFloat? w = some x := by
  obtain ⟨l, rest, hl, htext, rfl⟩ := exists_of_scanFloat? h
  obtain ⟨rfl, -⟩ := append_inj htext hlength
  rw [scanFloat?, splitFloat?_written hl]
  rfl

theorem scanHex?_of_append (h : scanHex? (w ++ cs) = some x) (hlength : x.2 = w.length) :
    scanFloat? w = none ∧ scanHex? w = some x := by
  obtain ⟨y, digits, rest, hy, hne, hdigits, htext, rfl⟩ := exists_of_scanHex? h
  obtain ⟨rfl, -⟩ := append_inj htext hlength
  have htake : digits.takeWhile isHexDigit = digits := takeWhile_eq_self_iff.mpr hdigits
  have hdrop : digits.dropWhile isHexDigit = [] := dropWhile_eq_nil_iff.mpr hdigits
  constructor
  · have hsplit : splitFloat? ('0' :: y :: digits) = none := by
      rcases hy with rfl | rfl <;> rfl
    rw [scanFloat?, hsplit]
  · simp [scanHex?, hy, hne, htake, hdrop, startsWithWord]

theorem scanInteger?_of_append (h : scanInteger? (w ++ cs) = some x) (hlength : x.2 = w.length) :
    scanFloat? w = none ∧ scanHex? w = none ∧ scanInteger? w = some x := by
  have hend : EndsHere [] := by simp [EndsHere]
  obtain ⟨sign, digits, rest, n, hsign, hne, hdigits, htext, rfl, rfl⟩ := exists_of_scanInteger? h
  obtain ⟨rfl, -⟩ := append_inj htext hlength
  have hsplit : splitSign (sign.toList ++ digits) = (sign, digits ++ []) := by
    have hread := splitSign_digits hsign hne hdigits []
    rwa [append_nil] at hread
  refine ⟨scanFloat?_of_digits hsplit hdigits hend, ?_,
    scanInteger?_of_digits hsplit hdigits hne hend⟩
  cases sign with
  | none =>
    have hhex := scanHex?_of_digits hdigits hend
    rwa [append_nil] at hhex
  | some c => rcases hsign c rfl with rfl | rfl <;> simp [scanHex?]

theorem isSome_scanBoolean?_iff :
    (scanBoolean? cs).isSome = true ↔ ∃ b, cs.takeWhile isWord = booleanText b := by
  constructor
  · intro h
    obtain ⟨x, hx⟩ := Option.isSome_iff_exists.mp h
    exact takeWhile_of_scanBoolean? hx
  · rintro ⟨b, h⟩
    have hhead := head?_dropWhile_not (p := isWord) (l := cs)
    have hrest : startsWithWord (cs.dropWhile isWord) = false := by
      cases hdrop : cs.dropWhile isWord with
      | nil => rfl
      | cons c rest => simpa [hdrop, startsWithWord] using hhead
    rw [← takeWhile_append_dropWhile (p := isWord) (l := cs), h]
    cases b <;> simp [booleanText, scanBoolean?, hrest]

theorem scanBoolean?_of_append (h : scanBoolean? (w ++ cs) = some x) (hlength : x.2 = w.length) :
    (∃ c ∈ w.head?, startsName c = true) ∧ scanBoolean? w = some x := by
  obtain ⟨b, rest, -, htext, rfl⟩ := exists_of_scanBoolean? h
  obtain ⟨rfl, -⟩ := append_inj htext hlength
  cases b with
  | true => exact ⟨⟨'t', rfl, rfl⟩, rfl⟩
  | false => exact ⟨⟨'f', rfl, rfl⟩, rfl⟩

theorem scanWord?_of_append (h : scanWord? (w ++ cs) = some x) (hlength : x.2 = w.length)
    (hboolean : scanBoolean? (w ++ cs) = none) :
    (∃ c ∈ w.head?, startsName c = true) ∧ scanBoolean? w = none ∧ scanWord? w = some x := by
  obtain ⟨c, word, rest, hname, hword, hstop, htext, hx⟩ := exists_of_scanWord? h
  have hchars : ∀ d ∈ c :: word, isWord d = true :=
    forall_mem_cons.mpr ⟨(of_startsName hname).1, hword⟩
  -- the word is the same without what follows, so it is no boolean
  have hnone {v : List Char} (hv : ∀ d ∈ v.head?, isWord d = false) :
      scanBoolean? (c :: word ++ v) = none := by
    rw [← Option.not_isSome_iff_eq_none, isSome_scanBoolean?_iff,
      takeWhile_append_of_stop hchars hv, ← takeWhile_append_of_stop hchars hstop, htext,
      ← isSome_scanBoolean?_iff, hboolean]
    simp
  rcases hx with ⟨tail, rfl, rfl⟩ | rfl
  · rw [append_cons] at htext
    obtain ⟨rfl, -⟩ := append_inj htext (by simpa using hlength)
    have hstop : ∀ d ∈ [':'].head?, isWord d = false := hstop
    refine ⟨⟨c, rfl, hname⟩, hnone hstop, ?_⟩
    simp [scanWord?, hname, takeWhile_append_of_stop hword hstop,
      dropWhile_append_of_stop hword hstop]
  · obtain ⟨rfl, -⟩ := append_inj htext hlength
    refine ⟨⟨c, rfl, hname⟩, by simpa using hnone (v := []) (by simp), ?_⟩
    simp [scanWord?, hname, takeWhile_eq_self_iff.mpr hword, dropWhile_eq_nil_iff.mpr hword]

theorem scanNumber_of_startsName (h : ∃ c ∈ w.head?, startsName c = true) :
    scanFloat? w = none ∧ scanHex? w = none ∧ scanInteger? w = none ∧ scanString? w = none := by
  obtain ⟨c, hc, hname⟩ := h
  obtain ⟨w, rfl⟩ := head?_eq_some_iff.mp hc
  obtain ⟨-, hdigit, hminus, hplus, hquote, -⟩ := of_startsName hname
  obtain ⟨hfloat, hhex, hinteger⟩ := scanNumber_eq_none hdigit hminus hplus w
  exact ⟨hfloat, hhex, hinteger, by simp [scanString?, hquote]⟩

theorem scanFirm?_punct (p : Punct) : scanFirm? [p.char] = some (.punct p, 1) := by
  cases p <;> decide +kernel

theorem scanFirm?_of_append (h : scanFirm? (w ++ cs) = some x) (hlength : x.2 = w.length)
    (hne : w ≠ []) (hquote : ∀ c ∈ w.head?, c ≠ '"') : scanFirm? w = some x := by
  have hstring : scanString? (w ++ cs) = none := by
    obtain ⟨c, w, rfl⟩ := exists_cons_of_ne_nil hne
    simp [scanString?, hquote c rfl]
  simp only [scanFirm?, Option.orElse_eq_orElse, Option.orElse_eq_or, Option.or_eq_some_iff] at h
  rcases h with h | ⟨hreference, h | ⟨-, h | ⟨-, h | ⟨-, h | ⟨-, h | ⟨hboolean, h | ⟨-, h⟩⟩⟩⟩⟩⟩⟩
  · simp [scanFirm?, scanReference?_of_append h hlength]
  all_goals have hreference := scanReference?_eq_none_of_append hreference
  · simp [scanFirm?, hreference, scanFloat?_of_append h hlength]
  · simp [scanFirm?, hreference, scanHex?_of_append h hlength]
  · simp [scanFirm?, hreference, scanInteger?_of_append h hlength]
  · rw [hstring] at h
    cases h
  · obtain ⟨hname, hboolean⟩ := scanBoolean?_of_append h hlength
    simp [scanFirm?, hreference, scanNumber_of_startsName hname, hboolean]
  · obtain ⟨hname, hboolean, hword⟩ := scanWord?_of_append h hlength hboolean
    simp [scanFirm?, hreference, scanNumber_of_startsName hname, hboolean, hword]
  · obtain ⟨p, rest, htext, rfl⟩ := exists_of_scanPunct? h
    have htext : [p.char] ++ rest = w ++ cs := htext
    obtain ⟨rfl, -⟩ := append_inj htext hlength
    exact scanFirm?_punct p

end Trim

/-! ### A token with other neighbours -/

section Neighbours

variable {w cs rest : List Char}

theorem EndsHere.parted (h : EndsHere rest) : Parted w rest :=
  .inl fun c hc => ⟨by simp [isStop, h c hc], (h.stops hc).2.2.2.1⟩

theorem quoted?_append_of_some {raw : List Char} (h : quoted? w = some raw) (rest : List Char) :
    quoted? (w ++ rest) = some raw := by
  fun_induction quoted? w generalizing raw with
  | case1 | case3 => cases h
  | case2 => simpa [quoted?] using h
  | case4 c w ih =>
    obtain ⟨raw, hraw, rfl⟩ := Option.map_eq_some_iff.mp h
    rw [cons_append, cons_append, quoted?, ih hraw, Option.map_some]
  | case5 c w hquote hlast hpair ih =>
    obtain ⟨raw, hraw, rfl⟩ := Option.map_eq_some_iff.mp h
    rw [cons_append, quoted?_cons_of_ne hquote (ne_backslash_of_quoted hlast hpair), ih hraw,
      Option.map_some]

theorem upToPercent?_of_append_eq_none (h : upToPercent? (w ++ cs) = none) :
    upToPercent? w = none ∧ upToPercent? cs = none := by
  constructor
  · rw [Option.eq_none_iff_forall_ne_some]
    intro inner hinner
    rw [(upToPercent?_append_eq_some_iff (length_upToPercent? hinner)).mpr hinner] at h
    cases h
  · induction w with
    | nil => exact h
    | cons c w ih =>
      refine ih ?_
      rw [cons_append] at h
      unfold upToPercent? at h
      split at h
      · next heq => cases heq
      · cases h
      · next _ heq =>
        obtain ⟨-, rfl⟩ := cons.inj heq
        exact Option.map_eq_none_iff.mp h

theorem upToPercent?_append_eq_none (hmeet : w.getLast? = some '%' → cs.head? ≠ some '>')
    (hw : upToPercent? w = none) (hcs : upToPercent? cs = none) :
    upToPercent? (w ++ cs) = none := by
  fun_induction upToPercent? w with
  | case1 => exact hcs
  | case2 => cases hw
  | case3 c w hpercent ih =>
    rw [cons_append, upToPercent?_cons_of_ne, Option.map_eq_none_iff]
    · refine ih (fun hlast => hmeet ?_) (Option.map_eq_none_iff.mp hw)
      rw [getLast?_cons, hlast]
      rfl
    · rintro rest rfl heq
      cases w with
      | nil => exact hmeet rfl (by simp [show cs = '>' :: rest from heq])
      | cons d w =>
        obtain ⟨rfl, -⟩ := cons.inj heq
        exact hpercent w rfl rfl

theorem scanGeneric?_rejoin {x : Scanned} (h : scanGeneric? ('<' :: (w ++ cs)) = some x)
    (hlength : x.2 = w.length + 1) (hpercent : upToPercent? cs = none → upToPercent? rest = none) :
    scanGeneric? ('<' :: (w ++ rest)) = some x := by
  rw [scanGeneric?_cons, Option.or_eq_some_iff] at h ⊢
  rcases h with h | ⟨hnone, h⟩
  · left
    have hle := hlength.le
    rwa [scanPercents?_append_eq_some_iff hle] at h ⊢
  · right
    obtain ⟨inner, rest', hinner, htext, rfl⟩ := exists_of_scanAngles? h
    rw [append_cons] at htext
    obtain ⟨rfl, -⟩ := append_inj htext.symm (by simpa using hlength.symm)
    constructor
    · cases inner with
      | nil => rfl
      | cons c inner =>
        by_cases hc : c = '%'
        · subst hc
          have hrest : upToPercent? (inner ++ ['>'] ++ cs) = none := Option.map_eq_none_iff.mp hnone
          obtain ⟨hinside, hbehind⟩ := upToPercent?_of_append_eq_none hrest
          have hjoined : upToPercent? (inner ++ ['>'] ++ rest) = none :=
            upToPercent?_append_eq_none (by simp) hinside (hpercent hbehind)
          rw [cons_append, cons_append, scanPercents?, hjoined, Option.map_none]
        · simp [scanPercents?, hc]
    · have hstop : ∀ c ∈ ('>' :: rest).head?, (c != '>') = false := by simp
      rw [append_assoc, singleton_append]
      simp [scanAngles?, takeWhile_append_of_stop hinner hstop]

theorem scanFirm?_or_scanGeneric?_of_scan {n : Nat} (h : scan .stock cs = .token l n)
    (hclean : l.kind ≠ .error) (hcode : l.kind ≠ .comment) :
    scanFirm? cs = some (l, n) ∨ scanGeneric? cs = some (l, n) := by
  rw [scan, scanSolid?_eq] at h
  cases hfirm : scanFirm? cs with
  | some x =>
    simp only [hfirm] at h
    cases h
    exact .inl rfl
  | none =>
    rw [hfirm] at h
    right
    cases hcomment : scanComment? cs with
    | some x =>
      rw [hcomment] at h
      cases h
      unfold scanComment? at hcomment
      split at hcomment <;> cases hcomment
      exact absurd rfl hcode
    | none =>
      simp only [hcomment, Option.orElse_eq_orElse, Option.orElse_eq_or, Option.or_none] at h
      split at h
      · cases h
      · split at h
        · next hgeneric =>
          cases h
          exact hgeneric
        · split at h <;> cases h
          exact absurd rfl hclean

theorem scan_rejoin (hne : w ≠ []) (hscan : scan .stock (w ++ cs) = .token l w.length)
    (hclean : l.kind ≠ .error) (hcode : l.kind ≠ .comment) (hrest : EndsHere rest)
    (hpercent : upToPercent? cs = none → upToPercent? rest = none) :
    scan .stock (w ++ rest) = .token l w.length := by
  obtain ⟨c, w, rfl⟩ := exists_cons_of_ne_nil hne
  by_cases hquote : c = '"'
  · rw [hquote, cons_append, scan_quote] at hscan ⊢
    cases hraw : quoted? (w ++ cs) with
    | none =>
      rw [hraw] at hscan
      obtain ⟨rfl, -⟩ := Scan.token.inj hscan
      exact absurd rfl hclean
    | some raw =>
      rw [hraw] at hscan
      obtain ⟨rfl, hlength⟩ := Scan.token.inj hscan
      rw [length_cons] at hlength
      rw [quoted?_append_of_some (quoted?_of_append hraw (by omega)) rest]
      simp [hlength]
  · rcases scanFirm?_or_scanGeneric?_of_scan hscan hclean hcode with hfirm | hgeneric
    · have hfirm := scanFirm?_of_append hfirm rfl hne (by simpa using hquote)
      have hstring (cs : List Char) : scanString? (c :: cs) = none := by
        simp [scanString?, hquote]
      have happend : scanFirm? (c :: w ++ rest) = scanFirm? (c :: w) :=
        scanFirm?_append hrest.parted hne (by rw [cons_append, hstring, hstring])
      refine scan_of_scanSolid? ?_
      rw [scanSolid?_eq, happend, hfirm]
      rfl
    · obtain rfl : c = '<' := by
        by_contra hc
        simp [scanGeneric?, hc] at hgeneric
      have hgeneric := scanGeneric?_rejoin hgeneric rfl hpercent
      rw [cons_append, scan_angle, hgeneric]

end Neighbours

/-! ### Joined pieces -/

/-- The pieces that the tokens of a line cut out of it, each with what it says, and the line that
they make with single spaces between them. -/
structure Rejoins (column : Nat) (cs : List Char) (tokens : List Token)
    (forms : List (List Char × Lexeme)) : Prop where
  lexemes : forms.map Prod.snd = tokens.map Token.lexeme
  sources : ∀ before : List Char, before.length + 1 = column →
    tokens.filterMap (Token.source (before ++ cs)) = forms.map Prod.fst
  scans : ∀ column,
    Scans 1 column (List.intercalate [' '] (forms.map Prod.fst)) (tokensOf column forms)
  head : (List.intercalate [' '] (forms.map Prod.fst)).head? = (skipBlanks cs).head?
  percent : upToPercent? cs = none →
    upToPercent? (List.intercalate [' '] (forms.map Prod.fst)) = none

section Rejoins

variable {line column : Nat} {w cs : List Char} {tokens : List Token}
  {forms : List (List Char × Lexeme)}

theorem Rejoins.nil : Rejoins column [] [] [] := ⟨rfl, fun _ _ => rfl, fun _ => .nil, rfl, id⟩

theorem Rejoins.blank {c : Char} (hc : isBlank c = true)
    (h : Rejoins (column + 1) cs tokens forms) : Rejoins column (c :: cs) tokens forms where
  lexemes := h.lexemes
  sources before hbefore := by
    have hsources := h.sources (before ++ [c]) (by simp [hbefore])
    rwa [append_assoc, singleton_append] at hsources
  scans := h.scans
  head := by rw [h.head, skipBlanks, skipBlanks, dropWhile_cons_of_pos hc]
  percent hnone := h.percent (upToPercent?_of_append_eq_none (w := [c]) hnone).2

theorem skipBlanks_eq_self (h : ∀ c ∈ cs.head?, isBlank c = false) : skipBlanks cs = cs := by
  cases cs with
  | nil => rfl
  | cons c cs => exact dropWhile_cons_of_neg (by simp [h c rfl])

theorem isBlank_head_skipBlanks : ∀ c ∈ (skipBlanks cs).head?, isBlank c = false := by
  intro c hc
  have hhead := head?_dropWhile_not (p := isBlank) (l := cs)
  rw [show (cs.dropWhile isBlank).head? = some c from hc] at hhead
  simpa using hhead

theorem skipBlanks_of_scan {n : Nat} (h : scan .stock cs = .token l n) : skipBlanks cs = cs := by
  refine skipBlanks_eq_self fun c hc => ?_
  obtain ⟨cs, rfl⟩ := head?_eq_some_iff.mp hc
  by_contra hblank
  rw [Bool.not_eq_false] at hblank
  rw [scan_of_isBlank hblank] at h
  cases h

theorem source_of_span (before w cs : List Char) (l : Lexeme)
    (hcolumn : before.length + 1 = column) :
    source (before ++ (w ++ cs)) ⟨l, line, some ⟨column, column + w.length - 1⟩⟩ =
      some w := by
  subst hcolumn
  rw [source, Option.map_some]
  simp only [Nat.add_sub_cancel, show before.length + 1 + w.length - 1 = before.length + w.length by
    omega, take_length_add_append, take_left, drop_left]

theorem Rejoins.token (hne : w ≠ []) (hscan : scan .stock (w ++ cs) = .token l w.length)
    (hclean : l.kind ≠ .error) (hlast : l.kind = .comment → forms = [])
    (h : Rejoins (column + w.length) cs tokens forms) :
    Rejoins column (w ++ cs) (⟨l, line, some ⟨column, column + w.length - 1⟩⟩ :: tokens)
      ((w, l) :: forms) where
  lexemes := by rw [map_cons, map_cons, h.lexemes]
  sources before hbefore := by
    have hsources := h.sources (before ++ w) (by rw [length_append]; omega)
    rw [append_assoc] at hsources
    rw [filterMap_cons_some (source_of_span before w cs l hbefore), hsources, map_cons]
  scans column := by
    cases forms with
    | nil =>
      have hend : scan .stock (w ++ []) = .token l w.length := by
        by_cases hcode : l.kind = .comment
        · have hlength : w.length = (w ++ cs).length := (plain_scan hscan).comment hcode
          obtain rfl : cs = [] := by simpa using hlength
          exact hscan
        · exact scan_rejoin hne hscan hclean hcode (by simp [EndsHere]) fun _ => rfl
      have hscans : Scans 1 column (w ++ []) _ := .token hne hend .nil
      simpa [tokensOf] using hscans
    | cons next forms =>
      have hcode : l.kind ≠ .comment := fun hcode => cons_ne_nil _ _ (hlast hcode)
      have hrest := h.scans (column + w.length + 1)
      have hpercent := h.percent
      rw [map_cons] at hrest hpercent
      rw [map_cons, map_cons, intercalate_cons_cons, append_assoc,
        singleton_append]
      refine .token hne (scan_rejoin hne hscan hclean hcode ?_ fun hcs => ?_) (.blank rfl hrest)
      · rintro c ⟨⟩
        rfl
      · exact upToPercent?_append_eq_none (w := [' ']) (by simp) rfl (hpercent hcs)
  head := by
    obtain ⟨tail, htail⟩ := exists_intercalate_eq w (forms.map Prod.fst)
    obtain ⟨c, v, rfl⟩ := exists_cons_of_ne_nil hne
    rw [map_cons, htail, skipBlanks_of_scan hscan]
    rfl
  percent hnone := by
    obtain ⟨hw, hcs⟩ := upToPercent?_of_append_eq_none hnone
    cases forms with
    | nil => simpa using hw
    | cons next forms =>
      have hrest := h.percent hcs
      rw [map_cons] at hrest
      rw [map_cons, map_cons, intercalate_cons_cons, append_assoc]
      refine upToPercent?_append_eq_none (by simp) hw ?_
      exact upToPercent?_append_eq_none (by simp) rfl hrest

theorem Scans.exists_rejoins (h : Scans line column cs tokens)
    (hclean : ∀ t ∈ tokens, t.kind ≠ .error) : ∃ forms, Rejoins column cs tokens forms := by
  induction h with
  | nil => exact ⟨[], .nil⟩
  | blank hc _ ih =>
    obtain ⟨forms, hforms⟩ := ih hclean
    exact ⟨forms, hforms.blank hc⟩
  | @token column w cs lexeme tokens hne hscan hrest ih =>
    obtain ⟨hfirst, hothers⟩ := forall_mem_cons.mp hclean
    obtain ⟨forms, hforms⟩ := ih hothers
    refine ⟨_, hforms.token hne hscan hfirst fun hcode => ?_⟩
    -- a comment takes all characters that are left
    have hlength : w.length = (w ++ cs).length := (plain_scan hscan).comment hcode
    obtain rfl : cs = [] := by simpa using hlength
    obtain rfl : tokens = [] := by
      rw [scans_iff, scanFrom] at hrest
      exact (Prod.mk.inj hrest).1.symm
    simpa using hforms.lexemes

end Rejoins

/-! ### Texts of one line -/

section OneLine

variable {text : List Char}

/-- The tokens of a line, with a line end if there are any. -/
def terminated (tokens : List Token) : List Token :=
  if tokens = [] then [] else tokens ++ [⟨.newline, 1, none⟩]

/-- A text of one line, with no byte order mark in front. -/
structure IsLine (text : List Char) : Prop where
  newline : '\n' ∉ text
  carriageReturn : '\r' ∉ text
  unmarked : Unmarked text

theorem IsLine.bareLine (h : IsLine text) : bareLine 0 text = text := by
  rw [bareLine_eq fun _ => h.unmarked]
  exact if_neg fun hlast => h.carriageReturn (mem_of_getLast? hlast)

theorem IsLine.tokenize (h : IsLine text) (hends : (scanBare .stock 1 text).2 = false) :
    tokenize .stock text = terminated (scanBare .stock 1 text).1 := by
  rw [CommandText.tokenize, linesOf_of_not_mem h.newline, scanLines, scanLine_eq, h.bareLine]
  simp only [scanLines, assemble, hends, terminated]
  cases (scanBare .stock 1 text).1 <;> rfl

theorem exists_tokenize_eq {w cs : List Char} (hnewline : '\n' ∉ w ++ cs)
    (hreturn : (w ++ cs).getLast? ≠ some '\r') (hmark : Unmarked (w ++ cs))
    (hwhole : wholeLine? 1 (w ++ cs) = none) (hne : w ≠ [])
    (hscan : scan .stock (w ++ cs) = .token l w.length) : ∃ tokens,
      CommandText.tokenize .stock (w ++ cs) = ⟨l, 1, some ⟨1, w.length⟩⟩ :: tokens ∧
        (cs = [] → tokens = [⟨.newline, 1, none⟩]) := by
  have hbare : CommandText.bareLine 0 (w ++ cs) = w ++ cs := by
    rw [bareLine_eq fun _ => hmark]
    exact if_neg hreturn
  rw [CommandText.tokenize, linesOf_of_not_mem hnewline, scanLines, scanLine_eq, hbare, scanBare,
    hwhole]
  simp only [scanFrom_token hne hscan, scanLines, assemble, cons_append, Nat.add_sub_cancel_left]
  refine ⟨_, rfl, ?_⟩
  rintro rfl
  rfl

theorem lexemes_closed {tokens tokens' : List Token}
    (h : tokens'.map lexeme = tokens.map lexeme) :
    (terminated tokens').map lexeme = (terminated tokens).map lexeme := by
  cases tokens with
  | nil =>
    obtain rfl : tokens' = [] := by simpa using h
    rfl
  | cons t tokens =>
    have hne : tokens' ≠ [] := by
      rintro rfl
      cases h
    simp [terminated, hne, h]

theorem sources_closed (tokens : List Token) :
    (terminated tokens).filterMap (source text) = tokens.filterMap (source text) := by
  rw [terminated]
  split
  · next hnil => rw [hnil]
  · simp [source]

theorem mem_of_mem_sources {tokens : List Token} :
    ∀ w ∈ tokens.filterMap (source text), ∀ c ∈ w, c ∈ text := by
  intro w hw c hc
  obtain ⟨t, -, ht⟩ := mem_filterMap.mp hw
  obtain ⟨span, -, rfl⟩ := Option.map_eq_some_iff.mp ht
  exact mem_of_mem_take (mem_of_mem_drop hc)

theorem wholeLine?_eq_none_iff {number : Nat} {line : Line} : wholeLine? number line = none ↔
    (skipBlanks line).head? ≠ some '#' ∧ (skipBlanks line).head? ≠ some '@' := by
  simp only [wholeLine?]
  split
  · next hskip => simp [hskip]
  · next hskip => simp [hskip]
  · next hhash hat =>
    refine iff_of_true rfl ⟨fun h => ?_, fun h => ?_⟩
    · obtain ⟨cs, hcs⟩ := head?_eq_some_iff.mp h
      exact hhash cs hcs
    · obtain ⟨cs, hcs⟩ := head?_eq_some_iff.mp h
      exact hat cs hcs

theorem wholeLine?_source {t : Token} (h : wholeLine? 1 text = some t) :
    t.source text = some (skipBlanks text) ∧
      (wholeLine? 1 (skipBlanks text)).map lexeme = some t.lexeme := by
  constructor
  · obtain ⟨-, -, hspan⟩ := eq_of_wholeLine? h
    rw [source, hspan, Option.map_some, take_length, Nat.add_sub_cancel]
    have htext := takeWhile_append_dropWhile (p := isBlank) (l := text)
    rw [skipBlanks]
    nth_rewrite 2 [← htext]
    rw [drop_left]
  · simp only [wholeLine?, skipBlanks_eq_self isBlank_head_skipBlanks] at h ⊢
    split at h
    · next hcs =>
      cases h
      rw [hcs]
      rfl
    · next hcs =>
      cases h
      rw [hcs]
      rfl
    · cases h

theorem lexemes_tokensOf (column : Nat) (forms : List (List Char × Lexeme)) :
    (tokensOf column forms).map lexeme = forms.map Prod.snd := by
  induction forms generalizing column with
  | nil => rfl
  | cons form forms ih => rw [tokensOf, map_cons, ih, map_cons]

theorem scanBare_rejoined (hends : (scanBare .stock 1 text).2 = false)
    (hclean : ∀ t ∈ (scanBare .stock 1 text).1, t.kind ≠ .error) :
    let joined :=
      List.intercalate [' '] ((scanBare .stock 1 text).1.filterMap (source text))
    (scanBare .stock 1 joined).2 = false ∧
      (scanBare .stock 1 joined).1.map lexeme =
        (scanBare .stock 1 text).1.map lexeme := by
  cases hwhole : wholeLine? 1 text with
  | some t =>
    have htext : scanBare .stock 1 text = ([t], false) := by rw [scanBare, hwhole]
    obtain ⟨hsource, hlexeme⟩ := wholeLine?_source hwhole
    obtain ⟨t', hwhole', hlexeme⟩ := Option.map_eq_some_iff.mp hlexeme
    have hjoined : scanBare .stock 1 (skipBlanks text) = ([t'], false) := by rw [scanBare, hwhole']
    simp [htext, hsource, hjoined, hlexeme]
  | none =>
    have htext : scanBare .stock 1 text = scanFrom .stock 1 1 0 text := by rw [scanBare, hwhole]
    rw [htext] at hends hclean ⊢
    obtain ⟨forms, hforms⟩ := (scans_iff.mpr (Prod.ext rfl hends)).exists_rejoins hclean
    have hscan := scans_iff.mp (hforms.scans 1)
    have hhead := hforms.head
    have hsources := hforms.sources [] rfl
    rw [nil_append] at hsources
    dsimp only
    rw [hsources]
    generalize List.intercalate [' '] (forms.map Prod.fst) = joined at hscan hhead ⊢
    have hself : skipBlanks joined = joined := by
      refine skipBlanks_eq_self fun c hc => ?_
      rw [hhead] at hc
      exact isBlank_head_skipBlanks c hc
    have hwhole' : wholeLine? 1 joined = none := by
      rwa [wholeLine?_eq_none_iff, hself, hhead, ← @wholeLine?_eq_none_iff 1]
    rw [scanBare, hwhole']
    simp only [hscan, lexemes_tokensOf, hforms.lexemes, and_self]

theorem isLine_rejoined (h : IsLine text) (hends : (scanBare .stock 1 text).2 = false)
    (hclean : ∀ t ∈ (scanBare .stock 1 text).1, t.kind ≠ .error) :
    IsLine (List.intercalate [' '] ((scanBare .stock 1 text).1.filterMap (source text))) := by
  have hchars (c : Char) (hc : c ≠ ' ') (hmem : c ∈ List.intercalate [' ']
      ((scanBare .stock 1 text).1.filterMap (source text))) : c ∈ text := by
    exact forall_mem_intercalate (P := fun c => c ≠ ' ' → c ∈ text) (absurd rfl)
      (fun w hw c hc _ => mem_of_mem_sources w hw c hc) c hmem hc
  have hlexemes := (scanBare_rejoined hends hclean).2
  refine ⟨fun hmem => h.newline (hchars _ (by decide) hmem),
    fun hmem => h.carriageReturn (hchars _ (by decide) hmem), @unmarked_of_clean _ 1 fun t ht => ?_⟩
  have hmem := mem_map_of_mem (f := lexeme) (mem_of_mem_filter ht)
  rw [hlexemes] at hmem
  obtain ⟨u, hu, hlexeme⟩ := mem_map.mp hmem
  rw [kind, ← hlexeme]
  exact hclean u hu

/-- A text of one line is cut into the pieces of its tokens, and the pieces are joined by single
spaces: the tokens stay, with all that they say. -/
theorem lexemes_rejoined (htext : IsLine text)
    (hclean : ∀ t ∈ tokenize .stock text, t.kind ≠ .error)
    (hends : (scanLine .stock 0 false text).continues = false) :
    let pieces := (tokenize .stock text).filterMap (Token.source text)
    (tokenize .stock (List.intercalate [' '] pieces)).map Token.lexeme =
      (tokenize .stock text).map Token.lexeme := by
  rw [scanLine_eq, htext.bareLine] at hends
  rw [htext.tokenize hends] at hclean ⊢
  have hkinds : ∀ t ∈ (scanBare .stock 1 text).1, t.kind ≠ .error := by
    intro t ht
    refine hclean t ?_
    rw [terminated, if_neg (List.ne_nil_of_mem ht)]
    exact List.mem_append_left _ ht
  obtain ⟨hends', hlexemes⟩ := scanBare_rejoined hends hkinds
  intro pieces
  rw [show pieces = _ from sources_closed _, (isLine_rejoined htext hends hkinds).tokenize hends']
  exact lexemes_closed hlexemes

/-- Tokens without blanks between them. The second one ends with its bracket because no `%>`
follows. -/
theorem lexemes_rejoined_adjacent :
    let text := "a<%b>12\"%\"k:-007[p/q]<c>#>".toList
    IsLine text ∧ (∀ t ∈ tokenize .stock text, t.kind ≠ .error) ∧
      (scanLine .stock 0 false text).continues = false ∧
      (tokenize .stock "a <%b> 12 \"%\" k: -007 [ p/q ] <c> #>".toList).map Token.lexeme =
        (tokenize .stock text).map Token.lexeme := by
  have hline : IsLine "a<%b>12\"%\"k:-007[p/q]<c>#>".toList :=
    ⟨by decide +kernel, by decide +kernel, by decide +kernel⟩
  have hclean : ∀ t ∈ tokenize .stock "a<%b>12\"%\"k:-007[p/q]<c>#>".toList, t.kind ≠ .error := by
    decide +kernel
  have hends :
      (scanLine .stock 0 false "a<%b>12\"%\"k:-007[p/q]<c>#>".toList).continues = false := by
    decide +kernel
  refine ⟨hline, hclean, hends, ?_⟩
  refine Eq.trans (congrArg (fun cs => (tokenize .stock cs).map Token.lexeme) ?_)
    (lexemes_rejoined hline hclean hends)
  decide +kernel

end OneLine

end CommandText
