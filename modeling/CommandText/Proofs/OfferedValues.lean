import CommandText.Editor.Completion
import CommandText.Proofs.CommentTexts
import CommandText.Proofs.RejoinedTokens
import CommandText.Schema.Build

/-!
# Values that can be inserted

Completion offers texts for the values of a feature, and what is put into the document has to be
read as a value again. An enum literal may be any text: it is offered as it stands only if it is a
word that nothing else can start with, and between quotes otherwise. The default of a float feature
is offered as it is written in JSON, whose numbers are not all numbers of the notation: an integer
may be too large, and an exponent may follow a single digit without a point.
-/

namespace CommandText

open List BuildM

open Pattern (inReference)

/-! ### Enum literals -/

theorem exists_written_literal (l : String) : ∃ lexeme : Lexeme,
    Written (literalText l).toList lexeme ∧ lexeme.text = l ∧
      (lexeme.kind = .identifier ∨ lexeme.kind = .string) := by
  rw [literalText]
  split
  · next hbare =>
    simp only [isBareWord, Bool.and_eq_true, bne_iff_ne, ne_eq] at hbare
    obtain ⟨⟨⟨hfirst, hword⟩, htrue⟩, hfalse⟩ := hbare
    have hne (w : String) (h : ¬l = w) : l.toList ≠ w.toList :=
      fun heq => h (String.toList_inj.mp heq)
    replace htrue := hne "true" htrue
    replace hfalse := hne "false" hfalse
    have htext : String.ofList l.toList = l := String.ofList_toList
    generalize l.toList = cs at *
    cases cs with
    | nil => cases hfirst
    | cons c cs =>
      obtain ⟨-, hcs⟩ := forall_mem_cons.mp (all_eq_true.mp hword)
      let n : Name := ⟨c, cs, hfirst, hcs, htrue, hfalse⟩
      exact ⟨_, n.written_identifier, htext, .inl rfl⟩
  · refine ⟨.string l, ?_, rfl, .inr rfl⟩
    rw [String.toList_ofList]
    exact written_string l

theorem exists_tokensOf_concat (column : Nat) (before : List (List Char × Lexeme)) (w : List Char)
    (l : Lexeme) : ∃ t : Token, t.lexeme = l ∧
      tokensOf column (before ++ [(w, l)]) = tokensOf column before ++ [t] := by
  induction before generalizing column with
  | nil => exact ⟨_, rfl, rfl⟩
  | cons form before ih =>
    obtain ⟨t, ht, htokens⟩ := ih (column + form.1.length + 1)
    exact ⟨t, ht, congrArg (_ :: ·) htokens⟩

/-- A value of an enum is offered for each of its literals. Behind whatever is written in front of
it on the line, such as a command and a label, it is read as one token, and binding the token stores
the literal and tells nothing. -/
theorem offered_literals_read {s : Schema} (hpattern : s.pattern = .stock) {f : FeatureId}
    {e : EnumId} (hkind : (s.featureAt f).kind = .data (.enum e)) (context : Context)
    (options : CompletionOptions) :
    s.featureCompletions f context options =
        (s.enumAt e).literals.map (fun l => s.valueCompletion f (literalText l)) ∧
      ∀ l ∈ (s.enumAt e).literals, ∀ before : List (List Char × Lexeme),
        (∀ form ∈ before, Written form.1 form.2) → ∃ t : Token,
          tokenize s.pattern (List.intercalate [' '] (before.map Prod.fst ++
              [(s.valueCompletion f (literalText l)).insert.toList])) =
            tokensOf 1 before ++ [t, ⟨.newline, 1, none⟩] ∧
          ∀ (τ : Type) (id : ElementId) (b : Building τ), bindValue s id f t b =
            ((), { b with model := b.model.addValue id f (.enum l) }) := by
  refine ⟨?_, fun l hl before hbefore => ?_⟩
  · rw [Schema.featureCompletions, hkind]
    exact map_map
  · obtain ⟨lexeme, hwritten, htext, hword⟩ := exists_written_literal l
    obtain ⟨t, rfl, htokens⟩ := exists_tokensOf_concat 1 before (literalText l).toList lexeme
    have hforms : ∀ form ∈ before ++ [((literalText l).toList, t.lexeme)], Written form.1 form.2 :=
      forall_mem_append.mpr ⟨hbefore, by simpa using hwritten⟩
    have hjoin := tokenize_join (by simp) hforms
    rw [map_append, htokens, append_assoc] at hjoin
    refine ⟨t, hpattern ▸ hjoin, fun τ id b => ?_⟩
    have haccept : s.accept (s.featureAt f) t = .ok (.enum l) := by
      have hfits : t.isKind .generic = false ∧
          (FeatureKind.data (.enum e)).tokenKinds.contains t.kind = true := by
        rw [Token.isKind, Token.kind]
        rcases hword with h | h <;> rw [h] <;> exact ⟨rfl, rfl⟩
      have hliteral : (s.enumAt e).literals.contains t.text = true := by
        rw [Token.text, htext]
        exact contains_iff_mem.mpr hl
      simp only [Schema.accept, hfits, Schema.convert, hkind, hliteral, if_true,
        Bool.false_eq_true, if_false]
      rw [Token.text, htext]
    rw [bindValue, haccept]
    rfl

/-- Lamps with a state, whose literals are not all words, and numbers with defaults. -/
def lamps : SchemaDefinition where
  enums := [{ name := "State", literals := ["on", "true", "", "half \"dim\"\\"] }]
  classes := [
    { name := "Lamp", features := [
      { name := "state", sort := .enum, target := some "State" },
      { name := "gain", sort := .float, default := some (.number ⟨false, ['2'], ['5'], none⟩) },
      { name := "limit", sort := .float, default := some (.number ⟨false, ['1'], [], some 16⟩) }] }]

theorem offered_literals_read_lamps : ∃ s, lamps.build = .ok s ∧
    "half \"dim\"\\" ∈ (s.enumAt 0).literals ∧
    ∀ (context : Context) (options : CompletionOptions), s.featureCompletions 0 context options =
        (s.enumAt 0).literals.map (fun l => s.valueCompletion 0 (literalText l)) ∧ ∃ t : Token,
      tokenize s.pattern "state: \"half \\\"dim\\\"\\\\\"".toList =
        [⟨.label "state", 1, some ⟨1, 6⟩⟩, t, ⟨.newline, 1, none⟩] ∧
      ∀ (τ : Type) (id : ElementId) (b : Building τ), bindValue s id 0 t b =
        ((), { b with model := b.model.addValue id 0 (.enum "half \"dim\"\\") }) := by
  obtain ⟨s, hs⟩ : ∃ s, lamps.build = .ok s := ⟨_, rfl⟩
  have hall : s.pattern = .stock ∧ (s.featureAt 0).kind = .data (.enum 0) ∧
      "half \"dim\"\\" ∈ (s.enumAt 0).literals := by
    cases hs
    decide +kernel
  obtain ⟨hpattern, hkind, hmem⟩ := hall
  have hothers : "tate".toList.all isWord = true := by decide +kernel
  let label : Name :=
    ⟨'s', "tate".toList, by decide, all_eq_true.mp hothers, by decide, by decide⟩
  refine ⟨s, hs, hmem, fun context options => ?_⟩
  obtain ⟨hoffered, hread⟩ := offered_literals_read hpattern hkind context options
  obtain ⟨t, htokens, hbind⟩ := hread _ hmem [("state:".toList, .label "state")]
    (forall_mem_singleton.mpr label.written_label)
  have htext : List.intercalate [' '] ([("state:".toList, Lexeme.label "state")].map Prod.fst ++
      [(s.valueCompletion 0 (literalText "half \"dim\"\\")).insert.toList]) =
      "state: \"half \\\"dim\\\"\\\\\"".toList := by
    simp only [Schema.valueCompletion]
    decide +kernel
  have hbefore : tokensOf 1 [("state:".toList, .label "state")] =
      [⟨.label "state", 1, some ⟨1, 6⟩⟩] := by decide
  rw [htext, hbefore] at htokens
  exact ⟨hoffered, t, htokens, hbind⟩

/-! ### Float literals -/

section Floats

variable {l : FloatLiteral} {c sign : Char} {digits : List Char}

theorem Numeric.ne (hc : Numeric c) : (c ≠ '\n' ∧ c ≠ '\r') ∧ c ≠ '#' ∧ c ≠ '@' ∧ c ≠ '\ufeff' := by
  rcases hc with hc | hc
  · exact ne_of_inReference (inReference_of_isWord (isWord_of_isDigit hc))
  · simp only [mem_cons, not_mem_nil, or_false] at hc
    rcases hc with rfl | rfl | rfl | rfl <;> decide

theorem FloatLiteral.WellFormed.exists_cons (h : l.WellFormed) : ∃ c cs, l.written = c :: cs ∧
    c ≠ '"' ∧ scanReference? .stock (c :: cs) = none := by
  have hdigits : ∀ c ∈ l.whole, isWord c = true := fun c hc => isWord_of_isDigit (h.whole.2 c hc)
  obtain ⟨first, whole, fraction, exponent⟩ := l
  cases first with
  | some c =>
    refine ⟨c, _, rfl, ?_⟩
    rcases h.sign c rfl with rfl | rfl <;>
      exact ⟨by decide, scanReference?_cons_eq_none (inReference_of_ascii (by decide)) _⟩
  | none =>
    obtain ⟨c, cs, rfl⟩ := exists_cons_of_ne_nil h.whole.1
    have hnone (tail : List Char) : scanReference? .stock (c :: cs ++ '.' :: tail) = none := by
      refine scanReference?_of_isWord hdigits ?_
      rintro _ ⟨⟩
      exact inReference_of_ascii (by decide)
    refine ⟨c, _, congrArg (c :: ·) (append_assoc cs ('.' :: fraction) _), ?_, hnone _⟩
    rintro rfl
    exact absurd (h.whole.2 _ mem_cons_self) (by decide)

theorem written_float (h : l.WellFormed) : Written l.written l.lexeme := by
  obtain ⟨c, cs, hcs, hquote, hreference⟩ := h.exists_cons
  have hstring (cs : List Char) : scanString? (c :: cs) = none := by simp [scanString?, hquote]
  have hfloat : scanFloat? l.written = some (l.lexeme, l.written.length) := by
    rw [scanFloat?, splitFloat?_written h]
    rfl
  rw [hcs] at hfloat ⊢
  have hfirm : scanFirm? (c :: cs) = some (l.lexeme, (c :: cs).length) := by
    simp [scanFirm?, hreference, hfloat]
  refine ⟨fun rest hrest => scan_of_scanSolid? ?_, ⟨c, rfl, ?_⟩, fun d hd => ?_⟩
  · have happend := scanFirm?_append hrest.parted (cons_ne_nil c cs)
      (by rw [cons_append, hstring, hstring])
    rw [scanSolid?_eq, happend, hfirm]
    rfl
  · exact (h.numeric c (hcs ▸ mem_cons_self)).ne.2
  · exact (h.numeric d (hcs ▸ hd)).ne.1

theorem first_of_number (hc : c.isDigit = true ∨ c = '-') : isBlank c = false ∧
    Punct.ofChar? c = none ∧ startsName c = false ∧ c ∉ ['t', 'f', '"', '#', '<', '\\'] := by
  have hascii : c.toNat < 128 := by
    rcases hc with hc | rfl
    · exact toNat_lt_of_isDigit hc
    · decide
  have hall := forall_ascii (P := fun c => !(c.isDigit || c == '-') || (!isBlank c &&
    (Punct.ofChar? c).isNone && !startsName c && c ∉ ['t', 'f', '"', '#', '<', '\\']))
    (by decide +kernel) hascii
  have hstart : c.isDigit || c == '-' := by simpa using hc
  simpa [hstart, and_assoc] using hall

theorem scan_eq_error {cs : List Char} (hc : c.isDigit = true ∨ c = '-')
    (hreference : scanReference? .stock (c :: cs) = none) (hfloat : scanFloat? (c :: cs) = none)
    (hhex : scanHex? (c :: cs) = none) (hinteger : scanInteger? (c :: cs) = none) :
    scan .stock (c :: cs) = .token (.error (String.ofList [c])) 1 := by
  obtain ⟨hblank, hpunct, hname, hother⟩ := first_of_number hc
  simp only [mem_cons, not_mem_nil, or_false, not_or] at hother
  obtain ⟨ht, hf, hquote, hhash, hangle, hback⟩ := hother
  have hsolid : scanSolid? .stock (c :: cs) = none := by
    simp [scanSolid?, hreference, hfloat, hhex, hinteger, scanString?, hquote, scanBoolean?, ht, hf,
      scanWord?, hname, scanPunct?, hpunct, scanComment?, hhash]
  simp [scan, hsolid, hblank, scanGeneric?, hangle, isContinuation, hback]

theorem exists_scan_digit_exponent (hc : c.isDigit = true) (hsign : sign = '+' ∨ sign = '-')
    (digits : List Char) (negative : Bool) : ∃ text,
    scan .stock (Layout.signed negative (c :: 'e' :: sign :: digits)) = .token (.error text) 1 := by
  have he : 'e'.isDigit = false := by decide
  have hletter : isWord 'e' = true := (of_startsName (by decide)).1
  have hword : startsWithWord ('e' :: sign :: digits) = true := hletter
  cases negative with
  | true =>
    have hreference := scanReference?_cons_eq_none (inReference_of_ascii (c := '-') (by decide))
    refine ⟨_, scan_eq_error (.inr rfl) (hreference _) ?_ rfl ?_⟩
    · simp [scanFloat?, splitFloat?, splitSign, hc, he]
    · simp [scanInteger?, splitSign, hc, he, hword]
  | false =>
    have hreference : scanReference? .stock ([c, 'e'] ++ sign :: digits) = none := by
      refine scanReference?_of_isWord (forall_mem_cons.mpr ⟨isWord_of_isDigit hc, ?_⟩) ?_
      · exact forall_mem_singleton.mpr hletter
      · rintro _ ⟨⟩
        rcases hsign with rfl | rfl <;> exact inReference_of_ascii (by decide)
    refine ⟨_, scan_eq_error (.inl hc) hreference ?_ ?_ ?_⟩
    · simp [scanFloat?, splitFloat?, splitSign_of_digit hc, hc, he]
    · unfold scanHex?
      split
      · next heq =>
        cases heq
        simp
      · rfl
    · simp [scanInteger?, splitSign_of_digit hc, hc, he, hword]

theorem exists_tokenize_digit_exponent (hc : c.isDigit = true) (hsign : sign = '+' ∨ sign = '-')
    (hdigits : ∀ c ∈ digits, c.isDigit = true) (negative : Bool) : ∃ t tokens,
      tokenize .stock (Layout.signed negative (c :: 'e' :: sign :: digits)) = t :: tokens ∧
        t.kind = .error := by
  obtain ⟨text, hscan⟩ := exists_scan_digit_exponent hc hsign digits negative
  have hnumeric : ∀ d ∈ Layout.signed negative (c :: 'e' :: sign :: digits), Numeric d := by
    have htext := forall_mem_cons.mpr ⟨.inl hc, numeric_exponent hsign hdigits⟩
    cases negative with
    | false => exact htext
    | true => exact forall_mem_cons.mpr ⟨.inr (by simp), htext⟩
  obtain ⟨d, ds, hds, hblank⟩ : ∃ d ds,
      Layout.signed negative (c :: 'e' :: sign :: digits) = [d] ++ ds ∧ isBlank d = false := by
    cases negative with
    | false => exact ⟨_, _, rfl, (first_of_number (.inl hc)).1⟩
    | true => exact ⟨_, _, rfl, (first_of_number (.inr rfl)).1⟩
  rw [hds] at hscan hnumeric ⊢
  have hd := (hnumeric d mem_cons_self).ne.2
  obtain ⟨tokens, htokens, -⟩ := exists_tokenize_eq (fun h => (hnumeric _ h).ne.1.1 rfl)
    (fun h => (hnumeric _ (mem_of_getLast? h)).ne.1.2 rfl) (by simpa [Unmarked] using hd.2.2)
    (wholeLine?_eq_none_iff.mpr (by simpa [skipBlanks, hblank] using ⟨hd.1, hd.2.1⟩))
    (cons_ne_nil d []) hscan
  exact ⟨_, tokens, htokens, rfl⟩

end Floats

/-! ### Default numbers -/

theorem exists_withPoint {digits : List Char} (hdigits : ∀ c ∈ digits, c.isDigit = true)
    {places : Nat} (hplaces : places ≠ 0) : ∃ whole fraction,
      withPoint digits places = whole ++ '.' :: fraction ∧
        (whole ≠ [] ∧ ∀ c ∈ whole, c.isDigit = true) ∧
          fraction ≠ [] ∧ ∀ c ∈ fraction, c.isDigit = true := by
  rw [withPoint, if_neg hplaces]
  have hlength : places < (replicate (places + 1 - digits.length) '0' ++ digits).length := by
    rw [length_append, length_replicate]
    omega
  have hpadded : ∀ c ∈ replicate (places + 1 - digits.length) '0' ++ digits, c.isDigit = true :=
    forall_mem_append.mpr ⟨fun c hc => eq_of_mem_replicate hc ▸ rfl, hdigits⟩
  generalize replicate (places + 1 - digits.length) '0' ++ digits = padded at hlength hpadded
  refine ⟨_, _, rfl, ⟨?_, fun c hc => hpadded c (mem_of_mem_take hc)⟩, ?_,
    fun c hc => hpadded c (mem_of_mem_drop hc)⟩
  · rw [← length_pos_iff, length_take]
    omega
  · rw [← length_pos_iff, length_drop]
    omega

theorem exists_digits_eq (d : Digits) :
    (∃ l : FloatLiteral, l.WellFormed ∧ l.sign = none ∧ JsonNumber.layout.digits d = l.written) ∨
    ∃ c sign digits, c.isDigit = true ∧ (sign = '+' ∨ sign = '-') ∧
      (∀ c ∈ digits, c.isDigit = true) ∧
      JsonNumber.layout.digits d = c :: 'e' :: sign :: digits := by
  have hdigits (n : Nat) : ∀ c ∈ toDigits n, c.isDigit = true :=
    fun c hc => isDigit_of_mem_toDigits hc
  have hne (n : Nat) : toDigits n ≠ [] := Nat.toDigits_ne_nil
  simp only [Layout.digits, JsonNumber.layout]
  split
  · left
    rw [Digits.positional]
    split
    · refine ⟨⟨none, toDigits d.digits ++ replicate d.exponent.toNat '0', ['0'], none⟩,
        ⟨by simp, ⟨by simp [hne], ?_⟩, ⟨by simp, by simp⟩, by simp⟩, rfl,
        by simp [FloatLiteral.written]⟩
      exact forall_mem_append.mpr ⟨hdigits _, fun c hc => eq_of_mem_replicate hc ▸ rfl⟩
    · obtain ⟨whole, fraction, htext, hwhole, hfraction⟩ :=
        exists_withPoint (hdigits d.digits) (by omega : (-d.exponent).toNat ≠ 0)
      exact ⟨⟨none, whole, fraction, none⟩, ⟨by simp, hwhole, hfraction, by simp⟩, rfl,
        by simp [htext, FloatLiteral.written]⟩
  · rw [Digits.scientific]
    have hsign : (if d.leading < 0 then '-' else '+') = '+' ∨
        (if d.leading < 0 then '-' else '+') = '-' := by
      split
      · exact .inr rfl
      · exact .inl rfl
    generalize (if d.leading < 0 then '-' else '+') = sign at hsign
    by_cases hone : (toDigits d.digits).length - 1 = 0
    · right
      obtain ⟨c, hc⟩ : ∃ c, toDigits d.digits = [c] :=
        length_eq_one_iff.mp (by have := length_pos_iff.mpr (hne d.digits); omega)
      refine ⟨c, sign, toDigits d.leading.natAbs, hdigits d.digits c (by simp [hc]), hsign,
        hdigits _, ?_⟩
      simp [hc, withPoint]
    · left
      obtain ⟨whole, fraction, htext, hwhole, hfraction⟩ := exists_withPoint (hdigits d.digits) hone
      refine ⟨⟨none, whole, fraction, some (sign, toDigits d.leading.natAbs)⟩,
        ⟨by simp, hwhole, hfraction, ?_⟩, rfl, by simp [htext, FloatLiteral.written]⟩
      rintro _ ⟨⟩
      exact ⟨hsign, hne _, hdigits _⟩

theorem FloatLiteral.WellFormed.exists_signed {l : FloatLiteral} (h : l.WellFormed)
    (hsign : l.sign = none) (negative : Bool) :
    ∃ l' : FloatLiteral, l'.WellFormed ∧ Layout.signed negative l.written = l'.written := by
  cases negative with
  | false => exact ⟨l, h, rfl⟩
  | true =>
    refine ⟨{ l with sign := some '-' }, ⟨?_, h.whole, h.fraction, h.exponent⟩, ?_⟩
    · rintro _ ⟨⟩
      exact .inl rfl
    · simp [Layout.signed, FloatLiteral.written, hsign]

theorem exists_write_eq (x : Float) :
    (∃ l : FloatLiteral, l.WellFormed ∧ JsonNumber.layout.write x = l.written) ∨
    '.' ∉ JsonNumber.layout.write x ∧ ∃ t tokens,
      tokenize .stock (JsonNumber.layout.write x) = t :: tokens ∧
        (t.kind = .error ∨ t.kind = .identifier) := by
  have hword (w : List Char) (l : Lexeme) (hl : l.kind = .error ∨ l.kind = .identifier) :
      (tokenize .stock w).head?.map Token.lexeme = some l →
      ∃ t tokens, tokenize .stock w = t :: tokens ∧ (t.kind = .error ∨ t.kind = .identifier) := by
    intro h
    obtain ⟨t, ht, rfl⟩ := Option.map_eq_some_iff.mp h
    obtain ⟨tokens, htokens⟩ := head?_eq_some_iff.mp ht
    exact ⟨t, tokens, htokens, hl⟩
  rw [Layout.write]
  split
  · exact .inr ⟨by decide, hword _ (.identifier "NaN") (.inr rfl) (by decide +kernel)⟩
  · next negative _ =>
    cases negative with
    | false => exact .inr ⟨by decide, hword _ (.identifier "inf") (.inr rfl) (by decide +kernel)⟩
    | true => exact .inr ⟨by decide, hword _ (.error "-") (.inl rfl) (by decide +kernel)⟩
  · next negative _ =>
    have hzero : FloatLiteral.WellFormed ⟨none, ['0'], ['0'], none⟩ :=
      ⟨by simp, ⟨by simp, by simp⟩, ⟨by simp, by simp⟩, by simp⟩
    exact .inl (hzero.exists_signed rfl negative)
  · next negative b _ =>
    rcases exists_digits_eq (b.shortest JsonNumber.layout.tie) with
      ⟨l, hl, hsign, htext⟩ | ⟨c, sign, digits, hc, hsign, hdigits, htext⟩
    · rw [htext]
      exact .inl (hl.exists_signed hsign negative)
    · rw [htext]
      right
      obtain ⟨t, tokens, htokens, hkind⟩ :=
        exists_tokenize_digit_exponent hc hsign hdigits negative
      have hpoint (d : Char) (hd : d.isDigit = true) : '.' ≠ d := by
        rintro rfl
        exact absurd hd (by decide)
      refine ⟨?_, t, tokens, htokens, .inl hkind⟩
      have hplain : '.' ∉ c :: 'e' :: sign :: digits := by
        simp only [mem_cons, not_or]
        refine ⟨hpoint c hc, by decide, ?_, fun h => hpoint _ (hdigits _ h) rfl⟩
        rcases hsign with rfl | rfl <;> decide
      cases negative with
      | false => exact hplain
      | true => exact not_mem_cons_of_ne_of_not_mem (by decide) hplain

/-- A number that the notation can read from its JSON text: an integer of 64 bits with a sign, or a
floating-point number that is written with a point. -/
def JsonNumber.Readable : JsonNumber → Prop
  | integer n => n < 2 ^ 63
  | float x => '.' ∈ layout.write x

theorem tokenize_written {w : List Char} {l : Lexeme} (h : Written w l) :
    ∃ t : Token, tokenize .stock w = [t, ⟨.newline, 1, none⟩] ∧ t.kind = l.kind := by
  have hjoin := tokenize_join (cons_ne_nil (w, l) []) (forall_mem_singleton.mpr h)
  rw [map_singleton, intercalate_singleton] at hjoin
  exact ⟨_, hjoin, rfl⟩

theorem le_of_value? {l : NumberLiteral} {n : Int} (h : l.value? = some (.integer n)) :
    -2 ^ 63 ≤ n := by
  simp only [NumberLiteral.value?] at h
  split at h
  · cases h
    omega
  · split at h
    · next hnegative =>
      cases h
      simp only [Bool.and_eq_true, decide_eq_true_eq] at hnegative
      have hbound : ofDigits l.whole ≤ 2 ^ 63 := hnegative.2
      omega
    · simp at h

/-- The default of a float feature is offered as its JSON text. The text is read as one token that
the feature takes exactly if the number is readable. -/
theorem offered_number_read_iff {s : Schema} (hpattern : s.pattern = .stock) {f : FeatureId}
    (hkind : (s.featureAt f).kind = .data .float) {literal : NumberLiteral} {number : JsonNumber}
    (hdefault : (s.featureAt f).default = some (.number literal))
    (hvalue : literal.value? = some number) (context : Context) (options : CompletionOptions) :
    s.featureCompletions f context options =
        [s.valueCompletion f (String.ofList number.text)] ∧
      ((∃ t : Token, tokenize s.pattern number.text = [t, ⟨.newline, 1, none⟩] ∧
        (s.featureAt f).kind.tokenKinds.contains t.kind = true) ↔ number.Readable) := by
  refine ⟨?_, ?_⟩
  · simp [Schema.featureCompletions, hkind, Schema.valueTexts, hdefault, Json.compact, hvalue]
  rw [hpattern, hkind]
  cases number with
  | integer n =>
    obtain ⟨t, htokens, hlexeme⟩ := tokenize_written (written_integerLexeme n)
    have hlow := le_of_value? hvalue
    have htaken : (FeatureKind.data .float).tokenKinds.contains t.kind = true ↔ n < 2 ^ 63 := by
      rw [hlexeme, integerLexeme]
      split
      · next h => exact iff_of_true rfl h.2
      · next h => exact iff_of_false Bool.false_ne_true fun hn => h ⟨hlow, hn⟩
    rw [JsonNumber.text, htokens]
    simpa [JsonNumber.Readable] using htaken
  | float x =>
    rcases exists_write_eq x with ⟨l, hl, htext⟩ | ⟨hpoint, t, tokens, htokens, hother⟩
    · obtain ⟨t, htokens, hlexeme⟩ := tokenize_written (written_float hl)
      refine iff_of_true ⟨t, by rw [JsonNumber.text, htext, htokens], ?_⟩ ?_
      · rw [hlexeme, kind_floatLexeme]
        rfl
      · rw [JsonNumber.Readable, htext, FloatLiteral.written]
        simp
    · refine iff_of_false ?_ hpoint
      rintro ⟨t', htokens', htaken⟩
      rw [JsonNumber.text, htokens] at htokens'
      obtain ⟨rfl, -⟩ := cons.inj htokens'
      rcases hother with h | h <;> rw [h] at htaken <;> exact absurd htaken (by decide)

theorem offered_number_read_iff_lamps : ∃ s, lamps.build = .ok s ∧
    (JsonNumber.float 2.5).Readable ∧ ∀ (context : Context) (options : CompletionOptions),
      s.featureCompletions 1 context options = [s.valueCompletion 1 "2.5"] ∧ ∃ t : Token,
        tokenize s.pattern "2.5".toList = [t, ⟨.newline, 1, none⟩] ∧
          (s.featureAt 1).kind.tokenKinds.contains t.kind = true := by
  obtain ⟨s, hs⟩ : ∃ s, lamps.build = .ok s := ⟨_, rfl⟩
  have htext : (JsonNumber.float 2.5).text = "2.5".toList := by decide +kernel
  have hreadable : (JsonNumber.float 2.5).Readable := by
    show '.' ∈ (JsonNumber.float 2.5).text
    rw [htext]
    decide
  refine ⟨s, hs, hreadable, fun context options => ?_⟩
  have hvalue : NumberLiteral.value? ⟨false, ['2'], ['5'], none⟩ = some (.float 2.5) := by
    decide +kernel
  have hread := offered_number_read_iff (s := s) (by cases hs; rfl) (f := 1) (by cases hs; rfl)
    (by cases hs; rfl) hvalue context options
  rw [htext] at hread
  exact ⟨hread.1, hread.2.mpr hreadable⟩

/-- A default of `1e16` is offered as a text that is read as three tokens, of which the first is an
error. -/
theorem offered_number_unread : ∃ s, lamps.build = .ok s ∧ s.pattern = .stock ∧
    (s.featureAt 2).kind = .data .float ∧
    (∀ (context : Context) (options : CompletionOptions),
      s.featureCompletions 2 context options = [s.valueCompletion 2 "1e+16"]) ∧
    (tokenize s.pattern "1e+16".toList).map Token.lexeme =
      [.error "1", .identifier "e", .integer 16, .newline] := by
  obtain ⟨s, hs⟩ : ∃ s, lamps.build = .ok s := ⟨_, rfl⟩
  have hall : s.pattern = .stock ∧ (s.featureAt 2).kind = .data .float ∧
      s.valueTexts 2 .float = ["1e+16"] ∧ (tokenize s.pattern "1e+16".toList).map Token.lexeme =
        [.error "1", .identifier "e", .integer 16, .newline] := by
    cases hs
    decide +kernel
  obtain ⟨hpattern, hkind, htexts, htokens⟩ := hall
  refine ⟨s, hs, hpattern, hkind, fun context options => ?_, htokens⟩
  rw [Schema.featureCompletions, hkind]
  exact congrArg (List.map _) htexts

end CommandText
