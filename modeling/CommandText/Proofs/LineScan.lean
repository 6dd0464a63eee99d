import CommandText.Proofs.OpenBlocks
import CommandText.Proofs.StockPattern
import Mathlib.Data.List.TakeWhile

/-!
# Scanning a line

What a line is scanned to depends on its characters only, its number apart. A comment or a note ends
its line, punctuation stands for its own character, and blanks are no tokens.
-/

namespace CommandText

open List Pattern Token

variable {c : Char} (pattern : Pattern)

/-! ### Blanks -/

/-- The code points of the blanks. -/
def blankCodes : List Nat :=
  List.range' 0x9 5 ++ [0x20, 0x85, 0xA0, 0x1680] ++ List.range' 0x2000 11 ++
    [0x2028, 0x2029, 0x202F, 0x205F, 0x3000]

theorem toNat_mem_blankCodes (h : isBlank c = true) : c.toNat ∈ blankCodes := by
  have hblocks : CharSet.blank.blocks = [⟨0x3000, [(0x9, 0xD), (0x20, 0x20), (0x85, 0x85),
    (0xA0, 0xA0), (0x1680, 0x1680), (0x2000, 0x200A), (0x2028, 0x2029), (0x202F, 0x202F),
    (0x205F, 0x205F), (0x3000, 0x3000)]⟩] := rfl
  rw [isBlank, CharSet.contains, hblocks] at h
  simp only [CharSet.inBlocks, inRanges] at h
  simp only [blankCodes, mem_append, mem_range'_1, mem_cons, not_mem_nil,
    or_false]
  grind

theorem forall_blank {P : Char → Bool} (h : blankCodes.all fun n => P (Char.ofNat n))
    (hc : isBlank c = true) : P c = true := by
  have hall := all_eq_true.mp h _ (toNat_mem_blankCodes hc)
  rwa [Char.ofNat_toNat] at hall

/-- Characters with which no token starts under the stock pattern. -/
def startsNothing (c : Char) : Bool :=
  !inReference c && !c.isDigit && !startsName c && (Punct.ofChar? c).isNone &&
    c != '-' && c != '+' && c != '"' && c != '#' && c != '@'

theorem startsNothing_of_isBlank (h : isBlank c = true) : startsNothing c = true :=
  forall_blank (by decide +kernel) h

/-! ### One token -/

theorem scanReference?_stock (cs : List Char) :
    scanReference? .stock cs =
      if '/' ∈ cs.takeWhile inReference then
        some (.reference (String.ofList (cs.takeWhile inReference)),
          (cs.takeWhile inReference).length)
      else none := by
  rw [scanReference?, find?_stock]
  split
  · next m hm =>
    split at hm
    · next hslash =>
      cases hm
      have hpos := length_pos_of_mem hslash
      have htake : cs.take (cs.takeWhile inReference).length =
          cs.takeWhile inReference := (prefix_iff_eq_take.mp (List.takeWhile_prefix _)).symm
      simp [hslash, hpos, htake]
    · cases hm
  · next hm =>
    split at hm
    · cases hm
    · next hslash => rw [if_neg hslash]

theorem splitSign_of_ne (h : c ≠ '-') (h' : c ≠ '+') (cs : List Char) :
    splitSign (c :: cs) = (none, c :: cs) := by
  rw [splitSign]
  · simpa using h
  · simpa using h'

theorem scanNumber_eq_none (hdigit : c.isDigit = false) (hminus : c ≠ '-') (hplus : c ≠ '+')
    (cs : List Char) :
    scanFloat? (c :: cs) = none ∧ scanHex? (c :: cs) = none ∧ scanInteger? (c :: cs) = none := by
  have hzero : c ≠ '0' := by
    rintro rfl
    exact absurd hdigit (by decide)
  refine ⟨?_, ?_, ?_⟩
  · have hwhole : (c :: cs).takeWhile Char.isDigit = [] :=
      takeWhile_cons_of_neg (by simp [hdigit])
    have hsplit : splitFloat? (c :: cs) = none := by
      rw [splitFloat?, splitSign_of_ne hminus hplus]
      simp only [hwhole]
      split <;> simp
    rw [scanFloat?, hsplit]
  · rw [scanHex?]
    simp [hzero]
  · rw [scanInteger?, splitSign_of_ne hminus hplus]
    simp [hdigit]

theorem scanSolid?_of_startsNothing (h : startsNothing c = true) (cs : List Char) :
    scanSolid? .stock (c :: cs) = none := by
  simp only [startsNothing, Bool.and_eq_true, Bool.not_eq_true', bne_iff_ne,
    Option.isNone_iff_eq_none] at h
  obtain ⟨⟨⟨⟨⟨⟨⟨⟨href, hdigit⟩, hname⟩, hpunct⟩, hminus⟩, hplus⟩, hquote⟩, hhash⟩, -⟩ := h
  have ht : c ≠ 't' := by
    rintro rfl
    exact absurd hname (by decide)
  have hf : c ≠ 'f' := by
    rintro rfl
    exact absurd hname (by decide)
  have hreference : scanReference? .stock (c :: cs) = none := by
    rw [scanReference?_stock, takeWhile_cons_of_neg (by simp [href])]
    simp
  obtain ⟨hfloat, hhex, hinteger⟩ := scanNumber_eq_none hdigit hminus hplus cs
  have hstring : scanString? (c :: cs) = none := by
    rw [scanString?]
    simpa using hquote
  have hboolean : scanBoolean? (c :: cs) = none := by
    rw [scanBoolean?]
    · simp [ht]
    · simp [hf]
  have hword : scanWord? (c :: cs) = none := by
    rw [scanWord?]
    simp [hname]
  have hcomment : scanComment? (c :: cs) = none := by
    rw [scanComment?]
    simpa using hhash
  simp [scanSolid?, hreference, hfloat, hhex, hinteger, hstring, hboolean, hword, scanPunct?,
    hpunct, hcomment]

theorem scan_of_isBlank (h : isBlank c = true) (cs : List Char) :
    scan .stock (c :: cs) = .blanks ((c :: cs).takeWhile isBlank).length := by
  rw [scan, scanSolid?_of_startsNothing (startsNothing_of_isBlank h)]
  simp [h]

/-! ### What the alternatives find -/

/-- Numbers have digits, signs, a point and the letter of the exponent. -/
def Numeric (c : Char) : Prop := c.isDigit = true ∨ c ∈ ['-', '+', '.', 'e']

/-- The literals that can be written: a sign perhaps, digits, a point, digits, and perhaps an
exponent with a sign. -/
structure FloatLiteral.WellFormed (l : FloatLiteral) : Prop where
  sign : ∀ c ∈ l.sign, c = '-' ∨ c = '+'
  whole : l.whole ≠ [] ∧ ∀ c ∈ l.whole, c.isDigit = true
  fraction : l.fraction ≠ [] ∧ ∀ c ∈ l.fraction, c.isDigit = true
  exponent : ∀ e ∈ l.exponent,
    (e.1 = '+' ∨ e.1 = '-') ∧ e.2 ≠ [] ∧ ∀ c ∈ e.2, c.isDigit = true

/-- The word of a boolean. -/
def booleanText (b : Bool) : List Char := (if b then "true" else "false").toList

section Alternatives

variable {cs rest digits : List Char} {x : Scanned} {l : FloatLiteral}

theorem isDigit_of_mem_takeWhile : ∀ c ∈ cs.takeWhile Char.isDigit, c.isDigit = true :=
  fun _ => mem_takeWhile_imp

theorem splitSign_append_eq (cs : List Char) :
    (splitSign cs).1.toList ++ (splitSign cs).2 = cs := by
  unfold splitSign
  split <;> rfl

theorem sign_of_splitSign (cs : List Char) : ∀ c ∈ (splitSign cs).1, c = '-' ∨ c = '+' := by
  unfold splitSign
  split <;> simp

theorem of_splitExponent? {e : Char × List Char} (h : splitExponent? cs = some (e, rest)) :
    'e' :: e.1 :: e.2 ++ rest = cs ∧
      (e.1 = '+' ∨ e.1 = '-') ∧ e.2 ≠ [] ∧ ∀ c ∈ e.2, c.isDigit = true := by
  unfold splitExponent? at h
  split at h
  · simp only at h
    split at h
    · next hformed =>
      cases h
      refine ⟨?_, hformed.1, hformed.2, isDigit_of_mem_takeWhile⟩
      rw [cons_append, cons_append, takeWhile_append_dropWhile]
    · cases h
  · cases h

/-- Whatever is read as a literal is well formed and stands in front. -/
theorem of_splitFloat? (h : splitFloat? cs = some (l, rest)) :
    l.written ++ rest = cs ∧ l.WellFormed := by
  have hsign := splitSign_append_eq cs
  have hwhole := takeWhile_append_dropWhile (p := Char.isDigit) (l := (splitSign cs).2)
  simp only [splitFloat?] at h
  split at h
  · next tail htail =>
    have hfraction := takeWhile_append_dropWhile (p := Char.isDigit) (l := tail)
    rw [htail] at hwhole
    split at h
    · cases h
    · next hdigits =>
      obtain ⟨hne, hne'⟩ := not_or.mp hdigits
      split at h
      · next e rest' he =>
        cases h
        obtain ⟨hbehind, hexponent⟩ := of_splitExponent? he
        rw [← hbehind] at hfraction
        rw [← hfraction] at hwhole
        rw [← hwhole] at hsign
        refine ⟨by simpa [FloatLiteral.written] using hsign, sign_of_splitSign cs,
          ⟨hne, isDigit_of_mem_takeWhile⟩, ⟨hne', isDigit_of_mem_takeWhile⟩, ?_⟩
        rintro _ ⟨⟩
        exact hexponent
      · cases h
        rw [← hfraction] at hwhole
        rw [← hwhole] at hsign
        exact ⟨by simpa [FloatLiteral.written] using hsign, sign_of_splitSign cs,
          ⟨hne, isDigit_of_mem_takeWhile⟩, ⟨hne', isDigit_of_mem_takeWhile⟩, nofun⟩
  · cases h

theorem numeric_sign {sign : Char} (h : sign = '-' ∨ sign = '+') : Numeric sign := by
  rcases h with rfl | rfl <;> exact .inr (by simp)

theorem numeric_exponent {sign : Char} (hsign : sign = '+' ∨ sign = '-')
    (hdigits : ∀ c ∈ digits, c.isDigit = true) : ∀ c ∈ 'e' :: sign :: digits, Numeric c :=
  forall_mem_cons.mpr ⟨.inr (by simp),
    forall_mem_cons.mpr ⟨numeric_sign hsign.symm, fun c hc => .inl (hdigits c hc)⟩⟩

theorem FloatLiteral.WellFormed.numeric (h : l.WellFormed) : ∀ c ∈ l.written, Numeric c := by
  intro c hc
  obtain ⟨first, whole, fraction, exponent⟩ := l
  simp only [FloatLiteral.written, mem_append, mem_cons, Option.mem_toList] at hc
  rcases hc with ((hc | hc) | rfl | hc) | hc
  · exact numeric_sign (h.sign c hc)
  · exact .inl (h.whole.2 c hc)
  · exact .inr (by simp)
  · exact .inl (h.fraction.2 c hc)
  · cases exponent with
    | none => cases hc
    | some e =>
      obtain ⟨hsign, -, hdigits⟩ := h.exponent e rfl
      exact numeric_exponent hsign hdigits c hc

theorem exists_of_scanFloat? (h : scanFloat? cs = some x) :
    ∃ l rest, FloatLiteral.WellFormed l ∧ l.written ++ rest = cs ∧
      x = (l.lexeme, l.written.length) := by
  unfold scanFloat? at h
  split at h
  · next l rest hsplit =>
    split at h
    · cases h
    · cases h
      exact ⟨l, rest, (of_splitFloat? hsplit).2, (of_splitFloat? hsplit).1, rfl⟩
  · cases h

theorem exists_of_scanHex? (h : scanHex? cs = some x) :
    ∃ y digits rest, (y = 'x' ∨ y = 'X') ∧ digits ≠ [] ∧ (∀ c ∈ digits, isHexDigit c = true) ∧
      '0' :: y :: digits ++ rest = cs ∧
      x = (integerLexeme (ofHexDigits digits) ('0' :: y :: digits), digits.length + 2) := by
  unfold scanHex? at h
  split at h
  · next y cs =>
    simp only at h
    split at h
    · next hformed =>
      obtain rfl := Option.some.inj h
      refine ⟨y, _, cs.dropWhile isHexDigit, hformed.1, hformed.2.1, fun _ => mem_takeWhile_imp, ?_,
        rfl⟩
      rw [cons_append, cons_append, takeWhile_append_dropWhile]
    · cases h
  · cases h

theorem exists_of_scanInteger? (h : scanInteger? cs = some x) :
    ∃ (sign : Option Char) (digits rest : List Char) (n : Int),
      (∀ c ∈ sign, c = '-' ∨ c = '+') ∧ digits ≠ [] ∧ (∀ c ∈ digits, c.isDigit = true) ∧
      sign.toList ++ digits ++ rest = cs ∧
      n = (if sign = some '-' then -(ofDigits digits : Int) else ofDigits digits) ∧
      x = (integerLexeme n (sign.toList ++ digits), (sign.toList ++ digits).length) := by
  unfold scanInteger? at h
  simp only at h
  split at h
  · cases h
  · next hformed =>
    obtain rfl := Option.some.inj h
    refine ⟨_, _, (splitSign cs).2.dropWhile Char.isDigit, _, sign_of_splitSign cs,
      (not_or.mp hformed).1, isDigit_of_mem_takeWhile, ?_, rfl, rfl⟩
    rw [append_assoc, takeWhile_append_dropWhile, splitSign_append_eq]

theorem exists_of_scanBoolean? (h : scanBoolean? cs = some x) :
    ∃ b rest, startsWithWord rest = false ∧ booleanText b ++ rest = cs ∧
      x = (.boolean b, (booleanText b).length) := by
  unfold scanBoolean? at h
  split at h
  · next rest =>
    split at h
    · cases h
    · next hrest =>
      cases h
      exact ⟨true, rest, Bool.eq_false_iff.mpr hrest, rfl, rfl⟩
  · next rest =>
    split at h
    · cases h
    · next hrest =>
      cases h
      exact ⟨false, rest, Bool.eq_false_iff.mpr hrest, rfl, rfl⟩
  · cases h

theorem exists_of_scanWord? (h : scanWord? cs = some x) :
    ∃ c word rest, startsName c = true ∧ (∀ d ∈ word, isWord d = true) ∧
      (∀ d ∈ rest.head?, isWord d = false) ∧ c :: word ++ rest = cs ∧
      ((∃ tail, rest = ':' :: tail ∧ x = (.label (String.ofList (c :: word)), word.length + 2)) ∨
        x = (.identifier (String.ofList (c :: word)), word.length + 1)) := by
  unfold scanWord? at h
  split at h
  · cases h
  · next c cs =>
    split at h
    · next hname =>
      have hcs := congrArg (c :: ·) (takeWhile_append_dropWhile (p := isWord) (l := cs))
      have hstop : ∀ d ∈ (cs.dropWhile isWord).head?, isWord d = false := by
        have hhead := head?_dropWhile_not (p := isWord) (l := cs)
        rintro d hd
        simpa [show (cs.dropWhile isWord).head? = some d from hd] using hhead
      refine ⟨c, _, _, hname, fun _ => mem_takeWhile_imp, hstop, hcs, ?_⟩
      simp only at h
      split at h
      · next tail hdrop =>
        cases h
        exact .inl ⟨tail, hdrop, rfl⟩
      · cases h
        exact .inr rfl
    · cases h

theorem Punct.char_of_ofChar? {p : Punct} (h : Punct.ofChar? c = some p) : p.char = c := by
  unfold Punct.ofChar? at h
  split at h <;> cases h <;> rfl

theorem exists_of_scanPunct? (h : scanPunct? cs = some x) :
    ∃ (p : Punct) (rest : List Char), p.char :: rest = cs ∧ x = (.punct p, 1) := by
  unfold scanPunct? at h
  split at h
  · cases h
  · next c rest =>
    obtain ⟨p, hp, rfl⟩ := Option.map_eq_some_iff.mp h
    exact ⟨p, rest, by rw [Punct.char_of_ofChar? hp], rfl⟩

end Alternatives

/-- What every token is like that is found at a place: it is no line end and no note, punctuation is
the character there, and a comment takes all that is left. -/
structure Scanned.Plain (cs : List Char) (x : Scanned) : Prop where
  newline : x.1.kind ≠ .newline
  note : x.1.kind ≠ .note
  punct : ∀ q, x.1 = .punct q → q.char ∈ cs
  comment : x.1.kind = .comment → x.2 = cs.length

theorem Scanned.Plain.of_kind {cs : List Char} {x : Scanned}
    (h : x.1.kind ∉ [.newline, .note, .comment, .punctuation]) : Plain cs x where
  newline hk := h (by simp [hk])
  note hk := h (by simp [hk])
  punct q hq := absurd (by simp [hq, Lexeme.kind]) h
  comment hk := absurd (by simp [hk]) h

/-- A token that is neither label nor punctuation, with some of the characters at its place. -/
structure Scanned.Sized (cs : List Char) (x : Scanned) : Prop where
  pos : 0 < x.2
  le : x.2 ≤ cs.length
  kind : x.1.kind ≠ .label ∧ x.1.kind ≠ .punctuation

section Plain

variable {pattern : Pattern} {cs rest : List Char} {x : Scanned} {lexeme : Lexeme} {length : Nat}

theorem kind_of_scanReference? (h : scanReference? pattern cs = some x) :
    x.1.kind = .reference := by
  unfold scanReference? at h
  split at h
  · split at h
    · cases h
      rfl
    · cases h
  · cases h

theorem kind_integerLexeme (n : Int) (written : List Char) :
    (integerLexeme n written).kind = .integer ∨ (integerLexeme n written).kind = .error := by
  rw [integerLexeme]
  split
  · exact .inl rfl
  · exact .inr rfl

theorem kind_floatLexeme (l : FloatLiteral) : l.lexeme.kind = .float := by
  rw [FloatLiteral.lexeme]
  split <;> rfl

theorem kind_of_scanFloat? (h : scanFloat? cs = some x) : x.1.kind = .float := by
  obtain ⟨l, -, -, -, rfl⟩ := exists_of_scanFloat? h
  exact kind_floatLexeme l

theorem kind_of_scanHex? (h : scanHex? cs = some x) : x.1.kind = .integer ∨ x.1.kind = .error := by
  obtain ⟨_, _, _, -, -, -, -, rfl⟩ := exists_of_scanHex? h
  dsimp only
  exact kind_integerLexeme _ _

theorem kind_of_scanInteger? (h : scanInteger? cs = some x) :
    x.1.kind = .integer ∨ x.1.kind = .error := by
  obtain ⟨_, _, _, _, -, -, -, -, -, rfl⟩ := exists_of_scanInteger? h
  exact kind_integerLexeme _ _

theorem kind_of_scanString? (h : scanString? cs = some x) : x.1.kind = .string := by
  unfold scanString? at h
  split at h
  · split at h <;> cases h
    rfl
  · cases h

theorem kind_of_scanBoolean? (h : scanBoolean? cs = some x) : x.1.kind = .boolean := by
  obtain ⟨_, _, -, -, rfl⟩ := exists_of_scanBoolean? h
  rfl

theorem kind_of_scanWord? (h : scanWord? cs = some x) :
    x.1.kind = .label ∨ x.1.kind = .identifier := by
  obtain ⟨_, _, _, -, -, -, -, ⟨_, -, rfl⟩ | rfl⟩ := exists_of_scanWord? h
  · exact .inl rfl
  · exact .inr rfl

theorem kind_of_scanPunct? (h : scanPunct? cs = some x) : x.1.kind = .punctuation := by
  obtain ⟨_, _, -, rfl⟩ := exists_of_scanPunct? h
  rfl

theorem kind_of_scanComment? (h : scanComment? cs = some x) : x.1.kind = .comment := by
  unfold scanComment? at h
  split at h <;> cases h
  rfl

theorem kind_of_scanGeneric? (h : scanGeneric? cs = some x) : x.1.kind = .generic := by
  unfold scanGeneric? at h
  split at h
  · simp only at h
    split at h
    · cases h
      rfl
    · split at h <;> cases h
      rfl
  · cases h

theorem sized_scanFloat? (h : scanFloat? cs = some x) : x.Sized cs := by
  have hkind := kind_of_scanFloat? h
  obtain ⟨l, rest, hl, rfl, rfl⟩ := exists_of_scanFloat? h
  exact ⟨length_pos_iff.mpr (by simp [FloatLiteral.written]), by simp, by simp [hkind]⟩

theorem sized_scanHex? (h : scanHex? cs = some x) : x.Sized cs := by
  have hkind := kind_of_scanHex? h
  obtain ⟨y, digits, rest, -, -, -, rfl, rfl⟩ := exists_of_scanHex? h
  exact ⟨by omega, by simp, by rcases hkind with hkind | hkind <;> simp [hkind]⟩

theorem sized_scanInteger? (h : scanInteger? cs = some x) : x.Sized cs := by
  have hkind := kind_of_scanInteger? h
  obtain ⟨sign, digits, rest, n, -, hne, -, rfl, -, rfl⟩ := exists_of_scanInteger? h
  refine ⟨length_pos_iff.mpr (append_ne_nil_of_right_ne_nil _ hne), by simp, ?_⟩
  rcases hkind with hkind | hkind <;> simp [hkind]

theorem sized_scanBoolean? (h : scanBoolean? cs = some x) : x.Sized cs := by
  obtain ⟨b, rest, -, rfl, rfl⟩ := exists_of_scanBoolean? h
  exact ⟨by cases b <;> decide, by simp, by simp [Lexeme.kind]⟩

theorem plain_scanPunct? (h : scanPunct? cs = some x) : x.Plain cs := by
  obtain ⟨p, rest, rfl, rfl⟩ := exists_of_scanPunct? h
  refine ⟨by simp [Lexeme.kind], by simp [Lexeme.kind], fun q hq => ?_, by simp [Lexeme.kind]⟩
  obtain rfl := Lexeme.punct.inj hq
  exact mem_cons_self

theorem plain_scanComment? (h : scanComment? cs = some x) : x.Plain cs := by
  unfold scanComment? at h
  split at h
  · cases h
    exact ⟨by simp [Lexeme.kind], by simp [Lexeme.kind], by simp, fun _ => by simp⟩
  · cases h

/-- By which alternative a token is found at a place. -/
inductive Found (pattern : Pattern) (cs : List Char) : Scanned → Prop
  | reference {x : Scanned} (h : scanReference? pattern cs = some x) : Found pattern cs x
  | float {x : Scanned} (h : scanFloat? cs = some x) : Found pattern cs x
  | hex {x : Scanned} (h : scanHex? cs = some x) : Found pattern cs x
  | integer {x : Scanned} (h : scanInteger? cs = some x) : Found pattern cs x
  | string {x : Scanned} (h : scanString? cs = some x) : Found pattern cs x
  | boolean {x : Scanned} (h : scanBoolean? cs = some x) : Found pattern cs x
  | word {x : Scanned} (h : scanWord? cs = some x) : Found pattern cs x
  | punct {x : Scanned} (h : scanPunct? cs = some x) : Found pattern cs x
  | comment {x : Scanned} (h : scanComment? cs = some x) : Found pattern cs x
  | generic {x : Scanned} (hstring : scanString? cs = none) (hcomment : scanComment? cs = none)
      (h : scanGeneric? cs = some x) : Found pattern cs x
  | error (hstring : scanString? cs = none) (hpunct : scanPunct? cs = none)
      (hcomment : scanComment? cs = none) (hgeneric : scanGeneric? cs = none) :
      Found pattern cs (.error (String.ofList (cs.take 1)), 1)

theorem found_of_scan (h : scan pattern cs = .token lexeme length) :
    Found pattern cs (lexeme, length) := by
  unfold scan at h
  split at h
  · next hsolid =>
    cases h
    simp only [scanSolid?, Option.orElse_eq_orElse, Option.orElse_eq_or, Option.or_eq_some_iff]
      at hsolid
    rcases hsolid with h | ⟨-, h | ⟨-, h | ⟨-, h | ⟨-, h | ⟨-, h | ⟨-, h | ⟨-, h | ⟨-, h⟩⟩⟩⟩⟩⟩⟩⟩
    · exact .reference h
    · exact .float h
    · exact .hex h
    · exact .integer h
    · exact .string h
    · exact .boolean h
    · exact .word h
    · exact .punct h
    · exact .comment h
  · next hsolid =>
    simp only [scanSolid?, Option.orElse_eq_orElse, Option.orElse_eq_or, Option.or_eq_none_iff]
      at hsolid
    obtain ⟨-, -, -, -, hstring, -, -, hpunct, hcomment⟩ := hsolid
    simp only at h
    split at h
    · cases h
    · split at h
      · next hgeneric =>
        cases h
        exact .generic hstring hcomment hgeneric
      · next hgeneric =>
        split at h
        · cases h
        · cases h
          exact .error hstring hpunct hcomment hgeneric

theorem plain_scan (h : scan pattern cs = .token lexeme length) :
    Scanned.Plain cs (lexeme, length) := by
  cases found_of_scan h with
  | reference h => exact .of_kind (by simp [kind_of_scanReference? h])
  | float h => exact .of_kind (by simp [kind_of_scanFloat? h])
  | hex h => exact .of_kind (by rcases kind_of_scanHex? h with hkind | hkind <;> simp [hkind])
  | integer h =>
    exact .of_kind (by rcases kind_of_scanInteger? h with hkind | hkind <;> simp [hkind])
  | string h => exact .of_kind (by simp [kind_of_scanString? h])
  | boolean h => exact .of_kind (by simp [kind_of_scanBoolean? h])
  | word h => exact .of_kind (by rcases kind_of_scanWord? h with hkind | hkind <;> simp [hkind])
  | punct h => exact plain_scanPunct? h
  | comment h => exact plain_scanComment? h
  | generic _ _ h => exact .of_kind (by simp [kind_of_scanGeneric? h])
  | error => exact .of_kind (by simp [Lexeme.kind])

end Plain

/-! ### From left to right -/

section ScanFrom

variable (pattern : Pattern) (line : Nat)

theorem scanFrom_of_length_le (column skip : Nat) (cs : List Char) (h : cs.length ≤ skip) :
    scanFrom pattern line column skip cs = ([], false) := by
  induction cs generalizing column skip with
  | nil => rw [scanFrom]
  | cons c cs ih =>
    cases skip with
    | zero => simp at h
    | succ skip =>
      rw [scanFrom]
      exact ih _ _ (by simpa using h)

theorem scanFrom_onLine (line' column skip : Nat) (cs : List Char) :
    scanFrom pattern line' column skip cs =
      ((scanFrom pattern line column skip cs).1.map (Token.onLine line'),
        (scanFrom pattern line column skip cs).2) := by
  induction cs generalizing column skip with
  | nil => simp [scanFrom]
  | cons c cs ih =>
    cases skip with
    | succ skip =>
      rw [scanFrom, scanFrom]
      exact ih _ _
    | zero =>
      rw [scanFrom, scanFrom]
      split
      · rfl
      · exact ih _ _
      · rw [ih]
        rfl

/-- Every token is plain, and a comment is the last one. -/
structure PlainTokens (cs : List Char) (tokens : List Token) : Prop where
  line : ∀ t ∈ tokens, t.line = line
  newline : ∀ t ∈ tokens, t.isKind .newline = false
  note : ∀ t ∈ tokens, t.isKind .note = false
  punct : ∀ t ∈ tokens, ∀ q, t.lexeme = .punct q → q.char ∈ cs
  tail : ∃ x y, tokens = x ++ y ∧ (∀ t ∈ x, t.isKind .comment = false) ∧ Row.IsTail y

variable {line}

theorem PlainTokens.nil (cs : List Char) : PlainTokens line cs [] :=
  ⟨by simp, by simp, by simp, by simp, [], [], rfl, by simp, .inl rfl⟩

theorem PlainTokens.mono {cs : List Char} {tokens : List Token} (h : PlainTokens line cs tokens) :
    PlainTokens line (c :: cs) tokens :=
  ⟨h.line, h.newline, h.note, fun t ht q hq => mem_cons_of_mem c (h.punct t ht q hq), h.tail⟩

theorem plainTokens_scanFrom (column skip : Nat) (cs : List Char) :
    PlainTokens line cs (scanFrom pattern line column skip cs).1 := by
  induction cs generalizing column skip with
  | nil =>
    rw [scanFrom]
    exact .nil _
  | cons c cs ih =>
    cases skip with
    | succ skip =>
      rw [scanFrom]
      exact (ih _ _).mono
    | zero =>
      rw [scanFrom]
      split
      · exact .nil _
      · exact (ih _ _).mono
      · next lexeme length hscan =>
        have hplain := plain_scan hscan
        have hrest := ih (column + 1) (length - 1)
        refine ⟨?_, ?_, ?_, ?_, ?_⟩
        · exact forall_mem_cons.mpr ⟨rfl, hrest.line⟩
        · exact forall_mem_cons.mpr
            ⟨isKind_eq_false_iff.mpr hplain.newline, hrest.newline⟩
        · exact forall_mem_cons.mpr ⟨isKind_eq_false_iff.mpr hplain.note, hrest.note⟩
        · exact forall_mem_cons.mpr ⟨hplain.punct, hrest.mono.punct⟩
        · by_cases hcomment : lexeme.kind = .comment
          · -- nothing is left behind a comment
            have hlength : length = cs.length + 1 := hplain.comment hcomment
            rw [scanFrom_of_length_le pattern line _ _ cs (by omega)]
            exact ⟨[], _, rfl, by simp, .inr ⟨_, rfl, isKind_iff.mpr hcomment⟩⟩
          · obtain ⟨x, y, htokens, hx, hy⟩ := hrest.tail
            refine ⟨_ :: x, y, congrArg (_ :: ·) htokens, ?_, hy⟩
            exact forall_mem_cons.mpr ⟨isKind_eq_false_iff.mpr hcomment, hx⟩

theorem scanFrom_of_blank {cs : List Char} (h : ∀ c ∈ cs, isBlank c = true) (column skip : Nat) :
    scanFrom .stock line column skip cs = ([], false) := by
  induction cs generalizing column skip with
  | nil => rw [scanFrom]
  | cons c cs ih =>
    obtain ⟨hc, hcs⟩ := forall_mem_cons.mp h
    cases skip with
    | succ skip =>
      rw [scanFrom]
      exact ih hcs _ _
    | zero =>
      rw [scanFrom, scan_of_isBlank hc]
      exact ih hcs _ _

end ScanFrom

/-! ### Whole lines -/

/-- A line by itself, scanned: its tokens, and whether it ends with a continuation. -/
def scanBare (pattern : Pattern) (number : Nat) (line : Line) : List Token × Bool :=
  match wholeLine? number line with
  | some t => ([t], false)
  | none => scanFrom pattern number 1 0 line

theorem scanLine_eq (index : Nat) (line : Line) : scanLine pattern index false line =
      ⟨index + 1, (scanBare pattern (index + 1) (bareLine index line)).1, false,
        (scanBare pattern (index + 1) (bareLine index line)).2⟩ := by
  simp only [scanLine, scanBare, Bool.false_eq_true, if_false]
  cases wholeLine? (index + 1) (bareLine index line) <;> rfl

theorem wholeLine?_onLine (number number' : Nat) (line : Line) :
    wholeLine? number' line = (wholeLine? number line).map (Token.onLine number') := by
  simp only [wholeLine?]
  split <;> rfl

theorem wholeLine?_kind {number : Nat} {line : Line} {t : Token}
    (h : wholeLine? number line = some t) :
    t.line = number ∧ (t.kind = .comment ∨ t.kind = .note) := by
  simp only [wholeLine?] at h
  split at h
  · cases h
    exact ⟨rfl, .inl rfl⟩
  · cases h
    exact ⟨rfl, .inr rfl⟩
  · cases h

theorem scanBare_onLine (number number' : Nat) (line : Line) : scanBare pattern number' line =
      ((scanBare pattern number line).1.map (Token.onLine number'),
        (scanBare pattern number line).2) := by
  rw [scanBare, wholeLine?_onLine number, scanBare]
  cases wholeLine? number line with
  | none => exact scanFrom_onLine pattern number number' 1 0 line
  | some t => rfl

theorem codeOf_map_onLine (number : Nat) (tokens : List Token) :
    codeOf (tokens.map (Token.onLine number)) = (codeOf tokens).map (Token.onLine number) := by
  simp only [codeOf, filter_map]
  rfl

theorem sound_scanBare (number : Nat) (line text : Line)
    (h : (scanBare pattern number line).1 ≠ []) :
    Row.Sound ⟨text, number, (scanBare pattern number line).1⟩ := by
  rw [scanBare] at h ⊢
  cases hwhole : wholeLine? number line with
  | none =>
    simp only [hwhole] at h ⊢
    have hplain : PlainTokens number line (scanFrom pattern number 1 0 line).1 :=
      plainTokens_scanFrom pattern 1 0 line
    exact ⟨h, hplain.line, hplain.newline, fun t ht hnote => by
      rw [hplain.note t ht] at hnote
      cases hnote⟩
  | some t =>
    obtain ⟨hline, hkind⟩ := wholeLine?_kind hwhole
    refine ⟨by simp, by simpa using hline, ?_, by simp⟩
    rcases hkind with hkind | hkind <;> simp [Token.isKind, hkind]

theorem scanBare_tail (number : Nat) (line : Line)
    (h : codeOf (scanBare pattern number line).1 ≠ []) :
    ∃ y, (scanBare pattern number line).1 = codeOf (scanBare pattern number line).1 ++ y ∧
      Row.IsTail y := by
  rw [scanBare] at h ⊢
  cases hwhole : wholeLine? number line with
  | none =>
    simp only [hwhole] at h ⊢
    have hplain : PlainTokens number line (scanFrom pattern number 1 0 line).1 :=
      plainTokens_scanFrom pattern 1 0 line
    obtain ⟨x, y, htokens, hx, hy⟩ := hplain.tail
    refine ⟨y, ?_, hy⟩
    have hcode := Row.code_eq (r := ⟨line, number, _⟩) htokens
      (fun t ht => ⟨hx t ht, hplain.note t (by simp [htokens, ht])⟩) hy
    rw [Row.code] at hcode
    rw [hcode]
    exact htokens
  | some t =>
    obtain ⟨-, hkind⟩ := wholeLine?_kind hwhole
    rcases hkind with hkind | hkind <;> simp [hwhole, codeOf, Token.isKind, hkind] at h

theorem char_mem_of_scanBare {pattern : Pattern} {number : Nat} {line : Line}
    {t : Token} {q : Punct}
    (ht : t ∈ (scanBare pattern number line).1) (hq : t.lexeme = .punct q) : q.char ∈ line := by
  rw [scanBare] at ht
  cases hwhole : wholeLine? number line with
  | none =>
    simp only [hwhole] at ht
    exact (plainTokens_scanFrom pattern 1 0 line).punct t ht q hq
  | some u =>
    simp only [hwhole, mem_singleton] at ht
    subst ht
    obtain ⟨-, hkind⟩ := wholeLine?_kind hwhole
    rw [Token.kind, hq] at hkind
    rcases hkind with hkind | hkind <;> cases hkind

theorem scanBare_of_blank {line : Line} (h : ∀ c ∈ line, isBlank c = true) (number : Nat) :
    scanBare .stock number line = ([], false) := by
  have hskip : skipBlanks line = [] := by
    rw [skipBlanks, dropWhile_eq_nil_iff]
    exact h
  rw [scanBare, wholeLine?, hskip]
  exact scanFrom_of_blank h 1 0

end CommandText
