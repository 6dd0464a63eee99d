import CommandText.Proofs.ScannedLine
import CommandText.Proofs.TextRows
import Mathlib.Algebra.Group.Int.Defs
import Mathlib.Data.List.Forall2

/-!
# Tokens as they are written

Tokens have written forms, and written forms with blanks between them are read back as those tokens.
The alternatives of the scan overlap, so it has to be said of each form why no earlier alternative
takes it or a part of it: what stands behind the form ends every run of word characters, and its
first character rules out the other alternatives.
-/

namespace CommandText

open List

open Pattern (inReference)

variable {c : Char} (n : Name)

/-! ### Characters -/

theorem forall_ascii {P : Char → Bool} (h : (List.range 128).all fun n => P (Char.ofNat n))
    (hc : c.toNat < 128) : P c = true := by
  have hall := all_eq_true.mp h _ (mem_range.mpr hc)
  rwa [Char.ofNat_toNat] at hall

theorem toNat_lt_of_isDigit (h : c.isDigit = true) : c.toNat < 128 := by
  simp only [Char.isDigit, Bool.and_eq_true, decide_eq_true_eq, UInt32.le_iff_toNat_le] at h
  exact Nat.lt_of_le_of_lt h.2 (by decide)

theorem isWord_of_ascii (h : c.toNat < 128) : isWord c = (c.isAlphanum || c == '_') := by
  have hall := forall_ascii (P := fun c => isWord c == (c.isAlphanum || c == '_'))
    (by decide +kernel) h
  simpa using hall

theorem inReference_of_ascii (h : c.toNat < 128) :
    inReference c = (c.isAlphanum || c == '_' || c == '/') := by
  rw [inReference, isWord_of_ascii h]

theorem isWord_of_isDigit (h : c.isDigit = true) : isWord c = true := by
  rw [isWord_of_ascii (toNat_lt_of_isDigit h)]
  simp [Char.isAlphanum, h]

theorem of_startsName (h : startsName c = true) :
    isWord c = true ∧ c.isDigit = false ∧ c ≠ '-' ∧ c ≠ '+' ∧ c ≠ '"' ∧ c ≠ '#' ∧ c ≠ '@' := by
  have hascii : c.toNat < 128 := by
    have h : (decide (c.val ≥ 'A'.val ∧ c.val ≤ 'Z'.val) ||
        (decide (c.val ≥ 'a'.val) && decide (c.val ≤ 'z'.val)) || c == '_') = true := h
    simp only [Bool.or_eq_true, Bool.and_eq_true, decide_eq_true_eq, UInt32.le_iff_toNat_le,
      beq_iff_eq] at h
    rcases h with (⟨-, h⟩ | ⟨-, h⟩) | rfl
    · exact Nat.lt_of_le_of_lt h (by decide)
    · exact Nat.lt_of_le_of_lt h (by decide)
    · decide
  have hall := forall_ascii (P := fun c => !startsName c || (isWord c && !c.isDigit && c != '-' &&
    c != '+' && c != '"' && c != '#' && c != '@')) (by decide +kernel) hascii
  simpa [h, and_assoc] using hall

/-! ### Where a written form ends -/

/-- A blank or nothing comes next. -/
def EndsHere (rest : List Char) : Prop := ∀ c ∈ rest.head?, isBlank c = true

section Runs

variable {p : Char → Bool} {w rest : List Char}

theorem takeWhile_append_of_stop (hw : ∀ c ∈ w, p c = true)
    (hrest : ∀ c ∈ rest.head?, p c = false) : (w ++ rest).takeWhile p = w := by
  rw [takeWhile_append_of_pos hw]
  cases rest with
  | nil => simp
  | cons c rest => rw [takeWhile_cons_of_neg (by simp [hrest c rfl]), append_nil]

theorem dropWhile_append_of_stop (hw : ∀ c ∈ w, p c = true)
    (hrest : ∀ c ∈ rest.head?, p c = false) : (w ++ rest).dropWhile p = rest := by
  rw [dropWhile_append_of_pos hw]
  cases rest with
  | nil => simp
  | cons c rest => rw [dropWhile_cons_of_neg (by simp [hrest c rfl])]

theorem EndsHere.stops (h : EndsHere rest) (hc : c ∈ rest.head?) :
    inReference c = false ∧ isWord c = false ∧ c.isDigit = false ∧ c ≠ ':' ∧ c ≠ '.' ∧ c ≠ 'x' ∧
      c ≠ 'X' := by
  have hblank : isBlank c = true := h c hc
  have hall := forall_blank (P := fun c => !inReference c && !isWord c && !c.isDigit && c != ':' &&
    c != '.' && c != 'x' && c != 'X') (by decide +kernel) hblank
  simpa [and_assoc] using hall

theorem EndsHere.startsWithWord (h : EndsHere rest) : startsWithWord rest = false := by
  cases rest with
  | nil => rfl
  | cons c rest => exact (h.stops rfl).2.1

end Runs

/-! ### The alternatives -/

section Alternatives

variable {w rest : List Char}

theorem scanReference?_of_isWord (hw : ∀ c ∈ w, isWord c = true)
    (hrest : ∀ c ∈ rest.head?, inReference c = false) :
    scanReference? .stock (w ++ rest) = none := by
  have href : ∀ c ∈ w, inReference c = true := fun c hc => by simp [inReference, hw c hc]
  have hslash : '/' ∉ w := fun hslash => by simpa [Pattern.isWord_slash] using hw _ hslash
  rw [scanReference?_stock, takeWhile_append_of_stop href hrest, if_neg hslash]

theorem scanReference?_cons_eq_none (hc : inReference c = false) (cs : List Char) :
    scanReference? .stock (c :: cs) = none := by
  rw [scanReference?_stock, takeWhile_cons_of_neg (by simp [hc])]
  simp

theorem isWord_of_mem_booleanText (b : Bool) : ∀ c ∈ booleanText b, isWord c = true := by
  have hword : (booleanText b).all isWord = true := by cases b <;> decide +kernel
  exact all_eq_true.mp hword

theorem takeWhile_of_scanBoolean? {cs : List Char} {x : Scanned} (h : scanBoolean? cs = some x) :
    ∃ b, cs.takeWhile isWord = booleanText b := by
  obtain ⟨b, rest, hrest, rfl, -⟩ := exists_of_scanBoolean? h
  refine ⟨b, takeWhile_append_of_stop (isWord_of_mem_booleanText b) ?_⟩
  cases rest with
  | nil => simp
  | cons c rest => simpa [startsWithWord] using hrest

theorem scan_of_scanSolid? {pattern : Pattern} {cs : List Char} {l : Lexeme} {n : Nat}
    (h : scanSolid? pattern cs = some (l, n)) : scan pattern cs = .token l n := by
  rw [scan, h]

theorem quoted?_escape (cs rest : List Char) :
    quoted? (escape cs ++ '"' :: rest) = some (escape cs) := by
  induction cs with
  | nil => simp [escape, quoted?]
  | cons c cs ih =>
    rw [escape]
    split
    · simp [quoted?, ih]
    · next hc =>
      obtain ⟨hbackslash, hquote, -⟩ := ne_of_escapeLetter?_eq_none hc
      rw [cons_append, quoted?_cons_of_ne hquote hbackslash, ih]
      rfl

end Alternatives

/-! ### Integers -/

section Integers

variable {sign : Option Char} {cs ds rest : List Char}

theorem scanFloat?_of_digits (hcs : splitSign cs = (sign, ds ++ rest))
    (hds : ∀ c ∈ ds, c.isDigit = true) (h : EndsHere rest) : scanFloat? cs = none := by
  have hdrop : (ds ++ rest).dropWhile Char.isDigit = rest :=
    dropWhile_append_of_stop hds fun c hc => (h.stops hc).2.2.1
  have hsplit : splitFloat? cs = none := by
    simp only [splitFloat?, hcs, hdrop]
    split
    · exact absurd rfl (h.stops (c := '.') rfl).2.2.2.2.1
    · rfl
  rw [scanFloat?, hsplit]

theorem scanHex?_of_digits (hds : ∀ c ∈ ds, c.isDigit = true) (h : EndsHere rest) :
    scanHex? (ds ++ rest) = none := by
  unfold scanHex?
  split
  · next x tail heq =>
    -- the second character is a digit, or the first one behind the digits
    have hx : x ≠ 'x' ∧ x ≠ 'X' := by
      rcases ds with _ | ⟨d, _ | ⟨d', ds⟩⟩
      · obtain rfl : rest = '0' :: x :: tail := heq
        exact absurd (h '0' rfl) (by decide)
      · obtain ⟨-, rfl⟩ := cons.inj heq
        exact (h.stops rfl).2.2.2.2.2
      · obtain ⟨-, heq⟩ := cons.inj heq
        obtain ⟨rfl, -⟩ := cons.inj heq
        have hdigit := hds d' (by simp)
        constructor <;> rintro rfl <;> exact absurd hdigit (by decide)
    simp [hx]
  · rfl

theorem scanInteger?_of_digits (hcs : splitSign cs = (sign, ds ++ rest))
    (hds : ∀ c ∈ ds, c.isDigit = true) (hne : ds ≠ []) (h : EndsHere rest) :
    scanInteger? cs = some
      (integerLexeme (if sign = some '-' then -(ofDigits ds : Int) else ofDigits ds)
        (sign.toList ++ ds), (sign.toList ++ ds).length) := by
  have hstop : ∀ c ∈ rest.head?, c.isDigit = false := fun c hc => (h.stops hc).2.2.1
  simp only [scanInteger?, hcs, takeWhile_append_of_stop hds hstop,
    dropWhile_append_of_stop hds hstop, hne, h.startsWithWord]
  simp

end Integers

/-! ### Written forms -/

/-- Some characters are read as one token wherever a blank or nothing follows. They stand on one
line, and the line is no comment or note because of them. -/
structure Written (w : List Char) (l : Lexeme) : Prop where
  scan : ∀ rest, EndsHere rest → scan .stock (w ++ rest) = .token l w.length
  head : ∃ c ∈ w.head?, c ≠ '#' ∧ c ≠ '@' ∧ c ≠ '\ufeff'
  line : ∀ c ∈ w, c ≠ '\n' ∧ c ≠ '\r'

theorem ne_of_inReference (h : inReference c = true) :
    (c ≠ '\n' ∧ c ≠ '\r') ∧ c ≠ '#' ∧ c ≠ '@' ∧ c ≠ '\ufeff' := by
  refine ⟨⟨?_, ?_⟩, ?_, ?_, ?_⟩ <;> rintro rfl <;> exact absurd h (by decide +kernel)

theorem Written.of_inReference {w : List Char} {l : Lexeme} (hne : w ≠ [])
    (hw : ∀ c ∈ w, inReference c = true)
    (h : ∀ rest, EndsHere rest → scanSolid? .stock (w ++ rest) = some (l, w.length)) :
    Written w l where
  scan rest hrest := scan_of_scanSolid? (h rest hrest)
  head := by
    obtain ⟨c, w, rfl⟩ := exists_cons_of_ne_nil hne
    exact ⟨c, rfl, (ne_of_inReference (hw c mem_cons_self)).2⟩
  line c hc := (ne_of_inReference (hw c hc)).1

theorem inReference_of_isWord (h : isWord c = true) : inReference c = true := by
  simp [inReference, h]

theorem written_reference {w : List Char} (hw : ∀ c ∈ w, inReference c = true) (hslash : '/' ∈ w) :
    Written w (.reference (String.ofList w)) := by
  refine .of_inReference (ne_nil_of_mem hslash) hw fun rest hrest => ?_
  have hscan : scanReference? .stock (w ++ rest) =
      some (.reference (String.ofList w), w.length) := by
    rw [scanReference?_stock, takeWhile_append_of_stop hw fun c hc => (hrest.stops hc).1,
      if_pos hslash]
  simp [scanSolid?, hscan]

/-- A word that is no boolean: a letter or underscore with word characters behind it. -/
structure Name where
  first : Char
  others : List Char
  startsName_first : startsName first = true
  isWord_others : ∀ c ∈ others, isWord c = true
  ne_true : first :: others ≠ "true".toList
  ne_false : first :: others ≠ "false".toList

namespace Name

def chars (n : Name) : List Char := n.first :: n.others

theorem isWord_chars : ∀ c ∈ n.chars, isWord c = true :=
  forall_mem_cons.mpr ⟨(of_startsName n.startsName_first).1, n.isWord_others⟩

theorem scanSolid?_chars {rest : List Char} (hrest : ∀ c ∈ rest.head?, inReference c = false) :
    scanSolid? .stock (n.chars ++ rest) = scanWord? (n.chars ++ rest) := by
  obtain ⟨-, hdigit, hminus, hplus, hquote, -⟩ := of_startsName n.startsName_first
  have hreference := scanReference?_of_isWord n.isWord_chars hrest
  obtain ⟨hfloat, hhex, hinteger⟩ := scanNumber_eq_none hdigit hminus hplus (n.others ++ rest)
  have hstring : scanString? (n.first :: (n.others ++ rest)) = none := by
    rw [scanString?]
    simpa using hquote
  have hboolean : scanBoolean? (n.chars ++ rest) = none := by
    rw [Option.eq_none_iff_forall_ne_some]
    intro x hx
    have hstop : ∀ c ∈ rest.head?, isWord c = false := by
      intro c hc
      have := hrest c hc
      simp only [inReference, Bool.or_eq_false_iff] at this
      exact this.1
    obtain ⟨b, hword⟩ := takeWhile_of_scanBoolean? hx
    rw [takeWhile_append_of_stop n.isWord_chars hstop] at hword
    cases b with
    | true => exact n.ne_true hword
    | false => exact n.ne_false hword
  have hword : ∃ x, scanWord? (n.chars ++ rest) = some x := by
    simp only [chars, cons_append, scanWord?, n.startsName_first, if_true]
    split <;> exact ⟨_, rfl⟩
  obtain ⟨x, hword⟩ := hword
  simp only [chars, cons_append] at hreference hboolean hword ⊢
  simp [scanSolid?, hreference, hfloat, hhex, hinteger, hstring, hboolean, hword]

theorem written_identifier : Written n.chars (.identifier (String.ofList n.chars)) := by
  refine .of_inReference (cons_ne_nil _ _)
    (fun c hc => inReference_of_isWord (n.isWord_chars c hc)) fun rest hrest => ?_
  have hstop : ∀ c ∈ rest.head?, isWord c = false := fun c hc => (hrest.stops hc).2.1
  rw [n.scanSolid?_chars fun c hc => (hrest.stops hc).1]
  simp only [chars, cons_append, scanWord?, n.startsName_first, if_true,
    takeWhile_append_of_stop n.isWord_others hstop, dropWhile_append_of_stop n.isWord_others hstop]
  split
  · exact absurd rfl (hrest.stops (c := ':') rfl).2.2.2.1
  · rfl

theorem written_label : Written (n.chars ++ [':']) (.label (String.ofList n.chars)) := by
  have hcolon : inReference ':' = false := inReference_of_ascii (by decide)
  refine ⟨fun rest _ => scan_of_scanSolid? ?_, ⟨n.first, rfl, ?_⟩, fun c hc => ?_⟩
  · have hstop : ∀ c ∈ (':' :: rest).head?, inReference c = false := by simpa using hcolon
    have hword : ∀ c ∈ (':' :: rest).head?, isWord c = false := by
      rintro c ⟨⟩
      exact isWord_of_ascii (by decide)
    rw [append_assoc, singleton_append, n.scanSolid?_chars hstop]
    simp only [chars, cons_append, scanWord?, n.startsName_first, if_true,
      takeWhile_append_of_stop n.isWord_others hword,
      dropWhile_append_of_stop n.isWord_others hword]
    simp
  · exact (ne_of_inReference (inReference_of_isWord (of_startsName n.startsName_first).1)).2
  · rcases mem_append.mp hc with hc | hc
    · exact (ne_of_inReference (inReference_of_isWord (n.isWord_chars c hc))).1
    · obtain rfl := mem_singleton.mp hc
      decide

end Name

theorem written_integerLexeme (n : Int) :
    Written (intText n) (integerLexeme n (intText n)) := by
  have hdigits : ∀ c ∈ toDigits n.natAbs, c.isDigit = true := fun c hc => isDigit_of_mem_toDigits hc
  have hword : ∀ c ∈ toDigits n.natAbs, isWord c = true :=
    fun c hc => isWord_of_isDigit (hdigits c hc)
  have hne : toDigits n.natAbs ≠ [] := Nat.toDigits_ne_nil
  rw [intText]
  split
  · next hneg =>
    refine ⟨fun rest hrest => scan_of_scanSolid? ?_, ⟨'-', rfl, by decide⟩, ?_⟩
    · have hsplit : splitSign ('-' :: (toDigits n.natAbs ++ rest)) =
          (some '-', toDigits n.natAbs ++ rest) := rfl
      have hvalue : -(ofDigits (toDigits n.natAbs) : Int) = n := by
        rw [ofDigits_toDigits]
        omega
      have hinteger := scanInteger?_of_digits hsplit hdigits hne hrest
      rw [if_pos rfl, hvalue] at hinteger
      have hhex : scanHex? ('-' :: (toDigits n.natAbs ++ rest)) = none := by simp [scanHex?]
      have hreference := scanReference?_cons_eq_none (c := '-') (inReference_of_ascii (by decide))
        (toDigits n.natAbs ++ rest)
      rw [cons_append]
      simp [scanSolid?, hreference, scanFloat?_of_digits hsplit hdigits hrest, hhex, hinteger]
    · refine forall_mem_cons.mpr ⟨by decide, fun c hc => ?_⟩
      exact (ne_of_inReference (inReference_of_isWord (hword c hc))).1
  · next hpos =>
    refine .of_inReference hne (fun c hc => inReference_of_isWord (hword c hc)) fun rest hrest => ?_
    have hsplit : splitSign (toDigits n.natAbs ++ rest) = (none, toDigits n.natAbs ++ rest) := by
      obtain ⟨c, ds, hds⟩ := exists_cons_of_ne_nil hne
      have hc := hdigits c (by simp [hds])
      rw [hds, cons_append]
      exact splitSign_of_ne (by rintro rfl; exact absurd hc (by decide))
        (by rintro rfl; exact absurd hc (by decide)) _
    have hvalue : (ofDigits (toDigits n.natAbs) : Int) = n := by
      rw [ofDigits_toDigits]
      omega
    have hinteger := scanInteger?_of_digits hsplit hdigits hne hrest
    rw [if_neg (by simp), hvalue] at hinteger
    have hreference := scanReference?_of_isWord hword fun c hc => (hrest.stops hc).1
    simp [scanSolid?, hreference, scanFloat?_of_digits hsplit hdigits hrest,
      scanHex?_of_digits hdigits hrest, hinteger]

theorem written_integer {n : Int} (h : -2 ^ 63 ≤ n ∧ n < 2 ^ 63) :
    Written (intText n) (.integer n) := by
  have hlexeme : integerLexeme n (intText n) = .integer n := if_pos h
  exact hlexeme ▸ written_integerLexeme n

theorem written_string (s : String) :
    Written ('"' :: escape s.toList ++ ['"']) (.string s) := by
  refine ⟨fun rest _ => scan_of_scanSolid? ?_, ⟨'"', rfl, by decide⟩, fun c hc => ?_⟩
  · have hreference := scanReference?_cons_eq_none (c := '"') (inReference_of_ascii (by decide))
      (escape s.toList ++ '"' :: rest)
    obtain ⟨hfloat, hhex, hinteger⟩ := scanNumber_eq_none (c := '"') (by decide) (by decide)
      (by decide) (escape s.toList ++ '"' :: rest)
    have hstring : scanString? ('"' :: (escape s.toList ++ '"' :: rest)) =
        some (.string s, (escape s.toList).length + 2) := by
      simp only [scanString?, quoted?_escape, unescape_escape, String.ofList_toList]
    simp [scanSolid?, hreference, hfloat, hhex, hinteger, hstring]
  · rcases mem_append.mp hc with hc | hc
    · rcases mem_cons.mp hc with rfl | hc
      · decide
      · exact ne_of_mem_escape hc
    · obtain rfl := mem_singleton.mp hc
      decide

theorem written_punct (p : Punct) : Written [p.char] (.punct p) := by
  refine ⟨fun rest _ => scan_of_scanSolid? ?_, ⟨p.char, rfl, ?_⟩, ?_⟩
  · have hascii : inReference p.char = false := by
      cases p <;> exact inReference_of_ascii (by decide)
    have hreference := scanReference?_cons_eq_none hascii rest
    obtain ⟨hfloat, hhex, hinteger⟩ := scanNumber_eq_none (c := p.char) (by cases p <;> decide)
      (by cases p <;> decide) (by cases p <;> decide) rest
    have hothers : scanString? (p.char :: rest) = none ∧ scanBoolean? (p.char :: rest) = none ∧
        scanWord? (p.char :: rest) = none := by
      cases p <;> exact ⟨rfl, rfl, rfl⟩
    have hpunct : scanPunct? (p.char :: rest) = some (.punct p, 1) := by
      rw [scanPunct?, Punct.ofChar?_char]
      rfl
    simp [scanSolid?, hreference, hfloat, hhex, hinteger, hothers, hpunct]
  · cases p <;> decide
  · rw [forall_mem_singleton]
    cases p <;> decide

theorem written_boolean (b : Bool) : Written (booleanText b) (.boolean b) := by
  have hword := isWord_of_mem_booleanText b
  refine .of_inReference (by cases b <;> decide)
    (fun c hc => inReference_of_isWord (hword c hc)) fun rest hrest => ?_
  have hreference := scanReference?_of_isWord hword fun c hc => (hrest.stops hc).1
  have hboolean : scanBoolean? (booleanText b ++ rest) =
      some (.boolean b, (booleanText b).length) := by
    cases b <;> simp [booleanText, scanBoolean?, hrest.startsWithWord]
  obtain ⟨c, cs, htext, hc⟩ : ∃ c cs, booleanText b = c :: cs ∧ startsName c = true := by
    cases b <;> exact ⟨_, _, rfl, by decide⟩
  obtain ⟨-, hdigit, hminus, hplus, hquote, -⟩ := of_startsName hc
  obtain ⟨hfloat, hhex, hinteger⟩ := scanNumber_eq_none hdigit hminus hplus (cs ++ rest)
  have hstring : scanString? (c :: (cs ++ rest)) = none := by
    rw [scanString?]
    simpa using hquote
  rw [htext, cons_append] at hreference hboolean ⊢
  simp [scanSolid?, hreference, hfloat, hhex, hinteger, hstring, hboolean]

/-! ### Written forms on a line -/

/-- The tokens of written forms on the first line, from a column on, with a column between any two
of them. -/
def tokensOf : Nat → List (List Char × Lexeme) → List Token
  | _, [] => []
  | column, (w, l) :: forms =>
    ⟨l, 1, some ⟨column, column + w.length - 1⟩⟩ :: tokensOf (column + w.length + 1) forms

/-- What a token cuts out of its line. -/
def Token.source (line : List Char) (t : Token) : Option (List Char) :=
  t.span.map fun s => (line.take s.last).drop (s.first - 1)

theorem exists_intercalate_eq (w : List Char) (ws : List (List Char)) :
    ∃ tail, List.intercalate [' '] (w :: ws) = w ++ tail := by
  cases ws with
  | nil => exact ⟨[], by simp⟩
  | cons => exact ⟨_, by rw [intercalate_cons_cons, append_assoc]⟩

theorem forall_mem_intercalate {P : Char → Prop} (hspace : P ' ') {ws : List (List Char)}
    (h : ∀ w ∈ ws, ∀ c ∈ w, P c) : ∀ c ∈ List.intercalate [' '] ws, P c := by
  induction ws with
  | nil => simp
  | cons w ws ih =>
    obtain ⟨hw, hws⟩ := forall_mem_cons.mp h
    cases ws with
    | nil => simpa using hw
    | cons next ws =>
      intro c hc
      rw [intercalate_cons_cons] at hc
      rcases mem_append.mp hc with hc | hc
      · rcases mem_append.mp hc with hc | hc
        · exact hw c hc
        · exact mem_singleton.mp hc ▸ hspace
      · exact ih hws c hc

section ScanFrom

variable {w rest : List Char} {l : Lexeme} (line column : Nat)

theorem scanFrom_written (h : Written w l) (hrest : EndsHere rest) :
    scanFrom .stock line column 0 (w ++ rest) =
      (⟨l, line, some ⟨column, column + w.length - 1⟩⟩ ::
        (scanFrom .stock line (column + w.length) 0 rest).1,
      (scanFrom .stock line (column + w.length) 0 rest).2) := by
  obtain ⟨c, hc, -⟩ := h.head
  exact scanFrom_token (ne_nil_of_mem (mem_of_mem_head? hc)) (h.scan rest hrest)

theorem Written.isBlank_head (h : Written w l) : ∀ c ∈ w.head?, isBlank c = false := by
  intro c hc
  cases w with
  | nil => cases hc
  | cons d w =>
    obtain rfl : d = c := Option.some.inj hc
    cases hblank : isBlank d with
    | false => rfl
    | true =>
      have hscan := h.scan [] (by simp [EndsHere])
      rw [append_nil, scan_of_isBlank hblank] at hscan
      cases hscan

theorem scanFrom_join {forms : List (List Char × Lexeme)}
    (h : ∀ form ∈ forms, Written form.1 form.2) :
    scanFrom .stock 1 column 0 (List.intercalate [' '] (forms.map Prod.fst)) =
      (tokensOf column forms, false) := by
  induction forms generalizing column with
  | nil => rfl
  | cons form forms ih =>
    obtain ⟨hform, hforms⟩ := forall_mem_cons.mp h
    cases forms with
    | nil =>
      have hend : EndsHere [] := by simp [EndsHere]
      have hnil := scanFrom_written 1 column hform hend
      rw [append_nil] at hnil
      simp only [map_cons, map_nil, intercalate_singleton, hnil, scanFrom, tokensOf]
    | cons next forms =>
      -- the next form stands behind one space
      obtain ⟨tail, htail⟩ := exists_intercalate_eq next.1 (forms.map Prod.fst)
      rw [← map_cons] at htail
      have hends : EndsHere (' ' :: (next.1 ++ tail)) := by
        intro c hc
        obtain rfl : ' ' = c := Option.some.inj hc
        decide
      have hrest := ih (column + form.1.length + 1) hforms
      rw [htail] at hrest
      rw [map_cons, map_cons, intercalate_cons_cons, ← map_cons, htail,
        append_assoc, singleton_append, scanFrom_written 1 column hform hends,
        scanFrom_blank (by decide), hrest]
      rfl

end ScanFrom

theorem tokenize_join {forms : List (List Char × Lexeme)} (hne : forms ≠ [])
    (h : ∀ form ∈ forms, Written form.1 form.2) :
    tokenize .stock (List.intercalate [' '] (forms.map Prod.fst)) =
      tokensOf 1 forms ++ [⟨.newline, 1, none⟩] := by
  have hchars : ∀ c ∈ List.intercalate [' '] (forms.map Prod.fst), c ≠ '\n' ∧ c ≠ '\r' := by
    refine forall_mem_intercalate (by decide) fun w hw => ?_
    obtain ⟨form, hform, rfl⟩ := mem_map.mp hw
    exact (h form hform).line
  obtain ⟨tail, hline⟩ : ∃ tail, List.intercalate [' '] (forms.map Prod.fst) =
      (forms.head hne).1 ++ tail := by
    obtain ⟨form, forms, rfl⟩ := exists_cons_of_ne_nil hne
    exact exists_intercalate_eq form.1 (forms.map Prod.fst)
  have hfirst := h _ (head_mem hne)
  obtain ⟨c, hc, hhash, hat, hmark⟩ := hfirst.head
  have hblank := hfirst.isBlank_head c hc
  have hscan := scanFrom_join 1 h
  generalize List.intercalate [' '] (forms.map Prod.fst) = line at hchars hline hscan ⊢
  obtain ⟨cs, rfl⟩ : ∃ cs, line = c :: cs := by
    cases hw : (forms.head hne).1 with
    | nil => simp [hw] at hc
    | cons d w =>
      obtain rfl : d = c := by simpa [hw] using hc
      exact ⟨w ++ tail, by rw [hline, hw]; rfl⟩
  -- the line is scanned as it stands
  have hbare : bareLine 0 (c :: cs) = c :: cs := by
    have hreturn : dropReturn (c :: cs) = c :: cs := by
      refine if_neg fun hlast => ?_
      exact (hchars '\r' (mem_of_getLast? hlast)).2 rfl
    rw [bareLine, if_pos rfl, hreturn]
    exact dropMark.eq_2 _ fun rest hrest => hmark (cons.inj hrest).1
  have hwhole : wholeLine? 1 (c :: cs) = none := by
    have hskip : skipBlanks (c :: cs) = c :: cs := dropWhile_cons_of_neg (by simp [hblank])
    rw [wholeLine?, hskip]
    split
    · next heq => exact absurd (cons.inj heq).1 hhash
    · next heq => exact absurd (cons.inj heq).1 hat
    · rfl
  have htokens : tokensOf 1 forms ≠ [] := by
    obtain ⟨form, forms, rfl⟩ := exists_cons_of_ne_nil hne
    exact cons_ne_nil _ _
  rw [tokenize, linesOf_of_not_mem fun hmem => (hchars _ hmem).1 rfl, scanLines, scanLine_eq, hbare,
    scanBare, hwhole, hscan]
  simp [scanLines, assemble, htokens]

theorem source_tokensOf (forms : List (List Char × Lexeme)) (before : List Char) :
    List.Forall₂ (fun form t => t.lexeme = form.2 ∧ t.line = 1 ∧
        t.source (before ++ List.intercalate [' '] (forms.map Prod.fst)) = some form.1)
      forms (tokensOf (before.length + 1) forms) := by
  induction forms generalizing before with
  | nil => exact .nil
  | cons form forms ih =>
    refine .cons ⟨rfl, rfl, ?_⟩ ?_
    · obtain ⟨tail, htail⟩ := exists_intercalate_eq form.1 (forms.map Prod.fst)
      rw [map_cons, htail, Token.source, Option.map_some]
      simp [take_append]
    · cases forms with
      | nil => exact .nil
      | cons next forms =>
        have hrest := ih (before ++ form.1 ++ [' '])
        have hlength : (before ++ form.1 ++ [' ']).length = before.length + 1 + form.1.length := by
          simp only [length_append, length_singleton]
          omega
        rw [hlength] at hrest
        rw [map_cons, map_cons, intercalate_cons_cons, ← map_cons]
        simpa using hrest

/-- The tokens with a written form. -/
inductive Fragment
  | word (n : Name)
  | label (n : Name)
  | integer (n : Int) (bounds : -2 ^ 63 ≤ n ∧ n < 2 ^ 63)
  | string (s : String)
  | reference (r : List Char) (chars : ∀ c ∈ r, isWord c = true ∨ c = '/') (slash : '/' ∈ r)
  | punct (p : Punct)
  | boolean (b : Bool)

namespace Fragment

/-- How a fragment is written. -/
def text : Fragment → List Char
  | word n => n.chars
  | label n => n.chars ++ [':']
  | integer n _ => intText n
  | string s => '"' :: escape s.toList ++ ['"']
  | reference r _ _ => r
  | punct p => [p.char]
  | boolean b => booleanText b

/-- What a fragment says. -/
def lexeme : Fragment → Lexeme
  | word n => .identifier (String.ofList n.chars)
  | label n => .label (String.ofList n.chars)
  | integer n _ => .integer n
  | string s => .string s
  | reference r _ _ => .reference (String.ofList r)
  | punct p => .punct p
  | boolean b => .boolean b

theorem isWritten (f : Fragment) : Written f.text f.lexeme := by
  cases f with
  | word n => exact n.written_identifier
  | label n => exact n.written_label
  | integer n bounds => exact written_integer bounds
  | string s => exact written_string s
  | reference r chars slash =>
    exact written_reference (fun c hc => by simpa [inReference] using chars c hc) slash
  | punct p => exact written_punct p
  | boolean b => exact written_boolean b

end Fragment

/-- Fragments are read back from the line that they are written on with single spaces between them:
one token each, in order, which cuts the fragment out of the line, and the end of the line. -/
theorem tokenize_fragments {fs : List Fragment} (hne : fs ≠ []) :
    let line := List.intercalate [' '] (fs.map Fragment.text)
    let tokens := tokensOf 1 (fs.map fun f => (f.text, f.lexeme))
    tokenize .stock line = tokens ++ [⟨.newline, 1, none⟩] ∧
      List.Forall₂ (fun f t => t.lexeme = f.lexeme ∧ t.line = 1 ∧ t.source line = some f.text)
        fs tokens := by
  intro line tokens
  have hwritten : ∀ form ∈ fs.map fun f => (f.text, f.lexeme), Written form.1 form.2 := by
    intro form hform
    obtain ⟨f, -, rfl⟩ := mem_map.mp hform
    exact f.isWritten
  have hline :
      List.intercalate [' '] ((fs.map fun f => (f.text, f.lexeme)).map Prod.fst) = line := by
    rw [map_map]
    rfl
  have htokens := tokenize_join (by simpa using hne) hwritten
  have hsource := source_tokensOf (fs.map fun f => (f.text, f.lexeme)) []
  rw [nil_append, List.forall₂_map_left_iff] at hsource
  rw [hline] at htokens hsource
  exact ⟨htokens, hsource⟩

/-- Fragments of all kinds, with all that needs an escape in the string. -/
def sampleFragments : List Fragment :=
  let box : Name :=
    ⟨'B', "ox_1".toList, by decide, all_eq_true.mp (by decide +kernel), by decide, by decide⟩
  [.word box, .label box, .integer (-9223372036854775808) (by decide),
    .string "say \"hi\"\\\n\r\t\x0c\x08", .reference "a//b1".toList
      (forall_iff_forall_mem.mp (by decide +kernel)) (by decide),
    .punct .colon, .boolean true]

theorem tokenize_sampleFragments :
    sampleFragments ≠ [] ∧ ∃ line : String,
      line = "Box_1 Box_1: -9223372036854775808 \"say \\\"hi\\\"\\\\\\n\\r\\t\\f\\b\" a//b1 : true" ∧
      tokenize .stock line.toList =
        tokensOf 1 (sampleFragments.map fun f => (f.text, f.lexeme)) ++ [⟨.newline, 1, none⟩] := by
  have hne : sampleFragments ≠ [] := cons_ne_nil _ _
  refine ⟨hne, _, rfl, ?_⟩
  refine Eq.trans (congrArg _ ?_) (tokenize_fragments hne).1
  decide +kernel

end CommandText
