import CommandText.Proofs.BlankCursor
import CommandText.Proofs.TokenSpans
import CommandText.Proofs.WrittenTokens
import CommandText.Schema.Build

/-!
# Brackets and reference patterns

Lines are read for their brackets in two places. The lines above the cursor are chosen by what they
leave open under the stock pattern, and then their blocks are closed by what they leave open under
the pattern of the schema. The brackets of a line can be told without a pattern, as those outside of
strings, comments and generic values. Both readers find them, unless a reference takes a bracket or
the start of a string, a comment or a generic value.

A pattern may match such characters. Then a line can be dropped whose block would be closed.
-/

namespace CommandText

open List

open Pattern (inReference)

variable {c : Char} {w rest cs : List Char} {pattern : Pattern} {x : Scanned}

/-! ### Characters that matter -/

/-- Brackets, and the characters that strings, comments and generic values start with. -/
def isLoud (c : Char) : Bool := ['\x7b', '\x7d', '[', ']', '"', '#', '<'].contains c

theorem of_isLoud (h : isLoud c = true) : inReference c = false ∧ isWord c = false ∧
    isHexDigit c = false ∧ c.isDigit = false ∧ startsName c = false ∧
    isBlank c = false := by
  have hall : ['\x7b', '\x7d', '[', ']', '"', '#', '<'].all (fun c => !inReference c && !isWord c &&
    !isHexDigit c && !c.isDigit && !startsName c && !isBlank c) = true := by decide +kernel
  have hc := all_eq_true.mp hall c (contains_iff_mem.mp h)
  simpa [and_assoc] using hc

/-- Whether some characters do not matter for brackets. -/
def IsQuiet (w : List Char) : Prop := ∀ c ∈ w, isLoud c = false

instance : DecidablePred IsQuiet := fun w => List.decidableBAll (fun c => isLoud c = false) w

theorem isQuiet_of_forall {p : Char → Bool} (hp : ∀ c, isLoud c = true → p c = false)
    (hw : ∀ c ∈ w, p c = true) : IsQuiet w := by
  intro c hc
  by_contra hloud
  rw [Bool.not_eq_false] at hloud
  have hfalse := hw c hc
  rw [hp c hloud] at hfalse
  cases hfalse

theorem isQuiet_takeWhile {p : Char → Bool} (hp : ∀ c, isLoud c = true → p c = false) :
    IsQuiet (cs.takeWhile p) :=
  isQuiet_of_forall hp (all_eq_true.mp all_takeWhile)

theorem isQuiet_append {w' : List Char} : IsQuiet (w ++ w') ↔ IsQuiet w ∧ IsQuiet w' :=
  forall_mem_append

theorem isQuiet_cons : IsQuiet (c :: w) ↔ isLoud c = false ∧ IsQuiet w :=
  forall_mem_cons

theorem isQuiet_of_numeric (h : ∀ c ∈ w, Numeric c) : IsQuiet w := by
  intro c hc
  rcases h c hc with hc | hc
  · by_contra hloud
    rw [(of_isLoud (Bool.not_eq_false _ ▸ hloud)).2.2.2.1] at hc
    cases hc
  · simp only [mem_cons, not_mem_nil, or_false] at hc
    rcases hc with rfl | rfl | rfl | rfl <;> decide

/-! ### Numbers and words -/

/-- A token whose characters do not matter for brackets. -/
def Scanned.Quiet (cs : List Char) (x : Scanned) : Prop :=
  IsQuiet (cs.take x.2) ∧ x.1.kind ≠ .punctuation

section Quiet

theorem Scanned.Quiet.append (hw : IsQuiet w) (hlength : x.2 = w.length)
    (hkind : x.1.kind ≠ .punctuation) : x.Quiet (w ++ rest) :=
  ⟨by rwa [hlength, take_left], hkind⟩

theorem quiet_scanFloat? (h : scanFloat? cs = some x) : x.Quiet cs := by
  have hkind := (sized_scanFloat? h).kind.2
  obtain ⟨l, rest, hl, rfl, rfl⟩ := exists_of_scanFloat? h
  exact .append (isQuiet_of_numeric hl.numeric) rfl hkind

theorem quiet_scanHex? (h : scanHex? cs = some x) : x.Quiet cs := by
  have hkind := (sized_scanHex? h).kind.2
  obtain ⟨y, digits, rest, hy, -, hdigits, rfl, rfl⟩ := exists_of_scanHex? h
  refine .append (isQuiet_cons.mpr ⟨by decide, isQuiet_cons.mpr ⟨?_, ?_⟩⟩) rfl hkind
  · rcases hy with rfl | rfl <;> decide
  · exact isQuiet_of_forall (fun _ h => (of_isLoud h).2.2.1) hdigits

theorem quiet_scanInteger? (h : scanInteger? cs = some x) : x.Quiet cs := by
  have hkind := (sized_scanInteger? h).kind.2
  obtain ⟨sign, digits, rest, n, hsign, -, hdigits, rfl, -, rfl⟩ := exists_of_scanInteger? h
  refine .append (isQuiet_of_numeric (forall_mem_append.mpr ⟨fun c hc => ?_, fun c hc => ?_⟩)) rfl
    hkind
  · exact numeric_sign (hsign c (Option.mem_toList.mp hc))
  · exact .inl (hdigits c hc)

theorem quiet_scanBoolean? (h : scanBoolean? cs = some x) : x.Quiet cs := by
  obtain ⟨b, rest, -, rfl, rfl⟩ := exists_of_scanBoolean? h
  exact .append (by cases b <;> decide) rfl (by simp [Lexeme.kind])

theorem quiet_scanWord? (h : scanWord? cs = some x) : x.Quiet cs := by
  obtain ⟨c, word, rest, hname, hword, -, rfl, hx⟩ := exists_of_scanWord? h
  have hfirst : IsQuiet [c] := isQuiet_of_forall (fun _ h => (of_isLoud h).2.2.2.2.1)
    (forall_mem_singleton.mpr hname)
  have hquiet : IsQuiet ([c] ++ word) :=
    isQuiet_append.mpr ⟨hfirst, isQuiet_of_forall (fun _ h => (of_isLoud h).2.1) hword⟩
  rcases hx with ⟨tail, rfl, rfl⟩ | rfl
  · rw [append_cons]
    exact .append (isQuiet_append.mpr ⟨hquiet, by decide⟩) (by simp) (by simp [Lexeme.kind])
  · exact .append hquiet rfl (by simp [Lexeme.kind])

end Quiet

/-! ### The brackets of a line -/

/-- The string, the comment or the generic value at a place. -/
def enclosed? (cs : List Char) : Option Scanned :=
  scanString? cs <|> scanComment? cs <|> scanGeneric? cs

namespace Punct

def isBracket : Punct → Bool
  | colon | comma => false
  | _ => true

end Punct

/-- The brackets from a place on, after passing over `skip` characters. -/
def bracketsFrom : Nat → List Char → List Punct
  | _, [] => []
  | skip + 1, _ :: cs => bracketsFrom skip cs
  | 0, c :: cs =>
    match enclosed? (c :: cs) with
    | some x => bracketsFrom (x.2 - 1) cs
    | none => ((Punct.ofChar? c).filter Punct.isBracket).toList ++ bracketsFrom 0 cs

/-- The bracket that a token is. -/
def Token.bracket? (t : Token) : Option Punct :=
  match t.lexeme with
  | .punct p => if p.isBracket then some p else none
  | _ => none

theorem bracketsFrom_skip (u rest : List Char) :
    bracketsFrom u.length (u ++ rest) = bracketsFrom 0 rest := by
  induction u with
  | nil => rfl
  | cons c u ih => exact ih

theorem bracketsFrom_enclosed {l : Lexeme} (hne : w ≠ [])
    (h : enclosed? (w ++ rest) = some (l, w.length)) :
    bracketsFrom 0 (w ++ rest) = bracketsFrom 0 rest := by
  cases w with
  | nil => exact absurd rfl hne
  | cons c w =>
    rw [cons_append] at h ⊢
    rw [bracketsFrom, h]
    exact bracketsFrom_skip w rest

theorem enclosed?_of_ne (hquote : c ≠ '"') (hhash : c ≠ '#') (hangle : c ≠ '<') (cs : List Char) :
    enclosed? (c :: cs) = none := by
  simp [enclosed?, scanString?, scanComment?, scanGeneric?, hquote, hhash, hangle]

theorem kind_of_enclosed? (h : enclosed? cs = some x) :
    x.1.kind ≠ .punctuation ∧ x.1.kind ≠ .reference := by
  simp only [enclosed?, Option.orElse_eq_orElse, Option.orElse_eq_or, Option.or_eq_some_iff] at h
  rcases h with h | ⟨-, h | ⟨-, h⟩⟩
  · simp [kind_of_scanString? h]
  · simp [kind_of_scanComment? h]
  · simp [kind_of_scanGeneric? h]

theorem bracketsFrom_quiet (hw : IsQuiet w) (rest : List Char) :
    bracketsFrom 0 (w ++ rest) = bracketsFrom 0 rest := by
  induction w with
  | nil => rfl
  | cons c w ih =>
    obtain ⟨hc, hw⟩ := isQuiet_cons.mp hw
    have hne {d : Char} (hd : isLoud d = true) : c ≠ d := by
      rintro rfl
      rw [hc] at hd
      cases hd
    have hbracket : (Punct.ofChar? c).filter Punct.isBracket = none := by
      unfold Punct.ofChar?
      split <;> first | rfl | exact absurd rfl (hne (by decide))
    rw [cons_append, bracketsFrom,
      enclosed?_of_ne (hne (by decide)) (hne (by decide)) (hne (by decide)), hbracket]
    exact ih hw

/-! ### One token -/

/-- What stands at a place besides references. -/
inductive Scanned.Fixed : List Char → Scanned → Prop
  | enclosed {cs : List Char} {x : Scanned} (h : enclosed? cs = some x) : Fixed cs x
  | quiet {cs : List Char} {x : Scanned} (h : x.Quiet cs) : Fixed cs x
  | punct {c : Char} {p : Punct} (h : Punct.ofChar? c = some p) (cs : List Char) :
      Fixed (c :: cs) (.punct p, 1)
  | error {c : Char} {cs : List Char} (h : enclosed? (c :: cs) = none)
      (hc : Punct.ofChar? c = none) (text : String) : Fixed (c :: cs) (.error text, 1)

theorem enclosed?_of_scanString? (h : scanString? cs = some x) : enclosed? cs = some x := by
  rw [enclosed?, h]
  rfl

theorem enclosed?_of_scanComment? (h : scanComment? cs = some x) : enclosed? cs = some x := by
  have hstring : scanString? cs = none := by
    unfold scanComment? at h
    split at h
    · rfl
    · cases h
  rw [enclosed?, hstring, h]
  rfl

theorem enclosed?_eq_scanGeneric? (hstring : scanString? cs = none)
    (hcomment : scanComment? cs = none) : enclosed? cs = scanGeneric? cs := by
  rw [enclosed?, hstring, hcomment]
  rfl

theorem scanReference?_or_fixed {lexeme : Lexeme} {length : Nat} (hne : cs ≠ [])
    (h : scan pattern cs = .token lexeme length) :
    scanReference? pattern cs = some (lexeme, length) ∨ Scanned.Fixed cs (lexeme, length) := by
  obtain ⟨c, cs, rfl⟩ := exists_cons_of_ne_nil hne
  cases found_of_scan h with
  | reference h => exact .inl h
  | float h => exact .inr (.quiet (quiet_scanFloat? h))
  | hex h => exact .inr (.quiet (quiet_scanHex? h))
  | integer h => exact .inr (.quiet (quiet_scanInteger? h))
  | string h => exact .inr (.enclosed (enclosed?_of_scanString? h))
  | boolean h => exact .inr (.quiet (quiet_scanBoolean? h))
  | word h => exact .inr (.quiet (quiet_scanWord? h))
  | punct h =>
    obtain ⟨p, hp, heq⟩ := Option.map_eq_some_iff.mp h
    cases heq
    exact .inr (.punct hp cs)
  | comment h => exact .inr (.enclosed (enclosed?_of_scanComment? h))
  | generic hstring hcomment h =>
    exact .inr (.enclosed ((enclosed?_eq_scanGeneric? hstring hcomment).trans h))
  | error hstring hpunct hcomment hgeneric =>
    exact .inr (.error ((enclosed?_eq_scanGeneric? hstring hcomment).trans hgeneric)
      (Option.map_eq_none_iff.mp hpunct) _)

theorem Token.bracket?_of_kind {t : Token} (h : t.kind ≠ .punctuation) : t.bracket? = none := by
  rw [Token.bracket?]
  split
  · next hp => exact absurd (by rw [kind, hp, Lexeme.kind]) h
  · rfl

theorem bracketsFrom_of_ofChar? {p : Punct} (h : Punct.ofChar? c = some p) (cs : List Char) :
    bracketsFrom 0 (c :: cs) = (some p |>.filter Punct.isBracket).toList ++ bracketsFrom 0 cs := by
  have hne {d : Char} (hd : Punct.ofChar? d = none) : c ≠ d := by
    rintro rfl
    rw [h] at hd
    cases hd
  rw [bracketsFrom, enclosed?_of_ne (hne rfl) (hne rfl) (hne rfl), h]

theorem Scanned.Fixed.brackets (hne : w ≠ []) {t : Token}
    (h : Scanned.Fixed (w ++ rest) (t.lexeme, w.length)) :
    bracketsFrom 0 (w ++ rest) = t.bracket?.toList ++ bracketsFrom 0 rest := by
  have hsingle {c : Char} {cs : List Char} (hcs : w ++ rest = c :: cs) (hlength : w.length = 1) :
      rest = cs := by
    obtain ⟨d, rfl⟩ := length_eq_one_iff.mp hlength
    exact (cons.inj hcs).2
  generalize hcs : w ++ rest = cs at h
  generalize hx : (t.lexeme, w.length) = x at h
  cases h with
  | enclosed h =>
    rw [← hcs, ← hx] at h
    rw [← hcs, Token.bracket?_of_kind (kind_of_enclosed? h).1]
    exact bracketsFrom_enclosed hne h
  | quiet h =>
    rw [← hcs, ← hx, Scanned.Quiet, take_left] at h
    rw [← hcs, Token.bracket?_of_kind h.2]
    exact bracketsFrom_quiet h.1 rest
  | punct hp cs =>
    obtain ⟨hlexeme, hlength⟩ := Prod.mk.inj hx
    rw [bracketsFrom_of_ofChar? hp, hsingle hcs hlength, Token.bracket?, hlexeme]
    rfl
  | error h hc text =>
    obtain ⟨hlexeme, hlength⟩ := Prod.mk.inj hx
    rw [bracketsFrom, h, hc, hsingle hcs hlength, Token.bracket?, hlexeme]
    rfl

theorem Scanned.Fixed.isQuiet_of_reference {l : Lexeme}
    (h : Scanned.Fixed (w ++ rest) (l, w.length)) (hl : l.kind = .reference) : IsQuiet w := by
  generalize hcs : w ++ rest = cs at h
  generalize hx : (l, w.length) = x at h
  cases h with
  | enclosed h => exact absurd (hx ▸ hl) (kind_of_enclosed? h).2
  | quiet h =>
    rw [← hcs, ← hx, Scanned.Quiet, take_left] at h
    exact h.1
  | punct | error =>
    rw [(Prod.mk.inj hx).1] at hl
    cases hl

/-! ### From left to right -/

/-- Whether a reference takes no character of a line that matters for brackets. -/
def Token.IsQuietReference (line : List Char) (t : Token) : Prop :=
  t.kind = .reference → ∀ w ∈ t.source line, IsQuiet w

instance (line : List Char) : DecidablePred (Token.IsQuietReference line) :=
  fun t => inferInstanceAs (Decidable (t.kind = .reference → ∀ w ∈ t.source line, IsQuiet w))

theorem source_append (front w rest : List Char) (hne : w ≠ []) (lexeme : Lexeme) (number : Nat) :
    Token.source (front ++ (w ++ rest))
      ⟨lexeme, number, some ⟨front.length + 1, front.length + 1 + w.length - 1⟩⟩ = some w := by
  have hpos := length_pos_iff.mpr hne
  rw [Token.source, Option.map_some, Nat.add_sub_cancel,
    show front.length + 1 + w.length - 1 = front.length + w.length by omega,
    take_length_add_append, drop_left, take_left]

theorem isQuiet_of_isBlank {u : List Char} (h : ∀ c ∈ u, isBlank c = true) : IsQuiet u :=
  isQuiet_of_forall (fun _ h => (of_isLoud h).2.2.2.2.2) h

theorem isQuiet_of_isContinuation (h : isContinuation cs = true) : IsQuiet cs := by
  unfold isContinuation at h
  split at h
  · exact isQuiet_cons.mpr ⟨by decide, isQuiet_of_isBlank (all_eq_true.mp h)⟩
  · cases h

theorem Walks.brackets {line column : Nat} {tokens : List Token}
    (h : Walks pattern line column cs tokens) (front : List Char)
    (hcolumn : column = front.length + 1)
    (hquiet : ∀ t ∈ tokens, t.IsQuietReference (front ++ cs)) :
    tokens.filterMap Token.bracket? = bracketsFrom 0 cs := by
  induction h generalizing front with
  | nil => rfl
  | @continuation _ cs h =>
    have hnone := bracketsFrom_quiet (isQuiet_of_isContinuation h) []
    rw [append_nil] at hnone
    exact hnone.symm
  | @blanks _ u cs _ hu _ ih =>
    rw [← append_assoc] at hquiet
    rw [bracketsFrom_quiet (isQuiet_of_isBlank hu)]
    refine ih (front ++ u) ?_ hquiet
    rw [hcolumn, length_append]
    omega
  | @token _ w cs lexeme _ hne hscan _ ih =>
    subst hcolumn
    obtain ⟨hfirst, hothers⟩ := forall_mem_cons.mp hquiet
    rw [← append_assoc] at hothers
    have hbehind := ih (front ++ w) (by rw [length_append]; omega) hothers
    rw [filterMap_eq_flatMap_toList, flatMap_cons, ← filterMap_eq_flatMap_toList,
      hbehind]
    symm
    rcases scanReference?_or_fixed (append_ne_nil_of_left_ne_nil hne cs) hscan with
      href | hfixed
    · have hkind : lexeme.kind = .reference := kind_of_scanReference? href
      rw [Token.bracket?_of_kind (by simp [Token.kind, hkind])]
      exact bracketsFrom_quiet (hfirst hkind w (source_append front w cs hne lexeme line)) cs
    · exact hfixed.brackets hne

theorem isQuiet_of_scanReference? {lexeme : Lexeme}
    (h : scanReference? .stock (w ++ rest) = some (lexeme, w.length)) : IsQuiet w := by
  rw [scanReference?_stock] at h
  split at h
  · obtain ⟨-, hlength⟩ := Prod.mk.inj (Option.some.inj h)
    have hw := prefix_of_prefix_length_le (List.takeWhile_prefix inReference)
      (prefix_append w rest) hlength.le
    rw [← hw.eq_of_length hlength]
    exact isQuiet_takeWhile fun _ h => (of_isLoud h).1
  · cases h

theorem Walks.isQuietReference {line column : Nat} {tokens : List Token}
    (h : Walks .stock line column cs tokens) (front : List Char)
    (hcolumn : column = front.length + 1) : ∀ t ∈ tokens, t.IsQuietReference (front ++ cs) := by
  induction h generalizing front with
  | nil | continuation => exact forall_mem_nil _
  | @blanks _ u cs _ _ _ ih =>
    rw [← append_assoc]
    refine ih (front ++ u) ?_
    rw [hcolumn, length_append]
    omega
  | @token _ w cs lexeme tokens hne hscan _ ih =>
    subst hcolumn
    have hbehind := ih (front ++ w) (by rw [length_append]; omega)
    rw [append_assoc] at hbehind
    refine forall_mem_cons.mpr ⟨fun hkind u hu => ?_, hbehind⟩
    rw [source_append front w cs hne lexeme line] at hu
    cases hu
    rcases scanReference?_or_fixed (append_ne_nil_of_left_ne_nil hne cs) hscan with
      href | hfixed
    · exact isQuiet_of_scanReference? href
    · exact hfixed.isQuiet_of_reference hkind

/-! ### Both readers -/

theorem Unbalanced.step_eq (u : Unbalanced) (t : Token) :
    u.step t = t.bracket?.elim u fun p => u.step ⟨.punct p, 0, none⟩ := by
  obtain ⟨lexeme, line, span⟩ := t
  cases lexeme with
  | punct p => cases p <;> rfl
  | _ => rfl

theorem foldl_step_eq (tokens : List Token) (u : Unbalanced) :
    tokens.foldl Unbalanced.step u = (tokens.filterMap Token.bracket?).foldl
      (fun u p => u.step ⟨.punct p, 0, none⟩) u := by
  induction tokens generalizing u with
  | nil => rfl
  | cons t tokens ih =>
    rw [foldl_cons, ih, u.step_eq]
    cases ht : t.bracket? with
    | none => rw [filterMap_cons_none ht, Option.elim_none]
    | some p => rw [filterMap_cons_some ht, foldl_cons, Option.elim_some]

theorem brackets_lineTokens {line : Line} (hfeed : '\n' ∉ line)
    (hquiet : ∀ t ∈ lineTokens pattern line, t.IsQuietReference (bareLine 0 line)) :
    (lineTokens pattern line).filterMap Token.bracket? =
      if (wholeLine? 1 (bareLine 0 line)).isSome then [] else bracketsFrom 0 (bareLine 0 line) := by
  rw [lineTokens_eq pattern hfeed, scanBare] at hquiet ⊢
  split at hquiet
  · next t ht =>
    have hkind : t.kind ≠ .punctuation := by
      rcases (wholeLine?_kind ht).2 with hkind | hkind <;> simp [hkind]
    rw [ht, Option.isSome_some, if_pos rfl]
    exact filterMap_cons_none (Token.bracket?_of_kind hkind)
  · next hnone =>
    rw [hnone, Option.isSome_none, if_neg Bool.false_ne_true]
    exact (walks_scanFrom pattern 1 1 _).brackets [] rfl hquiet

theorem isQuietReference_lineTokens {line : Line} (hfeed : '\n' ∉ line) :
    ∀ t ∈ lineTokens .stock line, t.IsQuietReference (bareLine 0 line) := by
  rw [lineTokens_eq .stock hfeed, scanBare]
  split
  · next u hu =>
    intro t ht hkind
    obtain rfl := mem_singleton.mp ht
    rcases (wholeLine?_kind hu).2 with h | h <;> simp [h] at hkind
  · exact (walks_scanFrom .stock 1 1 _).isQuietReference [] rfl

/-- Where no reference under a pattern takes a character that matters for brackets, a line leaves
the same brackets open under this pattern and under the stock pattern. -/
theorem opened_codeTokens (pattern : Pattern) {line : Line} (hfeed : '\n' ∉ line)
    (hquiet : ∀ t ∈ lineTokens pattern line, t.IsQuietReference (bareLine 0 line)) :
    (unbalanced (codeTokens line)).opened = leftOpen pattern line ∧
      (unbalanced (codeTokens line)).closed = (unbalanced (lineTokens pattern line)).closed := by
  have hsame : unbalanced (codeTokens line) = unbalanced (lineTokens pattern line) := by
    calc unbalanced (codeTokens line)
      _ = unbalanced (lineTokens .stock line) := foldl_step_codeOf _ {}
      _ = ((lineTokens .stock line).filterMap Token.bracket?).foldl _ {} := foldl_step_eq _ {}
      _ = ((lineTokens pattern line).filterMap Token.bracket?).foldl _ {} := by
        rw [brackets_lineTokens hfeed hquiet,
          brackets_lineTokens hfeed (isQuietReference_lineTokens hfeed)]
      _ = unbalanced (lineTokens pattern line) := (foldl_step_eq _ {}).symm
  exact ⟨congrArg Unbalanced.opened hsame, congrArg Unbalanced.closed hsame⟩

/-- Words behind a mark of their own. -/
def markPattern : Pattern :=
  .ofExpression (.concat [.anchor .start, .one (.char '!'), Pattern.stockWord])

/-- A header with brackets in a string and in a comment. -/
def markedHeader : Line := "Crate !main, \"]\" \x7b # [".toList

theorem opened_markedHeader :
    (∀ t ∈ lineTokens markPattern markedHeader, t.IsQuietReference (bareLine 0 markedHeader)) ∧
      leftOpen markPattern markedHeader = [.block] ∧
      ((unbalanced (codeTokens markedHeader)).opened = leftOpen markPattern markedHeader ∧
        (unbalanced (codeTokens markedHeader)).closed =
          (unbalanced (lineTokens markPattern markedHeader)).closed) := by
  have hquiet : ∀ t ∈ lineTokens markPattern markedHeader,
      t.IsQuietReference (bareLine 0 markedHeader) := by decide +kernel
  exact ⟨hquiet, by decide +kernel, opened_codeTokens markPattern (by decide +kernel) hquiet⟩

/-- Crates name others behind a character with which comments start. -/
def SchemaDefinition.tagged : SchemaDefinition where
  pattern := some "#[a-z]+"
  classes := [
    { name := "Crate", unlabeled := some ["source"],
      features := [{ name := "source", sort := .reference, target := some "Crate" },
        { name := "jars", sort := .containment, target := some "Jar", many := true }] },
    { name := "Jar", root := false }]

def taggedHeader : Line := "Crate #main \x7b".toList

/-- A block that is open under the pattern of its schema is not seen under the stock pattern, and
its header is dropped. -/
theorem leftOpen_taggedHeader : ∃ s, SchemaDefinition.tagged.build = .ok s ∧
    leftOpen s.pattern taggedHeader = [.block] ∧
      (unbalanced (codeTokens taggedHeader)).opened = [] ∧
      openPath [taggedHeader, "  ".toList] 1 = ["  ".toList] := by
  have hopen : SchemaDefinition.tagged.build.toOption.map
      (fun s => leftOpen s.pattern taggedHeader) = some [.block] := by decide +kernel
  obtain ⟨s, hs, hopen⟩ := Option.map_eq_some_iff.mp hopen
  refine ⟨s, ?_, hopen, by decide +kernel, by decide +kernel⟩
  cases hbuild : SchemaDefinition.tagged.build with
  | error e => simp [hbuild, Except.toOption] at hs
  | ok s' => simpa [hbuild, Except.toOption] using hs

end CommandText
