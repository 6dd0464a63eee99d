import CommandText.Proofs.LineScan

/-!
# Text that is cut between tokens

What stands at a place of a line does not depend on all of the line. References, numbers and words
end in front of blanks and punctuation, so the text behind such a character does not count, and
nor does text that begins with one. Strings and generic values go up to a character of their own;
they are the same if the line is cut behind them.
-/

namespace CommandText

open List

open Pattern (inReference)

variable {t cs : List Char} {c : Char}

/-! ### Stops -/

/-- Blanks and punctuation. Words and numbers end there. -/
def isStop (c : Char) : Bool := isBlank c || (Punct.ofChar? c).isSome

theorem of_isStop (h : isStop c = true) : inReference c = false ∧ isWord c = false ∧
    isHexDigit c = false ∧ c.isDigit = false ∧ c ≠ '-' ∧ c ≠ '+' ∧ c ≠ '.' ∧
      startsName c = false := by
  have hall : (!inReference c && !isWord c && !isHexDigit c && !c.isDigit && c != '-' && c != '+' &&
      c != '.' && !startsName c) = true := by
    rcases Bool.or_eq_true_iff.mp h with h | h
    · exact forall_blank (P := fun c => !inReference c && !isWord c && !isHexDigit c &&
        !c.isDigit && c != '-' && c != '+' && c != '.' && !startsName c) (by decide +kernel) h
    · unfold Punct.ofChar? at h
      split at h <;> first | decide +kernel | cases h
  simpa [and_assoc] using hall

theorem isWord_eq_false_of_isStop (h : isStop c = true) : isWord c = false :=
  (of_isStop h).2.1

theorem isStop_eq_false_of_isWord (h : isWord c = true) : isStop c = false := by
  by_contra hstop
  rw [Bool.not_eq_false] at hstop
  rw [isWord_eq_false_of_isStop hstop] at h
  cases h

/-- Text that begins with a stop, or no text. A colon goes with the word in front of it. -/
def Detached (t : List Char) : Prop := ∀ c ∈ t.head?, isStop c = true ∧ c ≠ ':'

/-- A text and what follows it: the text ends with a stop, or what follows begins with one. -/
def Parted (cs t : List Char) : Prop := Detached t ∨ ∃ c ∈ cs.getLast?, isStop c = true

/-- Stops, with which no label ends. -/
structure Stops (t : List Char) : Prop where
  detached : Detached t
  all : ∀ c ∈ t, isStop c = true

namespace Stops

variable (h : Stops t)

include h

theorem parted {cs : List Char} : Parted cs t := .inl h.detached

theorem not_mem (hc : isStop c = false) : c ∉ t := by
  intro hmem
  rw [h.all c hmem] at hc
  cases hc

theorem quote : '"' ∉ t := h.not_mem (by decide +kernel)

theorem angle : '>' ∉ t := h.not_mem (by decide +kernel)

end Stops

namespace Parted

variable {p : Char → Bool}

theorem nil_iff : Parted [] t ↔ Detached t := by simp [Parted]

theorem suffix {cs' : List Char} (h : Parted cs t) (hsuffix : cs' <:+ cs) (hne : cs' ≠ []) :
    Parted cs' t := by
  refine h.imp_right ?_
  rintro ⟨c, hc, hstop⟩
  obtain ⟨front, rfl⟩ := hsuffix
  rw [getLast?_append, getLast?_eq_some_getLast hne] at hc
  exact ⟨c, by rwa [getLast?_eq_some_getLast hne], hstop⟩

theorem detached (h : Parted cs t) (hp : ∀ c, isStop c = true → p c = false)
    (hall : ∀ c ∈ cs, p c = true) : Detached t := by
  refine h.resolve_right ?_
  rintro ⟨c, hc, hstop⟩
  have hmem := hall c (mem_of_getLast? hc)
  rw [hp c hstop] at hmem
  cases hmem

theorem tail (h : Parted (c :: cs) t) (hc : isStop c = false) : Parted cs t := by
  cases cs with
  | nil => exact nil_iff.mpr (h.detached (p := fun c => !isStop c) (by simp) (by simpa using hc))
  | cons d cs => exact h.suffix (suffix_cons c _) (by simp)

section

variable (hp : ∀ c, isStop c = true → p c = false)
include hp

theorem dropWhile (h : Parted cs t) : Parted (cs.dropWhile p) t := by
  by_cases hne : cs.dropWhile p = []
  · rw [hne, nil_iff]
    exact h.detached hp (dropWhile_eq_nil_iff.mp hne)
  · exact h.suffix (dropWhile_suffix p) hne

theorem takeWhile_append (h : Parted cs t) : (cs ++ t).takeWhile p = cs.takeWhile p := by
  rw [List.takeWhile_append]
  split
  · next hlength =>
    have hcs : cs.takeWhile p = cs := (List.takeWhile_prefix p).eq_of_length hlength
    have hdetached := h.detached hp (takeWhile_eq_self_iff.mp hcs)
    have hnil : t.takeWhile p = [] := by
      cases t with
      | nil => rfl
      | cons c t => exact takeWhile_cons_of_neg (by simp [hp c (hdetached c rfl).1])
    rw [hnil, append_nil, hcs]
  · rfl

theorem dropWhile_append (h : Parted cs t) : (cs ++ t).dropWhile p = cs.dropWhile p ++ t := by
  rw [List.dropWhile_append]
  split
  · next hnil =>
    rw [List.isEmpty_iff] at hnil
    have hdetached := h.detached hp (dropWhile_eq_nil_iff.mp hnil)
    rw [hnil, nil_append]
    cases t with
    | nil => rfl
    | cons c t => exact dropWhile_cons_of_neg (by simp [hp c (hdetached c rfl).1])
  · rfl

end

theorem startsWithWord_append (h : Parted cs t) : startsWithWord (cs ++ t) = startsWithWord cs := by
  cases cs with
  | nil =>
    cases t with
    | nil => rfl
    | cons c t => exact isWord_eq_false_of_isStop (nil_iff.mp h c rfl).1
  | cons => rfl

theorem prefix_of_append (h : Parted cs t) {w : List Char} (hw : ∀ c ∈ w, isWord c = true)
    (hlead : w <+: cs ++ t) : w <+: cs := by
  obtain ⟨rest, hrest⟩ := hlead
  rcases append_eq_append_iff.mp hrest with ⟨v, rfl, -⟩ | ⟨v, rfl, rfl⟩
  · exact ⟨v, rfl⟩
  · cases v with
    | nil => exact ⟨[], by simp⟩
    | cons c v =>
      have hall := forall_mem_append.mp hw
      have hdetached := h.detached (fun _ => isWord_eq_false_of_isStop) hall.1
      have hc := isWord_eq_false_of_isStop (hdetached c rfl).1
      rw [hall.2 c (by simp)] at hc
      cases hc

end Parted

/-! ### References, numbers and words -/

section Alternatives

variable (h : Parted cs t)

include h

theorem scanReference?_append : scanReference? .stock (cs ++ t) = scanReference? .stock cs := by
  simp only [scanReference?_stock, h.takeWhile_append fun c hc => (of_isStop hc).1]

theorem splitSign_append : splitSign (cs ++ t) = ((splitSign cs).1, (splitSign cs).2 ++ t) ∧
    Parted (splitSign cs).2 t := by
  cases cs with
  | nil =>
    cases t with
    | nil => exact ⟨rfl, h⟩
    | cons c t =>
      obtain ⟨-, -, -, -, hminus, hplus, -⟩ := of_isStop (Parted.nil_iff.mp h c rfl).1
      exact ⟨splitSign_of_ne hminus hplus t, h⟩
  | cons c cs =>
    by_cases hminus : c = '-'
    · rw [hminus] at h ⊢
      exact ⟨rfl, h.tail (by decide)⟩
    · by_cases hplus : c = '+'
      · rw [hplus] at h ⊢
        exact ⟨rfl, h.tail (by decide)⟩
      · rw [cons_append, splitSign_of_ne hminus hplus, splitSign_of_ne hminus hplus]
        exact ⟨rfl, h⟩

theorem dropDigits_append : (cs ++ t).dropWhile Char.isDigit = cs.dropWhile Char.isDigit ++ t ∧
    (cs ++ t).takeWhile Char.isDigit = cs.takeWhile Char.isDigit ∧
    Parted (cs.dropWhile Char.isDigit) t := by
  have hp : ∀ c, isStop c = true → c.isDigit = false := fun c hc => (of_isStop hc).2.2.2.1
  exact ⟨h.dropWhile_append hp, h.takeWhile_append hp, h.dropWhile hp⟩

theorem splitExponent?_append : splitExponent? (cs ++ t) =
    (splitExponent? cs).map (fun x => (x.1, x.2 ++ t)) ∧
      ∀ x ∈ splitExponent? cs, Parted x.2 t := by
  rcases cs with _ | ⟨c, _ | ⟨sign, cs⟩⟩
  · refine ⟨?_, by simp [splitExponent?]⟩
    cases t with
    | nil => rfl
    | cons c t =>
      have hc : c ≠ 'e' := by
        rintro rfl
        exact absurd (Parted.nil_iff.mp h _ rfl).1 (by decide)
      simp [splitExponent?, hc]
  · refine ⟨?_, by simp [splitExponent?]⟩
    by_cases hc : c = 'e'
    · rw [hc] at h ⊢
      cases t with
      | nil => rfl
      | cons sign t =>
        have hsign := of_isStop (Parted.nil_iff.mp (h.tail (by decide)) sign rfl).1
        simp [splitExponent?, hsign]
    · simp [splitExponent?, hc]
  · by_cases hc : c = 'e'
    · rw [hc] at h ⊢
      by_cases hsign : sign = '+' ∨ sign = '-'
      · have hparted : Parted cs t := by
          refine (h.tail (by decide)).tail ?_
          rcases hsign with rfl | rfl <;> decide
        obtain ⟨hdrop, htake, hrest⟩ := dropDigits_append hparted
        simp only [cons_append, splitExponent?, hdrop, htake]
        split
        · exact ⟨rfl, by simpa using hrest⟩
        · exact ⟨rfl, by simp⟩
      · simp [splitExponent?, hsign]
    · simp [splitExponent?, hc]

theorem splitFloat?_append : splitFloat? (cs ++ t) =
    (splitFloat? cs).map (fun x => (x.1, x.2 ++ t)) ∧ ∀ x ∈ splitFloat? cs, Parted x.2 t := by
  obtain ⟨hsplit, hunsigned⟩ := splitSign_append h
  obtain ⟨hdrop, htake, hrest⟩ := dropDigits_append hunsigned
  simp only [splitFloat?, hsplit, hdrop, htake]
  cases hcases : (splitSign cs).2.dropWhile Char.isDigit with
  | nil =>
    rw [hcases, Parted.nil_iff] at hrest
    refine ⟨?_, by simp⟩
    cases t with
    | nil => rfl
    | cons c t =>
      have hc : c ≠ '.' := (of_isStop (hrest c rfl).1).2.2.2.2.2.2.1
      simp [hc]
  | cons c rest =>
    rw [hcases] at hrest
    by_cases hc : c = '.'
    · rw [hc] at hrest ⊢
      obtain ⟨hdrop', htake', hfraction⟩ := dropDigits_append (hrest.tail (by decide))
      obtain ⟨hexponent, hbehind⟩ := splitExponent?_append hfraction
      simp only [cons_append, hdrop', htake', hexponent]
      split
      · exact ⟨rfl, by simp⟩
      · cases hx : splitExponent? (rest.dropWhile Char.isDigit) with
        | none => exact ⟨rfl, by simpa using hfraction⟩
        | some x => exact ⟨rfl, by simpa using hbehind x hx⟩
    · simp [hc]

theorem scanFloat?_append : scanFloat? (cs ++ t) = scanFloat? cs := by
  obtain ⟨hsplit, hrest⟩ := splitFloat?_append h
  rw [scanFloat?, hsplit, scanFloat?]
  cases hx : splitFloat? cs with
  | none => rfl
  | some x => simp only [Option.map_some, (hrest x hx).startsWithWord_append]

theorem scanHex?_append : scanHex? (cs ++ t) = scanHex? cs := by
  rcases cs with _ | ⟨c, _ | ⟨x, cs⟩⟩
  · cases t with
    | nil => rfl
    | cons c t =>
      have hc : c ≠ '0' := by
        rintro rfl
        exact absurd (Parted.nil_iff.mp h _ rfl).1 (by decide)
      simp [scanHex?, hc]
  · by_cases hc : c = '0'
    · rw [hc] at h ⊢
      cases t with
      | nil => rfl
      | cons x t =>
        have hx : x ≠ 'x' ∧ x ≠ 'X' := by
          have hstop := (Parted.nil_iff.mp (h.tail (by decide)) x rfl).1
          constructor <;> rintro rfl <;> exact absurd hstop (by decide)
        simp [scanHex?, hx]
    · simp [scanHex?, hc]
  · by_cases hc : c = '0'
    · rw [hc] at h ⊢
      by_cases hx : x = 'x' ∨ x = 'X'
      · have hparted : Parted cs t := by
          refine (h.tail (by decide)).tail ?_
          rcases hx with rfl | rfl <;> decide
        have hp : ∀ c, isStop c = true → isHexDigit c = false := fun c hc => (of_isStop hc).2.2.1
        simp only [cons_append, scanHex?, hparted.takeWhile_append hp,
          hparted.dropWhile_append hp, (hparted.dropWhile hp).startsWithWord_append]
      · simp [scanHex?, hx]
    · simp [scanHex?, hc]

theorem scanInteger?_append : scanInteger? (cs ++ t) = scanInteger? cs := by
  obtain ⟨hsplit, hunsigned⟩ := splitSign_append h
  obtain ⟨hdrop, htake, hrest⟩ := dropDigits_append hunsigned
  simp only [scanInteger?, hsplit, hdrop, htake, hrest.startsWithWord_append]

theorem scanBoolean?_append : scanBoolean? (cs ++ t) = scanBoolean? cs := by
  have htrue : ['t', 'r', 'u', 'e'].all isWord = true := by decide +kernel
  have hfalse : ['f', 'a', 'l', 's', 'e'].all isWord = true := by decide +kernel
  have hword {w : List Char} (rest : List Char) (hw : ∀ c ∈ w, isWord c = true)
      (heq : cs = w ++ rest) :
      startsWithWord (rest ++ t) = startsWithWord rest := by
    subst heq
    refine Parted.startsWithWord_append ?_
    induction w with
    | nil => exact h
    | cons c w ih =>
      obtain ⟨hc, hw⟩ := forall_mem_cons.mp hw
      exact ih hw (h.tail (isStop_eq_false_of_isWord hc))
  fun_cases scanBoolean? cs with
  | case1 rest h' | case2 rest h' =>
    have hsame := hword rest (all_eq_true.mp htrue) rfl
    simp [scanBoolean?, hsame, h']
  | case3 rest h' | case4 rest h' =>
    have hsame := hword rest (all_eq_true.mp hfalse) rfl
    simp [scanBoolean?, hsame, h']
  | case5 cs hnotTrue hnotFalse =>
    unfold scanBoolean?
    split
    · next rest heq =>
      obtain ⟨rest', rfl⟩ := h.prefix_of_append (all_eq_true.mp htrue)
        ⟨rest, heq.symm⟩
      exact (hnotTrue rest' rfl).elim
    · next rest heq =>
      obtain ⟨rest', rfl⟩ := h.prefix_of_append (all_eq_true.mp hfalse)
        ⟨rest, heq.symm⟩
      exact (hnotFalse rest' rfl).elim
    · rfl

theorem scanWord?_append (hne : cs ≠ []) : scanWord? (cs ++ t) = scanWord? cs := by
  cases cs with
  | nil => exact absurd rfl hne
  | cons c cs =>
    rw [cons_append, scanWord?, scanWord?]
    split
    · next hname =>
      have hstop : isStop c = false := by
        by_contra hstop
        rw [Bool.not_eq_false] at hstop
        rw [(of_isStop hstop).2.2.2.2.2.2.2] at hname
        cases hname
      have hparted := h.tail hstop
      have hp : ∀ c, isStop c = true → isWord c = false := fun _ => isWord_eq_false_of_isStop
      have hrest := hparted.dropWhile hp
      rw [hparted.takeWhile_append hp, hparted.dropWhile_append hp]
      cases hcases : cs.dropWhile isWord with
      | nil =>
        rw [hcases, Parted.nil_iff] at hrest
        cases t with
        | nil => rfl
        | cons d t =>
          have hd : d ≠ ':' := (hrest d rfl).2
          simp [hd]
      | cons d rest =>
        by_cases hd : d = ':'
        · rw [hd]
          rfl
        · simp [hd]
    · rfl

theorem scanPunct?_append (hne : cs ≠ []) : scanPunct? (cs ++ t) = scanPunct? cs := by
  cases cs with
  | nil => exact absurd rfl hne
  | cons => rfl

end Alternatives

/-! ### Strings and generic values -/

section Delimited
variable {x : Scanned}

theorem quoted?_cons_of_ne (h : c ≠ '"') (h' : c ≠ '\\') (cs : List Char) :
    quoted? (c :: cs) = (quoted? cs).map (c :: ·) := by
  rw [quoted?]
  · exact h
  · intro hc
    exact absurd hc h'
  · intro d ds hc
    exact absurd hc h'

theorem ne_backslash_of_quoted {cs : List Char} (hlast : c = '\\' → cs = [] → False)
    (hpair : ∀ d ds, c = '\\' → cs = d :: ds → False) : c ≠ '\\' := by
  intro hc
  cases cs with
  | nil => exact hlast hc rfl
  | cons d ds => exact hpair d ds hc rfl

theorem quoted?_eq_none (ht : '"' ∉ t) : quoted? t = none := by
  fun_induction quoted? t with
  | case1 => rfl
  | case2 => simp at ht
  | case3 => rfl
  | case4 c cs ih => rw [ih (by simp_all), Option.map_none]
  | case5 c cs hquote hlast hpair ih => rw [ih (by simp_all), Option.map_none]

theorem quoted?_append (ht : '"' ∉ t) : quoted? (cs ++ t) = quoted? cs := by
  fun_induction quoted? cs with
  | case1 => exact quoted?_eq_none ht
  | case2 => rfl
  | case3 => exact quoted?_eq_none (by simpa using ht)
  | case4 c cs ih => rw [cons_append, cons_append, quoted?, ih]
  | case5 c cs hquote hlast hpair ih =>
    rw [cons_append, quoted?_cons_of_ne hquote (ne_backslash_of_quoted hlast hpair), ih]

theorem quoted?_of_append {raw : List Char} (h : quoted? (cs ++ t) = some raw)
    (hlength : raw.length < cs.length) : quoted? cs = some raw := by
  fun_induction quoted? cs generalizing raw with
  | case1 => simp at hlength
  | case2 => simpa [quoted?] using h
  | case3 =>
    cases t with
    | nil => exact h
    | cons c t =>
      obtain ⟨raw, -, rfl⟩ := Option.map_eq_some_iff.mp h
      simp at hlength
  | case4 c cs ih =>
    obtain ⟨raw, hraw, rfl⟩ := Option.map_eq_some_iff.mp h
    rw [ih hraw (by simpa using hlength), Option.map_some]
  | case5 c cs hquote hlast hpair ih =>
    rw [cons_append, quoted?_cons_of_ne hquote (ne_backslash_of_quoted hlast hpair)] at h
    obtain ⟨raw, hraw, rfl⟩ := Option.map_eq_some_iff.mp h
    rw [ih hraw (by simpa using hlength), Option.map_some]

theorem scanString?_append (hne : cs ≠ []) (ht : '"' ∉ t) :
    scanString? (cs ++ t) = scanString? cs := by
  cases cs with
  | nil => exact absurd rfl hne
  | cons c cs =>
    by_cases hc : c = '"'
    · rw [hc, cons_append, scanString?, scanString?, quoted?_append ht]
    · simp [scanString?, hc]

theorem upToPercent?_cons_of_ne (h : ∀ rest, c = '%' → cs = '>' :: rest → False) :
    upToPercent? (c :: cs) = (upToPercent? cs).map (c :: ·) := by
  rw [upToPercent?]
  exact h

theorem upToPercent?_eq_none (ht : '>' ∉ t) : upToPercent? t = none := by
  fun_induction upToPercent? t with
  | case1 => rfl
  | case2 => simp at ht
  | case3 c cs hpercent ih => rw [ih (by simp_all), Option.map_none]

theorem upToPercent?_append (ht : '>' ∉ t) : upToPercent? (cs ++ t) = upToPercent? cs := by
  fun_induction upToPercent? cs with
  | case1 => exact upToPercent?_eq_none ht
  | case2 => rfl
  | case3 c cs hpercent ih =>
    rw [cons_append, upToPercent?_cons_of_ne, ih]
    intro rest hc hcs
    cases cs with
    | nil => simp [show t = '>' :: rest from hcs] at ht
    | cons d cs =>
      obtain ⟨rfl, -⟩ := cons.inj hcs
      exact hpercent cs hc rfl

theorem length_upToPercent? {inner : List Char} (h : upToPercent? cs = some inner) :
    inner.length + 1 < cs.length := by
  fun_induction upToPercent? cs generalizing inner with
  | case1 => cases h
  | case2 =>
    cases h
    simp
  | case3 c cs hpercent ih =>
    obtain ⟨inner, hinner, rfl⟩ := Option.map_eq_some_iff.mp h
    simpa using ih hinner

theorem upToPercent?_append_eq_some_iff {inner : List Char}
    (hlength : inner.length + 1 < cs.length) :
    upToPercent? (cs ++ t) = some inner ↔ upToPercent? cs = some inner := by
  fun_induction upToPercent? cs generalizing inner with
  | case1 => simp at hlength
  | case2 => simp [upToPercent?]
  | case3 c cs hpercent ih =>
    obtain ⟨d, cs, rfl⟩ : ∃ d cs', cs = d :: cs' := by
      refine exists_cons_of_ne_nil ?_
      rintro rfl
      simp at hlength
    rw [cons_append, upToPercent?_cons_of_ne]
    · simp only [Option.map_eq_some_iff]
      refine exists_congr fun inner' => and_congr_left ?_
      rintro rfl
      exact ih (by simpa using hlength)
    · intro rest hc hcs
      obtain ⟨rfl, -⟩ := cons.inj hcs
      exact hpercent cs hc rfl

/-- A generic value between percent signs, behind the first bracket. -/
def scanPercents? : List Char → Option Scanned
  | '%' :: cs => (upToPercent? cs).map fun inner =>
    (.generic (String.ofList inner), inner.length + 4)
  | _ => none

/-- A generic value between brackets alone, behind the first of them. -/
def scanAngles? (cs : List Char) : Option Scanned :=
  let inner := cs.takeWhile (· != '>')
  if inner.length < cs.length then some (.generic (String.ofList inner), inner.length + 2) else none

theorem scanGeneric?_cons (cs : List Char) :
    scanGeneric? ('<' :: cs) = (scanPercents? cs).or (scanAngles? cs) := by
  cases cs with
  | nil => rfl
  | cons c cs =>
    by_cases hc : c = '%'
    · rw [hc, scanGeneric?, scanPercents?]
      cases upToPercent? cs <;> rfl
    · simp [scanGeneric?, scanPercents?, scanAngles?, hc]

theorem scanPercents?_append (ht : '>' ∉ t) : scanPercents? (cs ++ t) = scanPercents? cs := by
  have hcons {cs : List Char} (c : Char) (h : upToPercent? (cs ++ t) = upToPercent? cs) :
      scanPercents? (c :: (cs ++ t)) = scanPercents? (c :: cs) := by
    by_cases hc : c = '%'
    · rw [hc, scanPercents?, scanPercents?, h]
    · simp [scanPercents?, hc]
  cases cs with
  | nil =>
    cases t with
    | nil => rfl
    | cons c t =>
      by_cases hc : c = '%'
      · rw [hc, nil_append, scanPercents?, upToPercent?_eq_none (by simp_all), Option.map_none]
        rfl
      · simp [scanPercents?, hc]
  | cons c cs => exact hcons c (upToPercent?_append ht)

theorem scanAngles?_append (ht : '>' ∉ t) : scanAngles? (cs ++ t) = scanAngles? cs := by
  have htake : t.takeWhile (· != '>') = t := by
    rw [takeWhile_eq_self_iff]
    intro c hc
    simpa using ne_of_mem_of_not_mem hc ht
  simp only [scanAngles?, takeWhile_append, length_append]
  by_cases hall : (cs.takeWhile (· != '>')).length = cs.length
  · simp [hall, htake]
  · have hle := (List.takeWhile_prefix (l := cs) (· != '>')).length_le
    simp only [hall, if_false]
    rw [if_pos (by omega), if_pos (by omega)]

theorem scanGeneric?_append (hne : cs ≠ []) (ht : '>' ∉ t) :
    scanGeneric? (cs ++ t) = scanGeneric? cs := by
  cases cs with
  | nil => exact absurd rfl hne
  | cons c cs =>
    by_cases hc : c = '<'
    · rw [hc, cons_append, scanGeneric?_cons, scanGeneric?_cons, scanPercents?_append ht,
        scanAngles?_append ht]
    · simp [scanGeneric?, hc]

theorem scanPercents?_append_eq_some_iff (hlength : x.2 ≤ cs.length + 1) :
    scanPercents? (cs ++ t) = some x ↔ scanPercents? cs = some x := by
  have hpercent (cs : List Char) : scanPercents? ('%' :: cs) = some x ↔
      ∃ inner, upToPercent? cs = some inner ∧
        (.generic (String.ofList inner), inner.length + 4) = x := Option.map_eq_some_iff
  have hother {c : Char} (hc : c ≠ '%') (cs : List Char) : scanPercents? (c :: cs) = none := by
    simp [scanPercents?, hc]
  cases cs with
  | nil =>
    have hshort {cs : List Char} : scanPercents? cs ≠ some x := by
      intro h
      unfold scanPercents? at h
      split at h
      · obtain ⟨inner, -, rfl⟩ := Option.map_eq_some_iff.mp h
        simp at hlength
      · cases h
    exact iff_of_false hshort hshort
  | cons c cs =>
    by_cases hc : c = '%'
    · rw [hc, cons_append, hpercent, hpercent]
      refine exists_congr fun inner => and_congr_left ?_
      rintro rfl
      have hinner : inner.length + 4 ≤ cs.length + 1 + 1 := hlength
      exact upToPercent?_append_eq_some_iff (by omega)
    · rw [cons_append, hother hc, hother hc]

theorem length_scanPercents? (h : scanPercents? cs = some x) : x.2 ≤ cs.length + 1 := by
  unfold scanPercents? at h
  split at h
  · obtain ⟨inner, hinner, rfl⟩ := Option.map_eq_some_iff.mp h
    have hlt := length_upToPercent? hinner
    rw [length_cons]
    omega
  · cases h

theorem scanAngles?_of_append (h : scanAngles? (cs ++ t) = some x) (hlength : x.2 ≤ cs.length + 1) :
    scanAngles? cs = some x := by
  simp only [scanAngles?, takeWhile_append] at h ⊢
  by_cases hall : (cs.takeWhile (· != '>')).length = cs.length
  · simp only [hall, if_true] at h
    split at h
    · cases h
      rw [length_append] at hlength
      omega
    · cases h
  · have hle := (List.takeWhile_prefix (l := cs) (· != '>')).length_le
    simp only [hall, if_false] at h
    rw [if_pos (by omega)]
    split at h
    · exact h
    · cases h

theorem scanGeneric?_of_append (hne : cs ≠ []) (h : scanGeneric? (cs ++ t) = some x)
    (hlength : x.2 ≤ cs.length) : scanGeneric? cs = some x := by
  cases cs with
  | nil => exact absurd rfl hne
  | cons c cs =>
    by_cases hc : c = '<'
    · rw [hc, cons_append, scanGeneric?_cons, Option.or_eq_some_iff] at h
      rw [hc, scanGeneric?_cons, Option.or_eq_some_iff]
      rcases h with h | ⟨hnone, h⟩
      · exact .inl ((scanPercents?_append_eq_some_iff hlength).mp h)
      · refine .inr ⟨?_, scanAngles?_of_append h hlength⟩
        rw [Option.eq_none_iff_forall_ne_some]
        intro y hy
        rw [(scanPercents?_append_eq_some_iff (length_scanPercents? hy)).mpr hy] at hnone
        cases hnone
    · simp [scanGeneric?, hc] at h

end Delimited

/-! ### What stands at a place -/

/-- What comes before comments. -/
def scanFirm? (cs : List Char) : Option Scanned :=
  scanReference? .stock cs <|> scanFloat? cs <|> scanHex? cs <|> scanInteger? cs <|>
    scanString? cs <|> scanBoolean? cs <|> scanWord? cs <|> scanPunct? cs

theorem scanSolid?_eq (cs : List Char) :
    scanSolid? .stock cs = (scanFirm? cs <|> scanComment? cs) := by
  simp only [scanSolid?, scanFirm?, Option.orElse_eq_orElse, Option.orElse_eq_or, Option.or_assoc]

section Place
variable {lexeme : Lexeme} {length : Nat}

theorem scanFirm?_append (h : Parted cs t) (hne : cs ≠ [])
    (hstring : scanString? (cs ++ t) = scanString? cs) : scanFirm? (cs ++ t) = scanFirm? cs := by
  simp only [scanFirm?, scanReference?_append h, scanFloat?_append h, scanHex?_append h,
    scanInteger?_append h, hstring, scanBoolean?_append h, scanWord?_append h hne,
    scanPunct?_append h hne]

theorem scan_quote (cs : List Char) : scan .stock ('"' :: cs) =
    match quoted? cs with
    | some raw => .token (.string (String.ofList (unescape raw))) (raw.length + 2)
    | none => .token (.error "\"") 1 := by
  have hreference : scanReference? .stock ('"' :: cs) = none := by
    rw [scanReference?_stock, takeWhile_cons_of_neg (by decide +kernel)]
    simp
  obtain ⟨hfloat, hhex, hinteger⟩ :=
    scanNumber_eq_none (c := '"') (by decide) (by decide) (by decide) cs
  have hboolean : scanBoolean? ('"' :: cs) = none := rfl
  have hword : scanWord? ('"' :: cs) = none := rfl
  have hpunct : scanPunct? ('"' :: cs) = none := rfl
  have hcomment : scanComment? ('"' :: cs) = none := rfl
  have hblank : isBlank '"' = false := by decide +kernel
  have hsolid : scanSolid? .stock ('"' :: cs) = scanString? ('"' :: cs) := by
    simp [scanSolid?, hreference, hfloat, hhex, hinteger, hboolean, hword, hpunct, hcomment]
  rw [scan, hsolid, scanString?]
  cases quoted? cs with
  | some raw => rfl
  | none => simp [hblank, scanGeneric?, isContinuation]

theorem scan_angle (cs : List Char) : scan .stock ('<' :: cs) =
    match scanGeneric? ('<' :: cs) with
    | some (lexeme, length) => .token lexeme length
    | none => .token (.error "<") 1 := by
  have hblank : isBlank '<' = false := by decide +kernel
  rw [scan, scanSolid?_of_startsNothing (by decide +kernel)]
  cases scanGeneric? ('<' :: cs) <;> simp [hblank, isContinuation]

theorem scan_of_append (h : Parted cs t) (hne : cs ≠ [])
    (hscan : scan .stock (cs ++ t) = .token lexeme length) (hlength : length ≤ cs.length)
    (hclean : lexeme.kind ≠ .error) (hcode : lexeme.kind ≠ .comment) :
    scan .stock cs = .token lexeme length := by
  cases cs with
  | nil => exact absurd rfl hne
  | cons c cs =>
    by_cases hquote : c = '"'
    · rw [hquote, cons_append, scan_quote] at hscan
      rw [hquote, scan_quote]
      cases hraw : quoted? (cs ++ t) with
      | some raw =>
        rw [hraw] at hscan
        cases hscan
        have hraw' : raw.length + 2 ≤ cs.length + 1 := hlength
        rw [quoted?_of_append hraw (by omega)]
      | none =>
        rw [hraw] at hscan
        cases hscan
        exact absurd rfl hclean
    · by_cases hangle : c = '<'
      · rw [hangle] at hscan hlength ⊢
        rw [cons_append, scan_angle, ← cons_append] at hscan
        rw [scan_angle]
        cases hgeneric : scanGeneric? ('<' :: cs ++ t) with
        | some x =>
          rw [hgeneric] at hscan
          cases hscan
          rw [scanGeneric?_of_append (by simp) hgeneric hlength]
        | none =>
          rw [hgeneric] at hscan
          cases hscan
          exact absurd rfl hclean
      · have hstring (cs : List Char) : scanString? (c :: cs) = none := by
          simp [scanString?, hquote]
        have hgeneric (cs : List Char) : scanGeneric? (c :: cs) = none := by
          simp [scanGeneric?, hangle]
        have hfirm := scanFirm?_append h hne (by rw [cons_append, hstring, hstring])
        rw [cons_append] at hfirm
        simp only [cons_append, scan, scanSolid?_eq, hfirm, hgeneric] at hscan ⊢
        cases hsome : scanFirm? (c :: cs) with
        | some x =>
          rw [hsome] at hscan
          exact hscan
        | none =>
          -- a comment, blanks, a continuation or an error
          rw [hsome] at hscan
          exfalso
          by_cases hhash : c = '#'
          · rw [hhash] at hscan
            cases hscan
            exact hcode rfl
          · have hcomment : scanComment? (c :: (cs ++ t)) = none := by simp [scanComment?, hhash]
            rw [hcomment] at hscan
            simp only [Option.orElse_eq_orElse, Option.orElse_eq_or, Option.or_none] at hscan
            split at hscan
            · cases hscan
            · split at hscan
              · cases hscan
              · cases hscan
                exact hclean rfl

theorem isContinuation_of_append (h : isContinuation (cs ++ t) = true) (hne : cs ≠ []) :
    isContinuation cs = true := by
  cases cs with
  | nil => exact absurd rfl hne
  | cons c cs =>
    by_cases hc : c = '\\'
    · rw [hc, cons_append, isContinuation, all_append, Bool.and_eq_true] at h
      rw [hc, isContinuation, h.1]
    · simp [isContinuation, hc] at h

theorem scan_append_of_detached (hne : cs ≠ []) (ht : Detached t) (hquote : '"' ∉ t)
    (hangle : '>' ∉ t) (hscan : scan .stock cs = .token lexeme length)
    (hcode : lexeme.kind ≠ .comment) : scan .stock (cs ++ t) = .token lexeme length := by
  have hfirm := scanFirm?_append (.inl ht) hne (scanString?_append hne hquote)
  have hgeneric := scanGeneric?_append hne hangle
  cases cs with
  | nil => exact absurd rfl hne
  | cons c cs =>
    simp only [scan, scanSolid?_eq, hfirm, hgeneric] at hscan ⊢
    cases hsome : scanFirm? (c :: cs) with
    | some x =>
      rw [hsome] at hscan
      exact hscan
    | none =>
      rw [hsome] at hscan
      have hhash : c ≠ '#' := by
        rintro rfl
        cases hscan
        exact hcode rfl
      have hcomment (cs : List Char) : scanComment? (c :: cs) = none := by
        simp [scanComment?, hhash]
      have hblank : isBlank c = false := by
        rw [← Bool.not_eq_true]
        intro hblank
        simp [hcomment, hblank] at hscan
      simp only [cons_append, hcomment, hblank, Option.orElse_eq_orElse, Option.orElse_eq_or,
        Option.or_none, takeWhile_cons, Bool.false_eq_true, if_false, ne_eq, not_true] at hscan ⊢
      cases hfound : scanGeneric? (c :: cs) with
      | some x =>
        rw [hfound] at hscan
        exact hscan
      | none =>
        rw [hfound] at hscan
        simp only at hscan ⊢
        split at hscan
        · cases hscan
        · next hends =>
          rw [if_neg]
          · exact hscan
          · exact fun hcontinues => hends (isContinuation_of_append (t := t) hcontinues hne)

theorem scan_append (hne : cs ≠ []) (ht : Stops t) (hscan : scan .stock cs = .token lexeme length)
    (hcode : lexeme.kind ≠ .comment) : scan .stock (cs ++ t) = .token lexeme length :=
  scan_append_of_detached hne ht.detached ht.quote ht.angle hscan hcode

end Place

end CommandText
