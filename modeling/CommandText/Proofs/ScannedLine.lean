import CommandText.Proofs.CutText

/-!
# The tokens of a line and their characters

A line is made of blanks and of the characters of its tokens, from left to right. So it can be cut
behind any of its tokens: what stands in front of the cut is read as before, whatever blanks and
brackets are put in place of the rest.
-/

namespace CommandText

open List

variable {lexeme : Lexeme} {rest cs : List Char}

/-! ### The characters of tokens -/

/-- With which character a token ends: a label with a colon, punctuation with itself, and a value
with no blank and no other punctuation. -/
def Lexeme.EndsIn (c : Char) : Lexeme → Prop
  | label _ => c = ':'
  | punct p => c = p.char
  | comment _ | error _ => True
  | _ => isStop c = true → c = ':'

/-- A token has some of the characters at its place. -/
structure Scanned.Placed (cs : List Char) (x : Scanned) : Prop where
  pos : 0 < x.2
  le : x.2 ≤ cs.length
  ends : ∀ c ∈ (cs.take x.2).getLast?, x.1.EndsIn c
  single : x.1.kind = .punctuation → x.2 = 1

section Placed

variable {x : Scanned}
variable {length : Nat}

theorem Scanned.Sized.placed (h : x.Sized cs)
    (hends : ∀ c ∈ (cs.take x.2).getLast?, isStop c = true → c = ':') : x.Placed cs := by
  refine ⟨h.pos, h.le, fun c hc => ?_, fun hkind => absurd hkind h.kind.2⟩
  have hkind := h.kind
  cases hx : x.1 with
  | label | punct => simp [hx, Lexeme.kind] at hkind
  | comment | error => trivial
  | _ => exact hends c hc

theorem placed_of_append {f : List Char → Option Scanned}
    (happend : ∀ {cs t}, Parted cs t → f (cs ++ t) = f cs)
    (hsized : ∀ {cs x}, f cs = some x → x.Sized cs) (h : f cs = some x) : x.Placed cs := by
  refine (hsized h).placed fun c hc hstop => ?_
  by_contra hcolon
  obtain ⟨w, hw⟩ := getLast?_eq_some_iff.mp hc
  have hcs : w ++ c :: cs.drop x.2 = cs := by
    rw [append_cons, ← hw, take_append_drop]
  have hdetached : Detached (c :: cs.drop x.2) := by
    rintro _ ⟨⟩
    exact ⟨hstop, hcolon⟩
  have hlength := congrArg List.length hw
  rw [length_take_of_le (hsized h).le, length_append, length_singleton] at hlength
  rw [← hcs, happend (.inl hdetached)] at h
  have hle := (hsized h).le
  omega

theorem sized_scanReference? (h : scanReference? .stock cs = some x) : x.Sized cs := by
  rw [scanReference?_stock] at h
  split at h
  · next hslash =>
    cases h
    exact ⟨length_pos_of_mem hslash, (List.takeWhile_prefix _).length_le,
      by simp [Lexeme.kind]⟩
  · cases h

theorem exists_of_quoted? {raw : List Char} (h : quoted? cs = some raw) :
    ∃ rest, cs = raw ++ '"' :: rest := by
  fun_induction quoted? cs generalizing raw with
  | case1 => cases h
  | case2 rest =>
    cases h
    exact ⟨rest, rfl⟩
  | case3 => cases h
  | case4 c cs ih =>
    obtain ⟨raw, hraw, rfl⟩ := Option.map_eq_some_iff.mp h
    obtain ⟨rest, rfl⟩ := ih hraw
    exact ⟨rest, rfl⟩
  | case5 c cs _ _ _ ih =>
    obtain ⟨raw, hraw, rfl⟩ := Option.map_eq_some_iff.mp h
    obtain ⟨rest, rfl⟩ := ih hraw
    exact ⟨rest, rfl⟩

theorem getLast?_take_append (w rest : List Char) (c : Char) :
    ((w ++ c :: rest).take (w.length + 1)).getLast? = some c := by
  rw [take_length_add_append]
  exact getLast?_concat

theorem placed_scanString? (h : scanString? cs = some x) : x.Placed cs := by
  unfold scanString? at h
  split at h
  · next cs =>
    split at h
    · next raw hraw =>
      cases h
      obtain ⟨rest, rfl⟩ := exists_of_quoted? hraw
      refine Scanned.Sized.placed ⟨by omega, by simp, by simp [Lexeme.kind]⟩ fun c hc => ?_
      have hlast := getLast?_take_append ('"' :: raw) rest '"'
      obtain rfl : '"' = c := Option.some.inj (hlast.symm.trans hc)
      decide
    · cases h
  · cases h

theorem placed_scanWord? (h : scanWord? cs = some x) : x.Placed cs := by
  obtain ⟨c, word, rest, hname, hword, -, rfl, ⟨rest, rfl, rfl⟩ | rfl⟩ := exists_of_scanWord? h
  · refine ⟨by simp, by simp, fun d hd => ?_, fun h => by cases h⟩
    exact (Option.some.inj ((getLast?_take_append (c :: word) rest ':').symm.trans hd)).symm
  · refine Scanned.Sized.placed ⟨by simp, by simp, by simp [Lexeme.kind]⟩ fun d hd hstop => ?_
    rw [← length_cons, take_left] at hd
    rcases mem_cons.mp (mem_of_getLast? hd) with rfl | hd
    · simp [(of_isStop hstop).2.2.2.2.2.2.2] at hname
    · have hd := hword d hd
      rw [isWord_eq_false_of_isStop hstop] at hd
      cases hd

theorem placed_scanPunct? (h : scanPunct? cs = some x) : x.Placed cs := by
  obtain ⟨p, rest, rfl, rfl⟩ := exists_of_scanPunct? h
  refine ⟨Nat.one_pos, by simp, ?_, fun _ => rfl⟩
  rintro _ ⟨⟩
  rfl

theorem placed_scanComment? (h : scanComment? cs = some x) : x.Placed cs := by
  unfold scanComment? at h
  split at h
  · cases h
    exact ⟨by omega, by simp, fun _ _ => trivial, fun h => by cases h⟩
  · cases h

theorem exists_of_upToPercent? {inner : List Char} (h : upToPercent? cs = some inner) :
    ∃ rest, cs = inner ++ '%' :: '>' :: rest := by
  fun_induction upToPercent? cs generalizing inner with
  | case1 => cases h
  | case2 rest =>
    cases h
    exact ⟨rest, rfl⟩
  | case3 c cs _ ih =>
    obtain ⟨inner, hinner, rfl⟩ := Option.map_eq_some_iff.mp h
    obtain ⟨rest, rfl⟩ := ih hinner
    exact ⟨rest, rfl⟩

theorem exists_of_scanAngles? (h : scanAngles? cs = some x) :
    ∃ inner rest, (∀ c ∈ inner, (c != '>') = true) ∧ inner ++ '>' :: rest = cs ∧
      x = (.generic (String.ofList inner), inner.length + 2) := by
  simp only [scanAngles?] at h
  split at h
  · next hlt =>
    cases h
    have hcs := takeWhile_append_dropWhile (p := (· != '>')) (l := cs)
    have hhead := head?_dropWhile_not (p := (· != '>')) (l := cs)
    cases hdrop : cs.dropWhile (· != '>') with
    | nil =>
      rw [hdrop, append_nil] at hcs
      rw [hcs] at hlt
      omega
    | cons d rest =>
      rw [hdrop] at hcs hhead
      obtain rfl : d = '>' := by simpa using hhead
      exact ⟨_, rest, fun _ => mem_takeWhile_imp (p := (· != '>')), hcs, rfl⟩
  · cases h

theorem placed_scanGeneric? (h : scanGeneric? cs = some x) : x.Placed cs := by
  have hplaced (w rest : List Char) (text : String) :
      Scanned.Placed (w ++ '>' :: rest) (.generic text, w.length + 1) := by
    refine Scanned.Sized.placed ⟨by omega, by simp, by simp [Lexeme.kind]⟩ fun c hc => ?_
    obtain rfl : '>' = c := Option.some.inj ((getLast?_take_append w rest '>').symm.trans hc)
    decide
  cases cs with
  | nil => cases h
  | cons c cs =>
    by_cases hc : c = '<'
    · rw [hc, scanGeneric?_cons, Option.or_eq_some_iff] at h
      rcases h with h | ⟨-, h⟩
      · unfold scanPercents? at h
        split at h
        · next cs =>
          obtain ⟨inner, hinner, rfl⟩ := Option.map_eq_some_iff.mp h
          obtain ⟨rest, rfl⟩ := exists_of_upToPercent? hinner
          have hpercent := hplaced (c :: '%' :: inner ++ ['%']) rest (String.ofList inner)
          simpa using hpercent
        · cases h
      · obtain ⟨inner, rest, -, rfl, rfl⟩ := exists_of_scanAngles? h
        exact hplaced (c :: inner) rest _
    · simp [scanGeneric?, hc] at h

theorem scanReference?_or_placed {pattern : Pattern} (hne : cs ≠ [])
    (h : scan pattern cs = .token lexeme length) :
    scanReference? pattern cs = some (lexeme, length) ∨ Scanned.Placed cs (lexeme, length) := by
  cases found_of_scan h with
  | reference h => exact .inl h
  | float h => exact .inr (placed_of_append scanFloat?_append sized_scanFloat? h)
  | hex h => exact .inr (placed_of_append scanHex?_append sized_scanHex? h)
  | integer h => exact .inr (placed_of_append scanInteger?_append sized_scanInteger? h)
  | string h => exact .inr (placed_scanString? h)
  | boolean h => exact .inr (placed_of_append scanBoolean?_append sized_scanBoolean? h)
  | word h => exact .inr (placed_scanWord? h)
  | punct h => exact .inr (placed_scanPunct? h)
  | comment h => exact .inr (placed_scanComment? h)
  | generic _ _ h => exact .inr (placed_scanGeneric? h)
  | error =>
    exact .inr ⟨Nat.one_pos, length_pos_iff.mpr hne, fun _ _ => trivial, fun h => by cases h⟩

theorem placed_scan (hne : cs ≠ []) (h : scan .stock cs = .token lexeme length) :
    Scanned.Placed cs (lexeme, length) :=
  (scanReference?_or_placed hne h).elim
    (placed_of_append scanReference?_append sized_scanReference?) id

end Placed

/-! ### From left to right -/

/-- A line from a column on is made of blanks and tokens. -/
inductive Scans (line : Nat) : Nat → List Char → List Token → Prop
  | nil {column : Nat} : Scans line column [] []
  | blank {column : Nat} {c : Char} {cs : List Char} {tokens : List Token}
      (hc : isBlank c = true) (h : Scans line (column + 1) cs tokens) :
      Scans line column (c :: cs) tokens
  | token {column : Nat} {w cs : List Char} {lexeme : Lexeme} {tokens : List Token} (hne : w ≠ [])
      (hscan : scan .stock (w ++ cs) = .token lexeme w.length)
      (h : Scans line (column + w.length) cs tokens) :
      Scans line column (w ++ cs)
        (⟨lexeme, line, some ⟨column, column + w.length - 1⟩⟩ :: tokens)

section Scans

variable {line column : Nat} {tokens : List Token}
variable {c : Char} {vs : List Token} {pattern : Pattern}

theorem scanFrom_skip (pattern : Pattern) (column : Nat) (u rest : List Char) :
    scanFrom pattern line column u.length (u ++ rest) =
      scanFrom pattern line (column + u.length) 0 rest := by
  induction u generalizing column with
  | nil => rfl
  | cons c u ih =>
    rw [cons_append, length_cons, scanFrom, ih]
    congr 1
    omega

theorem scanFrom_token {w : List Char} (hne : w ≠ [])
    (h : scan pattern (w ++ cs) = .token lexeme w.length) :
    scanFrom pattern line column 0 (w ++ cs) =
      (⟨lexeme, line, some ⟨column, column + w.length - 1⟩⟩ ::
        (scanFrom pattern line (column + w.length) 0 cs).1,
      (scanFrom pattern line (column + w.length) 0 cs).2) := by
  cases w with
  | nil => exact absurd rfl hne
  | cons c w =>
    have hskip := @scanFrom_skip line pattern (column + 1) w cs
    rw [cons_append] at h ⊢
    rw [scanFrom, h]
    simp only [length_cons, Nat.add_sub_cancel, hskip]
    rw [show column + 1 + w.length = column + (w.length + 1) by omega]

theorem scanFrom_blank (hc : isBlank c = true) (cs : List Char) :
    scanFrom .stock line column 0 (c :: cs) = scanFrom .stock line (column + 1) 0 cs := by
  rw [scanFrom, scan_of_isBlank hc, takeWhile_cons_of_pos hc]
  simp only [length_cons, Nat.add_sub_cancel]
  cases cs with
  | nil => rw [scanFrom, scanFrom]
  | cons d cs =>
    by_cases hd : isBlank d = true
    · rw [takeWhile_cons_of_pos hd, length_cons, scanFrom, scanFrom, scan_of_isBlank hd,
        takeWhile_cons_of_pos hd]
      rfl
    · rw [takeWhile_cons_of_neg hd, length_nil]

theorem length_of_scan_blanks {length : Nat} (h : scan pattern cs = .blanks length) :
    length = (cs.takeWhile isBlank).length ∧ 0 < length := by
  unfold scan at h
  split at h
  · cases h
  · simp only at h
    split at h
    · next hne =>
      cases h
      exact ⟨rfl, length_pos_iff.mpr hne⟩
    · split at h
      · cases h
      · split at h <;> cases h

theorem isBlank_of_scan {length : Nat} (h : scan pattern (c :: cs) = .blanks length) :
    isBlank c = true := by
  by_contra hc
  obtain ⟨rfl, hpos⟩ := length_of_scan_blanks h
  rw [takeWhile_cons_of_neg hc] at hpos
  cases hpos

theorem isContinuation_of_scan (h : scan pattern cs = .continuation) :
    isContinuation cs = true := by
  unfold scan at h
  split at h
  · cases h
  · simp only at h
    split at h
    · cases h
    · split at h
      · cases h
      · split at h
        · assumption
        · cases h

theorem scans_iff :
    Scans line column cs tokens ↔ scanFrom .stock line column 0 cs = (tokens, false) := by
  constructor
  · intro h
    induction h with
    | nil => rw [scanFrom]
    | blank hc _ ih => rw [scanFrom_blank hc, ih]
    | token hne hscan _ ih => rw [scanFrom_token hne hscan, ih]
  · intro h
    induction hlength : cs.length using Nat.strongRecOn generalizing column cs tokens with
    | ind n ih =>
      cases cs with
      | nil =>
        rw [scanFrom] at h
        cases h
        exact .nil
      | cons c cs =>
        cases hscan : scan .stock (c :: cs) with
        | continuation =>
          rw [scanFrom, hscan] at h
          cases h
        | blanks length =>
          have hc := isBlank_of_scan hscan
          rw [scanFrom_blank hc] at h
          exact .blank hc (ih cs.length (by simp [← hlength]) h rfl)
        | token lexeme length =>
          have hplaced := placed_scan (by simp) hscan
          obtain ⟨w, rest, hw, rfl⟩ : ∃ w rest, c :: cs = w ++ rest ∧ length = w.length :=
            ⟨_, _, (take_append_drop length _).symm,
              (length_take_of_le hplaced.le).symm⟩
          have hpos : 0 < w.length := hplaced.pos
          have hne : w ≠ [] := length_pos_iff.mp hpos
          rw [hw] at h hscan ⊢
          rw [scanFrom_token hne hscan] at h
          obtain ⟨rfl, hcontinues⟩ := Prod.mk.inj h
          refine .token hne hscan (ih rest.length ?_ (Prod.ext rfl hcontinues) rfl)
          rw [← hlength, hw, length_append]
          omega

/-! ### Cutting a line -/

/-- Some text is read as some tokens if blanks and brackets stand behind it. -/
def Stands (line column : Nat) (cs : List Char) (tokens : List Token) : Prop :=
  ∀ (rest : List Char) (more : List Token), Stops rest →
    Scans line (column + cs.length) rest more → Scans line column (cs ++ rest) (tokens ++ more)

theorem Stands.nil : Stands line column [] [] := fun _ _ _ h => h

theorem Stands.blank (hc : isBlank c = true) (h : Stands line (column + 1) cs tokens) :
    Stands line column (c :: cs) tokens := by
  intro rest more hstops hrest
  refine .blank hc (h rest more hstops ?_)
  rwa [Nat.add_assoc, Nat.add_comm 1, ← length_cons]

theorem Stands.token {w : List Char} (hne : w ≠ [])
    (hscan : scan .stock (w ++ cs) = .token lexeme w.length) (hcode : lexeme.kind ≠ .comment)
    (h : Stands line (column + w.length) cs tokens) : Stands line column (w ++ cs)
      (⟨lexeme, line, some ⟨column, column + w.length - 1⟩⟩ :: tokens) := by
  intro rest more hstops hrest
  have hscan' := scan_append (by simp [hne]) hstops hscan hcode
  rw [append_assoc] at hscan' ⊢
  refine .token hne hscan' (h rest more hstops ?_)
  rwa [Nat.add_assoc, ← length_append]

/-- Some text ends with the characters of a token. -/
def EndsWith (line column : Nat) (cs rest : List Char) (u : Token) : Prop :=
  ∃ front w, cs = front ++ w ∧ w ≠ [] ∧ scan .stock (w ++ rest) = .token u.lexeme w.length ∧
    u.line = line ∧ u.span = some ⟨column + front.length, column + cs.length - 1⟩

theorem EndsWith.append {u : Token} (front : List Char)
    (h : EndsWith line (column + front.length) cs rest u) :
    EndsWith line column (front ++ cs) rest u := by
  obtain ⟨front', w, rfl, hne, hscan, hline, hspan⟩ := h
  refine ⟨front ++ front', w, by simp, hne, hscan, hline, hspan.trans ?_⟩
  simp only [length_append, Nat.add_assoc]

theorem EndsWith.exists_last {u : Token} (h : EndsWith line column cs rest u) :
    ∃ c, cs.getLast? = some c ∧ u.lexeme.EndsIn c := by
  obtain ⟨front, w, rfl, hne, hscan, -⟩ := h
  have hends := (placed_scan (by simp [hne]) hscan).ends
  rw [take_left] at hends
  obtain ⟨c, hc⟩ : ∃ c, w.getLast? = some c := ⟨_, getLast?_eq_some_getLast hne⟩
  exact ⟨c, by rw [getLast?_append, hc, Option.some_or], hends c hc⟩

/-- A token of the code of a line that can be read. -/
def Token.IsClean (t : Token) : Prop := t.kind ≠ .error ∧ t.kind ≠ .comment

theorem Scans.cut {us : List Token} (h : Scans line column cs (us ++ vs)) (hne : us ≠ []) :
    ∃ pre rest, cs = pre ++ rest ∧ pre ≠ [] ∧ Scans line (column + pre.length) rest vs ∧
      (∃ u ∈ us.getLast?, EndsWith line column pre rest u) ∧
      (Parted pre rest → (∀ u ∈ us, u.IsClean) → Stands line column pre us) := by
  generalize htokens : us ++ vs = tokens at h
  induction h generalizing us with
  | nil => simp [hne] at htokens
  | @blank column c cs tokens hc _ ih =>
    obtain ⟨pre, rest, rfl, hpre, hrest, ⟨u, hu, hends⟩, hstands⟩ := ih hne htokens
    refine ⟨c :: pre, rest, rfl, by simp, ?_, ⟨u, hu, hends.append [c]⟩, fun hparted hclean => ?_⟩
    · rwa [length_cons, Nat.add_comm pre.length, ← Nat.add_assoc]
    · exact (hstands (hparted.suffix (suffix_cons c pre) hpre) hclean).blank hc
  | @token column w cs lexeme tokens hw hscan hrest ih =>
    cases us with
    | nil => exact absurd rfl hne
    | cons u us =>
      obtain ⟨rfl, hmore⟩ := cons.inj htokens
      by_cases hus : us = []
      · subst hus
        obtain rfl : vs = tokens := hmore
        refine ⟨w, cs, rfl, hw, hrest, ⟨_, rfl, [], w, rfl, hw, hscan, rfl, rfl⟩, ?_⟩
        intro hparted hclean
        obtain ⟨herror, hcomment⟩ := hclean _ mem_cons_self
        have hscan' := scan_of_append hparted hw hscan (Nat.le_refl _) herror hcomment
        have hstands : Stands line column (w ++ []) _ :=
          .token hw (by rwa [append_nil]) hcomment .nil
        rwa [append_nil] at hstands
      · obtain ⟨pre, rest, rfl, hpre, hrest, ⟨u, hu, hends⟩, hstands⟩ := ih hus hmore
        refine ⟨w ++ pre, rest, by simp, by simp [hw], ?_, ⟨u, ?_, hends.append w⟩, ?_⟩
        · rwa [length_append, ← Nat.add_assoc]
        · rw [getLast?_cons_of_ne_nil hus]
          exact hu
        · intro hparted hclean
          obtain ⟨⟨herror, hcomment⟩, hclean⟩ := forall_mem_cons.mp hclean
          rw [← append_assoc] at hscan
          have hscan' := scan_of_append hparted (by simp [hw]) hscan (by simp) herror hcomment
          exact .token hw hscan' hcomment
            (hstands (hparted.suffix (suffix_append w pre) hpre) hclean)

theorem Scans.exists_gap {v : Token} (h : Scans line column cs (v :: vs)) :
    ∃ gap w rest, cs = gap ++ (w ++ rest) ∧ (∀ c ∈ gap, isBlank c = true) ∧ w ≠ [] ∧
      scan .stock (w ++ rest) = .token v.lexeme w.length ∧ v.line = line ∧
      v.span = some ⟨column + gap.length, column + gap.length + w.length - 1⟩ ∧
      Scans line (column + gap.length + w.length) rest vs := by
  generalize htokens : v :: vs = tokens at h
  induction h with
  | nil => cases htokens
  | @blank column c cs tokens hc _ ih =>
    obtain ⟨gap, w, rest, rfl, hgap, hw, hscan, hline, hspan, hrest⟩ := ih htokens
    have hlength : column + 1 + gap.length = column + (c :: gap).length := by
      rw [length_cons]
      omega
    rw [hlength] at hspan hrest
    exact ⟨c :: gap, w, rest, rfl, forall_mem_cons.mpr ⟨hc, hgap⟩, hw, hscan, hline, hspan,
      hrest⟩
  | @token column w cs lexeme tokens hw hscan hrest ih =>
    obtain ⟨rfl, rfl⟩ := cons.inj htokens
    exact ⟨[], w, cs, rfl, by simp, hw, hscan, rfl, rfl, hrest⟩

theorem Scans.blank_of_nil (h : Scans line column cs []) : ∀ c ∈ cs, isBlank c = true := by
  generalize htokens : [] = tokens at h
  induction h with
  | nil => simp
  | blank hc _ ih => exact forall_mem_cons.mpr ⟨hc, ih htokens⟩
  | token => cases htokens

theorem Scans.exists_span (h : Scans line column cs tokens) : ∀ t ∈ tokens, ∃ a, t.span = some a ∧
    column ≤ a.first ∧ a.first ≤ a.last := by
  induction h with
  | nil => simp
  | blank _ _ ih =>
    intro t ht
    obtain ⟨a, ha, hle, hspan⟩ := ih t ht
    exact ⟨a, ha, by omega, hspan⟩
  | token hne _ _ ih =>
    have hpos := length_pos_iff.mpr hne
    refine forall_mem_cons.mpr ⟨⟨_, rfl, Nat.le_refl _, ?_⟩, fun t ht => ?_⟩
    · simp only
      omega
    · obtain ⟨a, ha, hle, hspan⟩ := ih t ht
      exact ⟨a, ha, by omega, hspan⟩

theorem Scans.pairwise (h : Scans line column cs tokens) : tokens.Pairwise fun t u =>
    ∀ a ∈ t.span, ∀ b ∈ u.span, a.last < b.first := by
  induction h with
  | nil => exact .nil
  | blank _ _ ih => exact ih
  | token hne _ hrest ih =>
    refine pairwise_cons.mpr ⟨fun u hu => ?_, ih⟩
    rintro a ⟨⟩ b hb
    obtain ⟨b', hb', hle, -⟩ := hrest.exists_span u hu
    obtain rfl : b' = b := Option.some.inj (hb'.symm.trans hb)
    have hpos := length_pos_iff.mpr hne
    simp only
    omega

theorem Scans.findIdx?_covers {us : List Token} {v : Token}
    (h : Scans line column cs (us ++ v :: vs)) {a : Span} (ha : v.span = some a) (number : Nat)
    (tail : List Token) :
    ((us ++ v :: vs).map (Token.onLine number) ++ tail).findIdx? (·.covers a.first) =
      some us.length := by
  obtain ⟨-, -, hbefore⟩ := pairwise_append.mp h.pairwise
  obtain ⟨a', ha', -, hle⟩ := h.exists_span v (by simp)
  obtain rfl : a' = a := Option.some.inj (ha'.symm.trans ha)
  have hcovers : (v.onLine number).covers a'.first = true := by
    simp [Token.covers, Token.onLine, ha, hle]
  have hnone : (us.map (Token.onLine number)).findIdx? (·.covers a'.first) = none := by
    rw [findIdx?_eq_none_iff, forall_mem_map]
    intro u hu
    obtain ⟨b, hb, -⟩ := h.exists_span u (by simp [hu])
    have hlt := hbefore u hu v mem_cons_self b hb a' ha
    simp only [Token.covers, Token.onLine, hb]
    simp
    omega
  rw [map_append, map_cons, append_assoc, cons_append, findIdx?_append,
    hnone, findIdx?_cons, hcovers]
  simp

theorem Scans.blanks {gap : List Char} (hgap : ∀ c ∈ gap, isBlank c = true)
    (h : Scans line (column + gap.length) cs tokens) : Scans line column (gap ++ cs) tokens := by
  induction gap generalizing column with
  | nil => exact h
  | cons c gap ih =>
    obtain ⟨hc, hgap⟩ := forall_mem_cons.mp hgap
    refine .blank hc (ih hgap ?_)
    rwa [Nat.add_assoc, Nat.add_comm 1, ← length_cons]

end Scans

end CommandText
