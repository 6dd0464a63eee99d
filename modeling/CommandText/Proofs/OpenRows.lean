import CommandText.Editor.OpenPath
import CommandText.Proofs.ArgumentTokens
import Mathlib.Data.List.Induction

/-!
# Lines that are open at the cursor

Read downward, the lines of a document open and close blocks and lists, and what is open at a line
is a stack of headers. Each of them may stand below a role label that is alone on its line.
`climb` reads the same lines upward and counts brackets. Both find the same headers, as long as
each line opens or closes one bracket at most, and each closing bracket closes what was opened
last.
-/

namespace CommandText

open List

variable {e : Enclosure}

/-- The tokens that are neither comment nor note. -/
def codeOf (tokens : List Token) : List Token :=
  tokens.filter fun t => !(t.isKind .comment || t.isKind .note)

theorem foldl_step_codeOf (tokens : List Token) (u : Unbalanced) :
    (codeOf tokens).foldl Unbalanced.step u = tokens.foldl Unbalanced.step u := by
  rw [codeOf, foldl_filter]
  congr 1
  funext u t
  split
  · rfl
  · next h =>
    have hkind : t.kind = .comment ∨ t.kind = .note := by
      simpa [Token.isKind, or_iff_not_imp_left] using h
    exact (u.step_of_kind (by rcases hkind with hkind | hkind <;> simp [hkind])).symm

/-- A line of a text. -/
structure Row where
  /-- The characters as an editor shows them. -/
  text : Line
  number : Nat
  tokens : List Token

namespace Row

/-- The tokens of the line that are neither comment nor note. -/
def code (r : Row) : List Token := codeOf r.tokens

/-- The text of the line by itself says the same as the line in its document, comments apart. -/
def Faithful (r : Row) : Prop := codeTokens r.text = r.code.map (Token.onLine 1)

end Row

/-! ### What a line opens or closes -/

/-- What a line does to the brackets around it. -/
inductive Bearing
  /-- There is no code on it. -/
  | silent
  /-- It holds a label alone. -/
  | label
  /-- All its brackets have a partner on it. -/
  | flat
  | opens (e : Enclosure)
  | closes (e : Enclosure)
  /-- Several of its brackets have no partner on it. -/
  | tangled
deriving DecidableEq, Repr

/-- What some tokens on a line do to the brackets around it. -/
def bearing (tokens : List Token) : Bearing :=
  if tokens.isEmpty then .silent
  else if isLoneLabel tokens then .label
  else
    match unbalanced tokens with
    | ⟨[], []⟩ => .flat
    | ⟨[], [e]⟩ => .opens e
    | ⟨[e], []⟩ => .closes e
    | _ => .tangled

theorem isLoneLabel_map_onLine (line : Nat) (tokens : List Token) :
    isLoneLabel (tokens.map (Token.onLine line)) = isLoneLabel tokens := by
  rcases tokens with _ | ⟨t, _ | ⟨u, tokens⟩⟩ <;> rfl

theorem bearing_map_onLine (line : Nat) (tokens : List Token) :
    bearing (tokens.map (Token.onLine line)) = bearing tokens := by
  rw [bearing, isEmpty_map, isLoneLabel_map_onLine, unbalanced_map_onLine, bearing]

theorem bearing_eq_of_unbalanced {tokens : List Token} (hne : tokens ≠ [])
    (hlone : isLoneLabel tokens = false) :
    bearing tokens = match unbalanced tokens with
      | ⟨[], []⟩ => .flat
      | ⟨[], [e]⟩ => .opens e
      | ⟨[e], []⟩ => .closes e
      | _ => .tangled := by
  rw [bearing, if_neg (by simpa using hne), if_neg (by simp [hlone])]

theorem unbalanced_of_isLoneLabel {tokens : List Token} (h : isLoneLabel tokens = true) :
    unbalanced tokens = {} := by
  rcases tokens with _ | ⟨t, _ | ⟨u, tokens⟩⟩
  · cases h
  · refine Unbalanced.step_of_kind ?_ {}
    rw [Token.isKind_iff.mp h]
    decide
  · cases h

theorem bearing_cases (tokens : List Token) :
    (tokens = [] ∧ bearing tokens = .silent) ∨
    (tokens ≠ [] ∧ isLoneLabel tokens = true ∧ bearing tokens = .label) ∨
    (tokens ≠ [] ∧ isLoneLabel tokens = false ∧
      ((unbalanced tokens = {} ∧ bearing tokens = .flat) ∨
      (∃ e, unbalanced tokens = { opened := [e] } ∧ bearing tokens = .opens e) ∨
      (∃ e, unbalanced tokens = { closed := [e] } ∧ bearing tokens = .closes e) ∨
      bearing tokens = .tangled)) := by
  by_cases hne : tokens = []
  · exact .inl ⟨hne, by rw [hne]; rfl⟩
  · cases hlone : isLoneLabel tokens with
    | true =>
      refine .inr (.inl ⟨hne, rfl, ?_⟩)
      rw [bearing, if_neg (by simpa using hne), if_pos hlone]
    | false =>
      refine .inr (.inr ⟨hne, rfl, ?_⟩)
      rw [bearing_eq_of_unbalanced hne hlone]
      split
      · next h => exact .inl ⟨h, rfl⟩
      · next e h => exact .inr (.inl ⟨e, h, rfl⟩)
      · next e h => exact .inr (.inr (.inl ⟨e, h, rfl⟩))
      · exact .inr (.inr (.inr rfl))

/-! ### One line upward -/

section Climb

variable {c : Climb} {line : Line} {above : List Line}

theorem climb_of_silent (h : bearing (codeTokens line) = .silent) :
    climb c (line :: above) = climb c above := by
  rcases bearing_cases (codeTokens line) with ⟨hnil, -⟩ | ⟨-, -, h'⟩ |
    ⟨-, -, ⟨-, h'⟩ | ⟨e, -, h'⟩ | ⟨e, -, h'⟩ | h'⟩
  · rw [climb]
    simp [hnil]
  all_goals rw [h] at h'; cases h'

theorem climb_of_label (h : bearing (codeTokens line) = .label) :
    climb c (line :: above) =
      if c.adjacent && c.isLevel then line :: climb { c with adjacent := false } above
      else climb { c with adjacent := false } above := by
  rcases bearing_cases (codeTokens line) with ⟨-, h'⟩ | ⟨hne, hlone, -⟩ |
    ⟨-, -, ⟨-, h'⟩ | ⟨e, -, h'⟩ | ⟨e, -, h'⟩ | h'⟩
  · rw [h] at h'
    cases h'
  · rw [climb]
    simp only [List.isEmpty_iff, hne, if_false, unbalanced_of_isLoneLabel hlone, hlone]
    rfl
  all_goals rw [h] at h'; cases h'

theorem climb_of_flat (h : bearing (codeTokens line) = .flat) :
    climb c (line :: above) = climb { c with adjacent := false } above := by
  rcases bearing_cases (codeTokens line) with ⟨-, h'⟩ | ⟨-, -, h'⟩ |
    ⟨hne, hlone, ⟨hu, -⟩ | ⟨e, -, h'⟩ | ⟨e, -, h'⟩ | h'⟩
  · rw [h] at h'
    cases h'
  · rw [h] at h'
    cases h'
  · rw [climb]
    simp only [List.isEmpty_iff, hne, if_false, hu, hlone]
    rfl
  all_goals rw [h] at h'; cases h'

theorem climb_of_opens (h : bearing (codeTokens line) = .opens e) :
    climb c (line :: above) =
      if (c.open? e).2 then line :: climb { (c.open? e).1 with adjacent := true } above
      else climb { (c.open? e).1 with adjacent := false } above := by
  rcases bearing_cases (codeTokens line) with ⟨-, h'⟩ | ⟨-, -, h'⟩ |
    ⟨hne, hlone, ⟨-, h'⟩ | ⟨e', hu, h'⟩ | ⟨e', -, h'⟩ | h'⟩
  · rw [h] at h'
    cases h'
  · rw [h] at h'
    cases h'
  · rw [h] at h'
    cases h'
  · rw [h] at h'
    cases h'
    rw [climb]
    simp only [List.isEmpty_iff, hne, if_false, hu, hlone, Climb.pass, Climb.openAll,
      foldl_nil, Bool.or_false, Bool.false_and, Bool.false_eq_true]
  all_goals rw [h] at h'; cases h'

theorem climb_of_closes (h : bearing (codeTokens line) = .closes e) :
    climb c (line :: above) = climb { c.close e with adjacent := false } above := by
  rcases bearing_cases (codeTokens line) with ⟨-, h'⟩ | ⟨-, -, h'⟩ |
    ⟨hne, hlone, ⟨-, h'⟩ | ⟨e', -, h'⟩ | ⟨e', hu, h'⟩ | h'⟩
  · rw [h] at h'
    cases h'
  · rw [h] at h'
    cases h'
  · rw [h] at h'
    cases h'
  · rw [h] at h'
    cases h'
  · rw [h] at h'
    cases h'
    rw [climb]
    simp only [List.isEmpty_iff, hne, if_false, hu, hlone]
    rfl
  · rw [h] at h'
    cases h'

end Climb

/-! ### Reading downward -/

/-- A block or list that is open: the line that opens it, and the lone label above that line. -/
structure Frame where
  enclosure : Enclosure
  header : Row
  label : Option Row

/-- What is open behind some lines. -/
structure Standing where
  /-- The open blocks and lists, the innermost first. -/
  frames : List Frame := []
  /-- The last line with code, if it holds a label alone. -/
  label : Option Row := none

namespace Standing

/-- What is open behind a further line, unless the line closes something else than what was opened
last. -/
def pass? (st : Standing) (r : Row) : Option Standing :=
  match bearing r.code with
  | .silent => some st
  | .label => some { st with label := some r }
  | .flat => some { st with label := none }
  | .opens e => some ⟨⟨e, r, st.label⟩ :: st.frames, none⟩
  | .closes e =>
    match st.frames with
    | [] => none
    | f :: fs => if f.enclosure = e then some ⟨fs, none⟩ else none
  | .tangled => none

section Pass

variable {st : Standing} {r : Row}

theorem pass?_of_silent (h : bearing r.code = .silent) : st.pass? r = some st := by
  rw [pass?, h]

theorem pass?_of_label (h : bearing r.code = .label) :
    st.pass? r = some { st with label := some r } := by
  rw [pass?, h]

theorem pass?_of_flat (h : bearing r.code = .flat) :
    st.pass? r = some { st with label := none } := by
  rw [pass?, h]

theorem pass?_of_opens (h : bearing r.code = .opens e) :
    st.pass? r = some ⟨⟨e, r, st.label⟩ :: st.frames, none⟩ := by
  rw [pass?, h]

theorem pass?_of_closes (f : Frame) (fs : List Frame) (label : Option Row)
    (h : bearing r.code = .closes f.enclosure) :
    pass? ⟨f :: fs, label⟩ r = some ⟨fs, none⟩ := by
  rw [pass?, h]
  simp

end Pass

/-- The lines of some frames, from the bottom up. -/
def frameLines (frames : List Frame) : List Line :=
  frames.flatMap fun f => f.header.text :: (f.label.map Row.text).toList

/-- The lines that are open, from the bottom up. -/
def lines (st : Standing) : List Line := (st.label.map Row.text).toList ++ frameLines st.frames

end Standing

/-- How many of some frames enclose one sort of thing. -/
def enclosing (e : Enclosure) (frames : List Frame) : Nat := frames.countP (·.enclosure = e)

theorem enclosing_cons (e : Enclosure) (f : Frame) (fs : List Frame) :
    enclosing e (f :: fs) = enclosing e fs + if f.enclosure = e then 1 else 0 := by
  rw [enclosing, countP_cons]
  simp [enclosing]

theorem climb_of_pass {rows : List Row} (hrows : ∀ r ∈ rows, r.Faithful) {st : Standing}
    (hst : rows.foldlM Standing.pass? {} = some st) {c : Climb} (shut : List Frame)
    {kept : List Frame} (hframes : st.frames = shut ++ kept)
    (hblocks : c.blocks = enclosing .block shut)
    (hlists : c.lists = enclosing .list shut) (hadjacent : c.adjacent = true → shut = []) :
    climb c (rows.map Row.text).reverse =
      (if c.adjacent then (st.label.map Row.text).toList else []) ++
        Standing.frameLines kept := by
  induction rows using List.reverseRecOn generalizing st c shut kept with
  | nil =>
    cases hst
    obtain ⟨-, rfl⟩ := append_eq_nil_iff.mp hframes.symm
    simp [climb, Standing.frameLines]
  | append_singleton rows r ih =>
    obtain ⟨hrows, hr⟩ : (∀ r ∈ rows, r.Faithful) ∧ r.Faithful :=
      by simpa [or_imp, forall_and] using hrows
    have hbearing : bearing (codeTokens r.text) = bearing r.code := by
      rw [hr, bearing_map_onLine]
    rw [foldlM_append] at hst
    obtain ⟨st₀, hst₀, hpass⟩ := Option.bind_eq_some_iff.mp hst
    have hpass : st₀.pass? r = some st := by simpa using hpass
    rw [map_append, map_singleton, reverse_append, reverse_singleton,
      singleton_append]
    cases hb : bearing r.code with
    | silent =>
      rw [Standing.pass?_of_silent hb] at hpass
      cases hpass
      rw [climb_of_silent (hbearing.trans hb)]
      exact ih hrows hst₀ shut hframes hblocks hlists hadjacent
    | label =>
      rw [Standing.pass?_of_label hb] at hpass
      cases hpass
      rw [climb_of_label (hbearing.trans hb)]
      have hrest := ih hrows hst₀ (c := { c with adjacent := false }) shut hframes hblocks
        hlists (by simp)
      cases hadj : c.adjacent with
      | false => simpa [hadj] using hrest
      | true =>
        obtain rfl := hadjacent hadj
        have hlevel : c.isLevel = true := by simp [Climb.isLevel, hblocks, hlists, enclosing]
        simpa [hadj, hlevel] using hrest
    | flat =>
      rw [Standing.pass?_of_flat hb] at hpass
      cases hpass
      rw [climb_of_flat (hbearing.trans hb)]
      have hrest := ih hrows hst₀ (c := { c with adjacent := false }) shut hframes hblocks
        hlists (by simp)
      simpa using hrest
    | opens e =>
      rw [Standing.pass?_of_opens hb] at hpass
      cases hpass
      rw [climb_of_opens (hbearing.trans hb)]
      cases shut with
      | nil =>
        -- nothing is closed below, so the line is a header
        obtain rfl := hframes
        have hopen : c.open? e = (c, true) := by
          cases e
          · simp [Climb.open?, hblocks, enclosing]
          · simp [Climb.open?, hlists, enclosing]
        have hrest := ih hrows hst₀ (c := { c with adjacent := true }) [] rfl hblocks hlists
          (by simp)
        rw [hopen]
        simpa [Standing.frameLines] using hrest
      | cons f shut =>
        obtain ⟨rfl, hrest⟩ := List.cons.inj hframes
        have hadj : c.adjacent = false := by
          cases h : c.adjacent with
          | false => rfl
          | true => cases hadjacent h
        have hopen : c.open? e =
            (⟨enclosing .block shut, enclosing .list shut, c.adjacent⟩, false) := by
          cases e
          · simp_all [Climb.open?, enclosing_cons]
          · simp_all [Climb.open?, enclosing_cons]
        rw [hopen, if_neg (by simp)]
        have hkept := ih hrows hst₀ (c := ⟨enclosing .block shut, enclosing .list shut, false⟩)
          shut hrest rfl rfl (by simp)
        simpa [hadj] using hkept
    | closes e =>
      rw [Standing.pass?, hb] at hpass
      obtain ⟨frames, label⟩ := st₀
      cases frames with
      | nil => cases hpass
      | cons f frames =>
        simp only at hpass
        split at hpass
        · next he =>
          cases hpass
          rw [climb_of_closes (hbearing.trans hb)]
          have hclose : ({ c.close e with adjacent := false } : Climb) =
              ⟨enclosing .block (f :: shut), enclosing .list (f :: shut), false⟩ := by
            cases e <;> simp [Climb.close, enclosing_cons, hblocks, hlists, he]
          rw [hclose]
          have hrest := ih hrows hst₀
            (c := ⟨enclosing .block (f :: shut), enclosing .list (f :: shut), false⟩)
            (f :: shut) (congrArg (f :: ·) hframes) rfl rfl (by simp)
          simpa using hrest
        · cases hpass
    | tangled =>
      rw [Standing.pass?, hb] at hpass
      cases hpass

theorem climb_eq {rows : List Row} (hrows : ∀ r ∈ rows, r.Faithful) {st : Standing}
    (hst : rows.foldlM Standing.pass? {} = some st) :
    climb {} (rows.map Row.text).reverse = st.lines :=
  climb_of_pass hrows hst [] rfl rfl rfl fun _ => rfl

end CommandText
