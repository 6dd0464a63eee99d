import CommandText.Proofs.MatchingBrackets
import CommandText.Proofs.OpenReading

/-!
# Rows that are kept

Which of some rows are open behind them can be told row by row, looking down: a row stays open if it
opens something that the rows below do not close, and a lone label is kept if the next row with code
stays open, or if there is none. Reading the rows downward with a stack of headers keeps the same
ones.
-/

namespace CommandText

open Unbalanced List Token Standing

variable {rows : List Row} {st st' : Standing}

/-! ### Looking down -/

/-- How many of the headers in front of some rows are closed by them. -/
def shuts : List Row → Nat
  | [] => 0
  | r :: below =>
    match bearing r.code with
    | .opens _ => shuts below - 1
    | .closes _ => shuts below + 1
    | _ => shuts below

/-- The row opens something that the rows below do not close. -/
def Row.staysOpen (r : Row) (below : List Row) : Bool :=
  match bearing r.code with
  | .opens _ => shuts below == 0
  | _ => false

/-- A lone label above some rows belongs to a row that stays open, or to what comes below them. -/
def leads : List Row → Bool
  | [] => true
  | r :: below => if r.code.isEmpty then leads below else r.staysOpen below

/-- The rows that are open behind all of them. -/
def keptRows : List Row → List Row
  | [] => []
  | r :: below =>
    if r.staysOpen below || (isLoneLabel r.code && leads below) then r :: keptRows below
    else keptRows below

theorem keptRows_sublist (rows : List Row) : (keptRows rows).Sublist rows := by
  induction rows with
  | nil => exact .slnil
  | cons r rows ih =>
    rw [keptRows]
    split
    · exact ih.cons_cons r
    · exact ih.cons r

/-! ### Against the stack of headers -/

theorem isLoneLabel_eq_of_bearing {tokens : List Token} :
    isLoneLabel tokens = decide (bearing tokens = .label) := by
  rcases bearing_cases tokens with ⟨rfl, h⟩ | ⟨-, hlone, h⟩ |
    ⟨-, hlone, ⟨-, h⟩ | ⟨e, -, h⟩ | ⟨e, -, h⟩ | h⟩
  · rfl
  all_goals rw [h, hlone]; rfl

theorem isEmpty_eq_of_bearing {tokens : List Token} :
    tokens.isEmpty = decide (bearing tokens = .silent) := by
  rcases bearing_cases tokens with ⟨rfl, h⟩ | ⟨hne, -, h⟩ |
    ⟨hne, -, ⟨-, h⟩ | ⟨e, -, h⟩ | ⟨e, -, h⟩ | h⟩
  · rfl
  all_goals rw [h, isEmpty_eq_false_iff.mpr hne]; rfl

theorem openRows_of_pass {outer : List Frame} {label : Option Row} {frames : List Frame}
    {label' : Option Row} (h : rows.foldlM Standing.pass? ⟨outer, label⟩ = some ⟨frames, label'⟩) :
    ∃ new, frames = new ++ outer.drop (shuts rows) ∧
      openRows new.reverse label' =
        (if leads rows then label.toList else []) ++ keptRows rows := by
  induction rows generalizing outer label with
  | nil =>
    cases h
    exact ⟨[], rfl, by simp [openRows, leads, keptRows]⟩
  | cons r rows ih =>
    rw [foldlM_cons] at h
    obtain ⟨st, hpass, h⟩ := Option.bind_eq_some_iff.mp h
    rw [shuts, leads, keptRows, isEmpty_eq_of_bearing, isLoneLabel_eq_of_bearing, Row.staysOpen]
    cases hb : bearing r.code with
    | silent =>
      rw [pass?_of_silent hb] at hpass
      cases hpass
      simpa using ih h
    | label =>
      rw [pass?_of_label hb] at hpass
      cases hpass
      obtain ⟨new, hframes, hopen⟩ := ih h
      refine ⟨new, hframes, hopen.trans ?_⟩
      cases leads rows <;> simp
    | flat =>
      rw [pass?_of_flat hb] at hpass
      cases hpass
      obtain ⟨new, hframes, hopen⟩ := ih h
      exact ⟨new, hframes, hopen.trans (by simp)⟩
    | opens e =>
      rw [pass?_of_opens hb] at hpass
      cases hpass
      obtain ⟨new, hframes, hopen⟩ := ih h
      cases hshuts : shuts rows with
      | zero =>
        -- the header is left, below those that the other rows open
        refine ⟨new ++ [⟨e, r, label⟩], by simp [hframes, hshuts], ?_⟩
        rw [reverse_append, reverse_singleton, singleton_append, openRows_cons, hopen]
        simp
      | succ n =>
        refine ⟨new, by simp [hframes, hshuts], hopen.trans ?_⟩
        simp
    | closes e =>
      rw [Standing.pass?, hb] at hpass
      cases outer with
      | nil => cases hpass
      | cons f outer =>
        simp only at hpass
        split at hpass
        · cases hpass
          obtain ⟨new, hframes, hopen⟩ := ih h
          exact ⟨new, by simpa using hframes, hopen.trans (by simp)⟩
        · cases hpass
    | tangled =>
      rw [Standing.pass?, hb] at hpass
      cases hpass

/-! ### Brackets of rows -/

/-- What a line does to open brackets. -/
def Bearing.act : Bearing → Unbalanced → Unbalanced
  | opens e, u => ⟨u.closed, e :: u.opened⟩
  | closes e, u => u.close e
  | _, u => u

theorem Bearing.exists_opens_of_act {b : Bearing} (h : (b.act {}).opened ≠ []) :
    ∃ e, b = .opens e := by
  cases b with
  | opens e => exact ⟨e, rfl⟩
  | _ => exact absurd rfl h

/-- A line does to brackets what its bearing says. If it leaves a bracket open, this is the last of
its code. -/
structure Row.Acts (r : Row) : Prop where
  /-- Every piece of the line is a token. -/
  clean : ∀ t ∈ r.code, t.kind ≠ .error
  act : ∀ u : Unbalanced, r.code.foldl Unbalanced.step u = (bearing r.code).act u
  opener : ∀ e, bearing r.code = .opens e → ∃ x o, r.Holds (x ++ [o]) ∧ o.opens? = some e

theorem foldl_step_stream (hrows : ∀ r ∈ rows, r.Acts) (u : Unbalanced) :
    (Row.stream rows).foldl step u =
      rows.foldl (fun u r => (bearing r.code).act u) u := by
  induction rows generalizing u with
  | nil => rfl
  | cons r rows ih =>
    obtain ⟨hr, hrows⟩ := forall_mem_cons.mp hrows
    have hline : r.tokens.foldl step u = (bearing r.code).act u :=
      (foldl_step_codeOf r.tokens u).symm.trans (hr.act u)
    have hnewline (u : Unbalanced) : u.step r.newline = u :=
      u.step_of_kind (by simp [Row.newline, Token.kind, Lexeme.kind])
    rw [Row.stream_cons, foldl_append, hline, foldl_cons, hnewline, ih hrows,
      foldl_cons]

section

variable (h : rows.foldlM Standing.pass? st = some st')
include h

theorem foldl_act_of_pass (closed : List Enclosure) :
    rows.foldl (fun u r => (bearing r.code).act u) ⟨closed, st.frames.map Frame.enclosure⟩ =
      ⟨closed, st'.frames.map Frame.enclosure⟩ := by
  induction rows generalizing st with
  | nil =>
    cases h
    rfl
  | cons r rows ih =>
    rw [foldlM_cons] at h
    obtain ⟨st₁, hpass, h⟩ := Option.bind_eq_some_iff.mp h
    rw [foldl_cons, ← ih h]
    congr 1
    rw [Standing.pass?] at hpass
    split at hpass
    · next hb =>
      cases hpass
      rw [hb, Bearing.act]
      all_goals simp
    · next hb =>
      cases hpass
      rw [hb, Bearing.act]
      all_goals simp
    · next hb =>
      cases hpass
      rw [hb, Bearing.act]
      all_goals simp
    · next hb =>
      cases hpass
      rw [hb, Bearing.act]
      rfl
    · next e hb =>
      split at hpass
      · cases hpass
      · next f frames hframes =>
        split at hpass
        · next he =>
          cases hpass
          rw [hb, Bearing.act, hframes, map_cons, he, close_self]
        · cases hpass
    · cases hpass

theorem length_closed_of_pass (closed : List Enclosure) (n : Nat) :
    (rows.foldl (fun u r => (bearing r.code).act u)
      ⟨closed, (st.frames.map Frame.enclosure).take n⟩).closed.length =
      closed.length + (shuts rows - n) := by
  induction rows generalizing st closed n with
  | nil =>
    cases h
    simp [shuts]
  | cons r rows ih =>
    rw [foldlM_cons] at h
    obtain ⟨st₁, hpass, h⟩ := Option.bind_eq_some_iff.mp h
    rw [foldl_cons, shuts]
    rw [Standing.pass?] at hpass
    split at hpass
    · next hb =>
      cases hpass
      rw [hb]
      exact ih h closed n
    · next hb =>
      cases hpass
      rw [hb]
      exact ih h closed n
    · next hb =>
      cases hpass
      rw [hb]
      exact ih h closed n
    · next hb =>
      cases hpass
      rw [hb]
      refine (ih h closed (n + 1)).trans ?_
      dsimp only
      omega
    · next e hb =>
      split at hpass
      · cases hpass
      · next f frames hframes =>
        split at hpass
        · next he =>
          cases hpass
          rw [hb, hframes, map_cons, he, Bearing.act]
          dsimp only
          cases n with
          | zero =>
            refine (ih h (e :: closed) 0).trans ?_
            rw [length_cons]
            omega
          | succ n =>
            rw [take_succ_cons, close_self]
            refine (ih h closed n).trans ?_
            omega
        · cases hpass
    · cases hpass

theorem closed_stream_eq_nil_iff (hrows : ∀ r ∈ rows, r.Acts) :
    (unbalanced (Row.stream rows)).closed = [] ↔ shuts rows = 0 := by
  have hlength := length_closed_of_pass h [] 0
  rw [take_zero, ← foldl_step_stream hrows] at hlength
  rw [← length_eq_zero_iff, unbalanced, hlength, length_nil, Nat.zero_add, Nat.sub_zero]

end

/-! ### Arranged entries -/

theorem Form.ArgumentTokens.clean {w : List Token} (h : ArgumentTokens w) :
    ∀ t ∈ w, t.kind ≠ .error := by
  intro t ht hkind
  rcases inArguments_iff.mp (h.all t ht) with hvalue | hlabel | hp | hp | hp
  · rw [Token.isValue, hkind] at hvalue
    cases hvalue
  · rw [hkind] at hlabel
    cases hlabel
  all_goals
    rw [Token.kind, hp] at hkind
    cases hkind

section Acts

variable {r : Row}

theorem Row.acts_of_silent (h : r.code = []) : r.Acts where
  clean := by simp [h]
  act u := by rw [h]; rfl
  opener e he := by
    rw [h] at he
    cases he

theorem Row.Holds.acts_flat {code : List Token} (h : r.Holds code)
    (hclean : ∀ t ∈ code, t.kind ≠ .error)
    (hstep : ∀ u : Unbalanced, code.foldl step u = u)
    (hb : bearing code = .label ∨ bearing code = .flat) : r.Acts := by
  rw [← h.code_eq] at hclean hstep hb
  refine ⟨hclean, fun u => ?_, fun e he => ?_⟩
  · rcases hb with hb | hb <;> rw [hstep, hb, Bearing.act] <;> simp
  · rcases hb with hb | hb <;> rw [hb] at he <;> cases he

theorem Row.Holds.acts_opener {x : List Token} {o : Token} {e : Enclosure} (h : r.Holds (x ++ [o]))
    (hclean : ∀ t ∈ x, t.kind ≠ .error)
    (hstep : ∀ u : Unbalanced, x.foldl step u = u) (ho : o.opens? = some e)
    (hb : bearing (x ++ [o]) = .opens e) : r.Acts := by
  refine ⟨fun t ht => ?_, fun u => ?_, fun e' he' => ⟨x, o, h, ?_⟩⟩
  · rw [h.code_eq] at ht
    rcases mem_append.mp ht with ht | ht
    · exact hclean t ht
    · rw [mem_singleton.mp ht]
      intro hkind
      rw [opens?_of_kind (by simp [hkind])] at ho
      cases ho
  · rw [h.code_eq, hb, foldl_append, hstep]
    exact step_of_opens ho u
  · rw [h.code_eq, hb] at he'
    cases he'
    exact ho

theorem Row.Holds.acts_closer {c : Token} {e : Enclosure} (h : r.Holds [c])
    (hc : c.isPunct e.closer = true) : r.Acts := by
  have hb : bearing r.code = .closes e := by rw [h.code_eq, bearing_closer hc]
  refine ⟨fun t ht => ?_, fun u => ?_, fun e' he' => ?_⟩
  · rw [h.code_eq] at ht
    rw [mem_singleton.mp ht, kind_of_isPunct hc]
    decide
  · rw [hb, h.code_eq]
    refine step_of_closes ?_ u
    rw [Token.closes?, isPunct_iff.mp hc]
    cases e <;> rfl
  · rw [hb] at he'
    cases he'

variable {front : List Token} (hfront : ∀ t ∈ front, t.isKind .label = true) {w : Token}
  (hw : w.isKind .identifier = true) {tokens : List Token} (htokens : Form.ArgumentTokens tokens)

include hfront hw htokens

theorem clean_command : ∀ t ∈ front ++ w :: tokens, t.kind ≠ .error := by
  intro t ht
  rcases mem_append.mp ht with ht | ht
  · rw [isKind_iff.mp (hfront t ht)]
    decide
  · rcases mem_cons.mp ht with rfl | ht
    · rw [isKind_iff.mp hw]
      decide
    · exact htokens.clean t ht

theorem foldl_step_command (u : Unbalanced) :
    (front ++ w :: tokens).foldl step u = u := by
  rw [foldl_append, foldl_step_labels hfront, foldl_cons,
    step_of_kind (by simp [isKind_iff.mp hw]), htokens.balanced]

end Acts

theorem Arranged.acts {inBlock : Bool} {role : Option Token} {row : Option Row}
    {entries : List Entry} (h : Arranged inBlock role row rows entries) : ∀ r ∈ rows, r.Acts := by
  have hframe {header closer : Row} {rows : List Row} (hheader : header.Acts)
      (ih : ∀ r ∈ rows, r.Acts) (hcloser : closer.Acts) :
      ∀ r ∈ header :: (rows ++ [closer]), r.Acts := by
    refine forall_mem_cons.mpr ⟨hheader, fun r hr => ?_⟩
    rcases mem_append.mp hr with hr | hr
    · exact ih r hr
    · rwa [mem_singleton.mp hr]
  have hlabel {l : Token} (hl : l.isKind .label = true) (u : Unbalanced) :
      [l].foldl step u = u :=
    step_of_kind (by simp [isKind_iff.mp hl]) u
  have hopens {o : Token} {p : Punct} {e : Enclosure} (ho : o.isPunct p = true)
      (he : Token.opens? ⟨.punct p, o.line, o.span⟩ = some e) : o.opens? = some e := by
    rwa [Token.opens?, isPunct_iff.mp ho]
  have hclean {l : Token} (hl : l.isKind .label = true) : ∀ t ∈ [l], t.kind ≠ .error := by
    simp [isKind_iff.mp hl]
  induction h with
  | comments => simp
  | append _ _ ih ih' => exact fun r hr => (mem_append.mp hr).elim (ih r) (ih' r)
  | silent _ hcode _ _ ih => exact forall_mem_cons.mpr ⟨Row.acts_of_silent hcode, ih⟩
  | label hr hl _ ih =>
    have hb : bearing [_] = .label := hr.code_eq ▸ Row.IsLabel.bearing ⟨hr.code_eq, hl⟩
    exact forall_mem_cons.mpr ⟨hr.acts_flat (hclean hl) (hlabel hl) (.inl hb), ih⟩
  | leaf hlead hr hw ha =>
    have htokens := ha.argumentTokens
    exact forall_mem_singleton.mpr (hr.acts_flat (clean_command hlead.isLabel hw htokens)
      (foldl_step_command hlead.isLabel hw htokens) (.inr (bearing_leaf hlead.isLabel hw htokens)))
  | block hlead hheader hw ha ho _ hcloser hc ih =>
    have htokens := ha.argumentTokens
    have hb := bearing_header hlead.isLabel hw htokens ho
    rw [← cons_append, ← append_assoc] at hheader hb
    exact hframe (hheader.acts_opener (clean_command hlead.isLabel hw htokens)
      (foldl_step_command hlead.isLabel hw htokens) (hopens ho rfl) hb) ih
      (hcloser.acts_closer (e := .block) hc)
  | @list header closer l o _ _ _ hheader hl ho _ hcloser hc ih =>
    exact hframe (Row.Holds.acts_opener (x := [l]) hheader (hclean hl) (hlabel hl) (hopens ho rfl)
      (bearing_list hl ho)) ih (hcloser.acts_closer (e := .list) hc)

end CommandText
