import CommandText.Statement.Parser
import Mathlib.Logic.Relation
import Mathlib.Tactic.Common

/-!
# Reading without a miss

Readers change the state of reading in four ways only: they pass over a token, they take one that is
called for, they pass over a line, and, unless reading has been given up, they log a note above no
command. Whatever holds of these steps holds of every reader.

While nothing has been missed, the state is just the unread tokens and the line of the last one
read: it is *quiet*. A reader is then as good as a relation between the tokens before and after it,
and `ReadM.Exact` says which one.
-/

namespace CommandText

open List

variable {expected : List Expected}

namespace Reading

variable {rest : List Token} {line : Nat} {r s : Reading}

/-- What a reader may do to the state at a time. -/
inductive Step : Reading → Reading → Prop
  | advance (r : Reading) : Step r r.advance
  | consume (expected : List Expected) (r : Reading) : Step r (r.consume expected).2
  | skipLine (r : Reading) : Step r r.skipLine
  | looseNote (line : Nat) (r : Reading) (h : r.halted = false) :
      Step r (r.miss .looseNote line true)

/-- What a reader may do to the state. -/
def Reaches : Reading → Reading → Prop := Relation.ReflTransGen Step

theorem Reaches.refl (r : Reading) : r.Reaches r := Relation.ReflTransGen.refl

theorem Reaches.trans {t : Reading} (h : r.Reaches s) (h' : s.Reaches t) : r.Reaches t :=
  Relation.ReflTransGen.trans h h'

theorem Step.reaches (h : Step r s) : r.Reaches s := Relation.ReflTransGen.single h

/-- Nothing has been missed so far. -/
def quiet (rest : List Token) (line : Nat) : Reading := { rest, line }

/-- A miss that is told stands in the log as soon as one is logged or counts as told. -/
def Honest (r : Reading) : Prop := r.told = true ∨ r.log ≠ [] → ∃ m ∈ r.log, m.told = true

/-! ### The log -/

@[simp] theorem log_advance (r : Reading) : r.advance.log = r.log := by
  rw [advance]
  split <;> rfl

@[simp] theorem told_advance (r : Reading) : r.advance.told = r.told := by
  rw [advance]
  split <;> rfl

theorem exists_skipLine (r : Reading) : ∃ rest line, r.skipLine = { r with rest, line } := by
  rw [skipLine]
  split
  · exact ⟨r.rest, r.line, rfl⟩
  · simp only
    split <;> exact ⟨_, _, rfl⟩

@[simp] theorem log_skipLine (r : Reading) : r.skipLine.log = r.log := by
  obtain ⟨_, _, h⟩ := r.exists_skipLine
  rw [h]

@[simp] theorem told_skipLine (r : Reading) : r.skipLine.told = r.told := by
  obtain ⟨_, _, h⟩ := r.exists_skipLine
  rw [h]

@[simp] theorem log_report (r : Reading) (fault : Fault) (line : Nat) :
    (r.report fault line).log = ⟨r.rest.length, fault, line, !r.told⟩ :: r.log := rfl

theorem log_fail (r : Reading) (line : Nat) : r.log <:+ (r.fail line).log := by
  rw [fail]
  split
  · exact suffix_refl _
  · exact suffix_cons _ _

theorem consume_cases (expected : List Expected) (r : Reading) :
    (∃ t, r.next? = some t ∧ expected.any (·.fits t) = true ∧
      r.consume expected = (some t, { r.advance with told := false, failures := 0 })) ∨
    (r.halted = true ∧ r.consume expected = (none, r)) ∨
    ((r.consume expected).1 = none ∧ r.halted = false ∧
      ∃ fault line told, ⟨r.rest.length, fault, line, told⟩ :: r.log
        <:+ (r.consume expected).2.log ∧
        (told = true ∨ r.told = true)) := by
  cases hnext : r.next? with
  | none =>
    cases hhalted : r.halted with
    | true => exact .inr (.inl ⟨rfl, by rw [consume, hnext]; simp [hhalted]⟩)
    | false =>
      refine .inr (.inr ⟨by rw [consume, hnext]; simp [hhalted], rfl, .unexpectedEnd expected,
        r.line, !r.told, ?_, by simp⟩)
      rw [consume, hnext]
      simp [hhalted]
  | some t =>
    have hhalted : r.halted = false := by
      cases hh : r.halted with
      | false => rfl
      | true => simp [next?, hh] at hnext
    by_cases hfits : expected.any (·.fits t) = true
    · exact .inl ⟨t, rfl, hfits, by rw [consume, hnext]; simp [hfits]⟩
    · refine .inr (.inr ?_)
      rw [consume, hnext]
      simp only [hfits, Bool.false_eq_true, if_false]
      split
      · next text _ =>
        exact ⟨rfl, hhalted, .badToken text, t.line, true, by simp [miss], .inl rfl⟩
      · exact ⟨rfl, hhalted, .unexpected t.lexeme expected, t.line, !r.told,
          by simpa using log_fail (r.report (.unexpected t.lexeme expected) t.line) t.line,
          by simp⟩

theorem Step.log_suffix (h : Step r s) : r.log <:+ s.log := by
  cases h with
  | advance => simp
  | skipLine => simp
  | looseNote => exact suffix_cons _ _
  | consume expected =>
    rcases consume_cases expected r with ⟨t, -, -, hc⟩ | ⟨-, hc⟩ |
      ⟨-, -, fault, line, told, hlog, -⟩
    · simp [hc]
    · simp [hc]
    · exact (suffix_cons _ _).trans hlog

theorem Reaches.log_suffix (h : r.Reaches s) : r.log <:+ s.log := by
  induction h with
  | refl => exact suffix_refl _
  | tail _ hstep ih => exact ih.trans hstep.log_suffix

theorem Reaches.log_eq_nil (h : r.Reaches s) (hs : s.log = []) : r.log = [] :=
  suffix_nil.mp (hs ▸ h.log_suffix)

/-! ### Told misses -/

theorem Honest.of_suffix (hr : r.Honest) (hlog : r.log <:+ s.log)
    (hs : s.told = true ∨ s.log ≠ [] → r.told = true ∨ r.log ≠ []) : s.Honest := by
  intro h
  obtain ⟨m, hm, htold⟩ := hr (hs h)
  exact ⟨m, hlog.subset hm, htold⟩

theorem Step.honest (h : Step r s) (hr : r.Honest) : s.Honest := by
  cases h with
  | advance => exact hr.of_suffix (by simp) (by simp)
  | skipLine => exact hr.of_suffix (by simp) (by simp)
  | looseNote line => exact fun _ => ⟨_, mem_cons_self, rfl⟩
  | consume expected =>
    rcases consume_cases expected r with ⟨t, -, -, hc⟩ | ⟨-, hc⟩ |
      ⟨-, -, fault, line, told, hlog, htold⟩
    · rw [hc]
      exact hr.of_suffix (by simp) (by simp; intro h; exact .inr h)
    · rw [hc]
      exact hr
    · intro _
      rcases htold with rfl | htold
      · exact ⟨_, hlog.subset mem_cons_self, rfl⟩
      · obtain ⟨m, hm, hmt⟩ := hr (.inl htold)
        exact ⟨m, hlog.subset (mem_cons_of_mem _ hm), hmt⟩

theorem Reaches.honest (h : r.Reaches s) (hr : r.Honest) : s.Honest := by
  induction h with
  | refl => exact hr
  | tail _ hstep ih => exact hstep.honest ih

theorem honest_quiet (rest : List Token) (line : Nat) : (quiet rest line).Honest := by
  intro h
  simp [quiet] at h

theorem problems_eq_nil_iff (r : Reading) : r.problems = [] ↔ ∀ m ∈ r.log, m.told = false := by
  simp [problems]

theorem Reaches.log_eq_nil_of_problems_eq_nil (h : (quiet rest line).Reaches r)
    (hr : r.problems = []) : r.log = [] := by
  by_contra hne
  obtain ⟨m, hm, htold⟩ := h.honest (honest_quiet rest line) (.inr hne)
  rw [(problems_eq_nil_iff r).mp hr m hm] at htold
  exact absurd htold (by simp)

/-! ### Quiet states -/

@[simp] theorem next?_quiet (rest : List Token) (line : Nat) :
    (quiet rest line).next? = rest.head? := rfl

@[simp] theorem nextIs_quiet (rest : List Token) (line : Nat) (p : Token → Bool) :
    (quiet rest line).nextIs p = rest.head?.any p := rfl

@[simp] theorem log_quiet (rest : List Token) (line : Nat) : (quiet rest line).log = [] := rfl

@[simp] theorem rest_quiet (rest : List Token) (line : Nat) : (quiet rest line).rest = rest := rfl

@[simp] theorem halted_quiet (rest : List Token) (line : Nat) :
    (quiet rest line).halted = false := rfl

theorem quiet_inj {rest' : List Token} {line' : Nat} :
    quiet rest line = quiet rest' line' ↔ rest = rest' ∧ line = line' := by
  simp [quiet]

theorem advance_quiet_cons (t : Token) (rest : List Token) (line : Nat) :
    (quiet (t :: rest) line).advance = quiet rest t.line := rfl

theorem advance_quiet_nil (line : Nat) : (quiet [] line).advance = quiet [] line := rfl

theorem consume_quiet_of_fits {t : Token} (h : expected.any (·.fits t) = true) (rest : List Token)
    (line : Nat) : (quiet (t :: rest) line).consume expected = (some t, quiet rest t.line) := by
  rw [consume, next?_quiet, head?_cons]
  simp only [h, if_true, advance_quiet_cons]
  rfl

theorem skipLine_quiet (rest : List Token) (line : Nat) :
    ∃ rest' line', (quiet rest line).skipLine = quiet rest' line' ∧ rest' <:+ rest := by
  simp only [skipLine, halted_quiet, Bool.false_eq_true, if_false, rest_quiet]
  split
  · next newline rest' h =>
    exact ⟨rest', newline.line, rfl,
      (suffix_cons newline rest').trans (h ▸ dropWhile_suffix _)⟩
  · exact ⟨[], _, rfl, nil_suffix⟩

theorem Step.quiet_of_log_eq_nil (h : Step (quiet rest line) s) (hs : s.log = []) :
    ∃ rest' line', s = quiet rest' line' ∧ rest' <:+ rest := by
  cases h with
  | advance =>
    cases rest with
    | nil => exact ⟨[], line, advance_quiet_nil line, suffix_refl _⟩
    | cons t rest => exact ⟨rest, t.line, advance_quiet_cons t rest line, suffix_cons t rest⟩
  | skipLine => exact skipLine_quiet rest line
  | looseNote => simp [miss] at hs
  | consume expected =>
    rcases consume_cases expected (quiet rest line) with ⟨t, hnext, hfits, -⟩ | ⟨hh, -⟩ |
      ⟨-, -, fault, l, told, hlog, -⟩
    · cases rest with
      | nil => simp at hnext
      | cons u rest =>
        obtain rfl : u = t := by simpa using hnext
        rw [consume_quiet_of_fits hfits]
        exact ⟨rest, u.line, rfl, suffix_cons u rest⟩
    · simp at hh
    · rw [hs] at hlog
      simp at hlog

theorem Reaches.quiet_of_log_eq_nil (h : (quiet rest line).Reaches s) (hs : s.log = []) :
    ∃ rest' line', s = quiet rest' line' ∧ rest' <:+ rest := by
  induction h with
  | refl => exact ⟨rest, line, rfl, suffix_refl _⟩
  | @tail b c _ hstep ih =>
    obtain ⟨rest₁, line₁, rfl, hsuffix₁⟩ := ih (hstep.reaches.log_eq_nil hs)
    obtain ⟨rest₂, line₂, rfl, hsuffix₂⟩ := hstep.quiet_of_log_eq_nil hs
    exact ⟨rest₂, line₂, rfl, hsuffix₂.trans hsuffix₁⟩

end Reading

namespace ReadM

open Reading

variable {α β : Type}
variable {input : List Token} {P : α → List Token → Prop} {m : ReadM α}

theorem bind_apply (m : ReadM α) (f : α → ReadM β) (r : Reading) :
    (m >>= f) r = f (m r).1 (m r).2 := rfl

theorem pure_apply (a : α) (r : Reading) : (pure a : ReadM α) r = (a, r) := rfl

/-! ### Readers take steps -/

/-- The reader changes the state by steps only. Readers are put together from ones that do, so
instances are found along their text. -/
class Moves (m : ReadM α) : Prop where
  reaches : ∀ r : Reading, r.Reaches (m r).2

instance Moves.pure (a : α) : Moves (pure a) := ⟨fun r => Reaches.refl r⟩

instance Moves.bind {m : ReadM α} {f : α → ReadM β} [hm : Moves m] [hf : ∀ a, Moves (f a)] :
    Moves (m >>= f) := ⟨fun r => (hm.reaches r).trans ((hf _).reaches _)⟩

instance Moves.ite {c : Prop} [Decidable c] {m n : ReadM α} [hm : Moves m] [hn : Moves n] :
    Moves (if c then m else n) := by
  split
  · exact hm
  · exact hn

instance Moves.discard {m : ReadM α} [hm : Moves m] : Moves (discard m) := ⟨fun r => hm.reaches r⟩

theorem Moves.unlessHalted {n : ReadM α} [hm : Moves m]
    (hn : ∀ r : Reading, r.halted = false → r.Reaches (n r).2) :
    Moves (do if (← get).halted then m else n) := by
  refine ⟨fun r => ?_⟩
  change r.Reaches ((if r.halted then m else n : ReadM α) r).2
  cases hhalted : r.halted with
  | true => exact hm.reaches r
  | false => exact hn r hhalted

instance Moves.get : Moves (get : ReadM Reading) := ⟨fun r => Reaches.refl r⟩

instance Moves.nextIs (p : Token → Bool) : Moves (nextIs p) := ⟨fun r => Reaches.refl r⟩

instance Moves.take : Moves take := ⟨fun r => (Step.advance r).reaches⟩

instance Moves.consume (expected : List Expected) : Moves (consume expected) :=
  ⟨fun r => (Step.consume expected r).reaches⟩

instance Moves.skipLine : Moves (modify Reading.skipLine) := ⟨fun r => (Step.skipLine r).reaches⟩

instance Moves.resync : Moves (modify Reading.resync) := by
  refine ⟨fun r => ?_⟩
  change r.Reaches r.resync
  rw [Reading.resync]
  split
  · exact Reaches.refl r
  · exact (Step.skipLine r).reaches

instance Moves.lineEnd : Moves lineEnd := by
  unfold ReadM.lineEnd
  infer_instance

instance Moves.endComment : Moves endComment := by
  unfold ReadM.endComment
  infer_instance

/-! ### Exact readers -/

/-- From a quiet state at some tokens, the reader ends quietly in exactly the ways that `P` says:
with an answer and the tokens that are left. -/
def Exact (m : ReadM α) (input : List Token) (P : α → List Token → Prop) : Prop :=
  ∀ line a rest, (∃ line', m (quiet input line) = (a, quiet rest line')) ↔ P a rest

theorem Exact.congr {Q : α → List Token → Prop} (h : Exact m input P)
    (hPQ : ∀ a rest, P a rest ↔ Q a rest) : Exact m input Q :=
  fun line a rest => (h line a rest).trans (hPQ a rest)

theorem Exact.pure (a : α) (input : List Token) :
    Exact (Pure.pure a) input fun b rest => b = a ∧ rest = input := by
  intro line b rest
  rw [pure_apply]
  constructor
  · rintro ⟨line', h⟩
    obtain ⟨ha, hquiet⟩ := Prod.mk.inj h
    exact ⟨ha.symm, (quiet_inj.mp hquiet).1.symm⟩
  · rintro ⟨rfl, rfl⟩
    exact ⟨line, rfl⟩

theorem Exact.bind {f : α → ReadM β} {Q : α → List Token → β → List Token → Prop} [hmoves : Moves m]
    [hfmoves : ∀ a, Moves (f a)] (hm : Exact m input P)
    (hf : ∀ a mid, P a mid → Exact (f a) mid (Q a mid)) :
    Exact (m >>= f) input fun b rest => ∃ a mid, P a mid ∧ Q a mid b rest := by
  intro line b rest
  rw [bind_apply]
  constructor
  · rintro ⟨line', h⟩
    -- the second reader logs nothing, so the first one has ended quietly as well
    have hlog : (m (quiet input line)).2.log = [] := by
      refine ((hfmoves (m (quiet input line)).1).reaches (m (quiet input line)).2).log_eq_nil ?_
      rw [h, log_quiet]
    obtain ⟨mid, line₁, hmid, -⟩ := (hmoves.reaches (quiet input line)).quiet_of_log_eq_nil hlog
    have hP : P (m (quiet input line)).1 mid :=
      (hm line _ mid).mp ⟨line₁, Prod.ext rfl hmid⟩
    rw [hmid] at h
    exact ⟨_, mid, hP, (hf _ mid hP line₁ b rest).mp ⟨line', h⟩⟩
  · rintro ⟨a, mid, hP, hQ⟩
    obtain ⟨line₁, hma⟩ := (hm line a mid).mpr hP
    obtain ⟨line₂, hfa⟩ := (hf a mid hP line₁ b rest).mpr hQ
    exact ⟨line₂, by rw [hma]; exact hfa⟩

theorem Exact.get_bind {f : Reading → ReadM α} (h : ∀ line, Exact (f (quiet input line)) input P) :
    Exact (get >>= f) input P :=
  fun line => h line line

theorem Exact.nextIs_bind {p : Token → Bool} {f : Bool → ReadM α}
    (h : Exact (f (input.head?.any p)) input P) : Exact (nextIs p >>= f) input P :=
  fun line => h line

theorem Exact.take_bind {f : Option Token → ReadM α} {t : Token} (h : Exact (f (some t)) input P) :
    Exact (take >>= f) (t :: input) P :=
  fun _ => h t.line

theorem Exact.map {g : α → β} [Moves m] (h : Exact m input P) :
    Exact (m >>= fun a => Pure.pure (g a)) input fun b rest => ∃ a, P a rest ∧ b = g a :=
  (h.bind fun a mid _ => .pure (g a) mid).congr (by simp)

theorem Exact.consume_bind {f : Option Token → ReadM α}
    {P : Token → List Token → α → List Token → Prop} [hnone : Moves (f none)]
    (h : ∀ t mid, input = t :: mid → expected.any (·.fits t) = true →
      Exact (f (some t)) mid (P t mid)) :
    Exact (ReadM.consume expected >>= f) input fun a rest =>
      ∃ t mid, input = t :: mid ∧ expected.any (·.fits t) = true ∧ P t mid a rest := by
  intro line a rest
  change (∃ line', f (Reading.consume expected (quiet input line)).1
    (Reading.consume expected (quiet input line)).2 = _) ↔ _
  constructor
  · rintro ⟨line', hend⟩
    rcases consume_cases expected (quiet input line) with ⟨t, hnext, hfits, -⟩ | ⟨hh, -⟩ |
      ⟨hmissed, -, fault, l, told, hlog, -⟩
    · obtain ⟨mid, rfl⟩ := head?_eq_some_iff.mp hnext
      rw [consume_quiet_of_fits hfits] at hend
      exact ⟨t, mid, rfl, hfits, (h t mid rfl hfits t.line a rest).mp ⟨line', hend⟩⟩
    · simp at hh
    · rw [hmissed] at hend
      have hsuffix := (hnone.reaches (Reading.consume expected (quiet input line)).2).log_suffix
      rw [hend, log_quiet] at hsuffix
      simpa using hlog.trans hsuffix
  · rintro ⟨t, mid, rfl, hfits, hP⟩
    rw [consume_quiet_of_fits hfits]
    exact (h t mid rfl hfits t.line a rest).mpr hP

theorem Exact.discard_bind {e : Expected} {P : List Token → α → List Token → Prop} [Moves m]
    (h : ∀ t mid, input = t :: mid → e.fits t = true → Exact m mid (P mid)) :
    Exact (do discard (ReadM.consume [e]); m) input fun a rest =>
      ∃ t mid, input = t :: mid ∧ e.fits t = true ∧ P mid a rest :=
  (Exact.consume_bind (f := fun _ => m) fun t mid ht hfits =>
    h t mid ht (by simpa using hfits)).congr (by simp)

theorem Exact.lineEnd (input : List Token) :
    Exact lineEnd input fun _ rest => ∃ n, input = n :: rest ∧ n.isKind .newline = true := by
  refine (Exact.consume_bind fun n mid _ _ => .pure () mid).congr fun _ rest => ⟨?_, ?_⟩
  · rintro ⟨n, mid, rfl, hn, -, rfl⟩
    exact ⟨n, rfl, by simpa [Expected.fits] using hn⟩
  · rintro ⟨n, rfl, hn⟩
    exact ⟨n, rest, rfl, by simpa [Expected.fits] using hn, rfl, rfl⟩

end ReadM

end CommandText
