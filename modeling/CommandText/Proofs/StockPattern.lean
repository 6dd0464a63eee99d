import CommandText.Pattern.Basic
import Mathlib.Tactic.Common

/-!
# What the stock pattern finds

The stock pattern finds the longest run of word characters and slashes at the start of a text, if
there is a slash in it. Its automaton is in one of three situations: no slash has been passed yet,
a slash has been passed, or the run is over.
-/

namespace CommandText

open List

variable {f : Frontier}

namespace Pattern

/-- The characters of a stock reference. -/
def inReference (c : Char) : Bool := isWord c || c == '/'

/-! ### The automaton -/

theorem stock_eq : stock = ⟨#[.accept, .branch 4 0, .branch 3 1, .take .word 2,
    .take (.char '/') 2, .branch 6 4, .take .word 5, .test .start 5], 7, true⟩ := by
  decide +kernel

theorem contains_slash (c : Char) : (CharSet.char '/').contains c = (c == '/') := by
  have hblocks : (CharSet.char '/').blocks = [⟨47, [(47, 47)]⟩] := rfl
  rw [Bool.eq_iff_iff, CharSet.contains, hblocks, beq_iff_eq, ← Char.toNat_inj]
  simp only [CharSet.inBlocks, inRanges]
  change _ ↔ c.toNat = 47
  grind

theorem isWord_slash : isWord '/' = false := by decide +kernel

/-- No slash has been passed. -/
def InWord (f : Frontier) : Prop :=
  f.threads = [⟨0, .char '/', 2⟩, ⟨0, .word, 5⟩] ∧ f.complete = none

/-- A slash has been passed, so the match is complete here. -/
def BehindSlash (f : Frontier) : Prop :=
  f.threads = [⟨0, .char '/', 2⟩, ⟨0, .word, 2⟩] ∧ f.complete = some 0

/-- The run is over. -/
def Idle (f : Frontier) : Prop := f.threads = [] ∧ f.complete = none

theorem inWord_start (rest : List Char) :
    InWord (stock.enter ⟨0, none, rest⟩ 0 stock.first stock.noFrontier) := by
  rw [stock_eq]
  simp [InWord, enter, noFrontier, reach, Place.fulfils]

theorem inWord_enter (place : Place) : InWord (stock.enter place 0 5 stock.noFrontier) := by
  rw [stock_eq]
  simp [InWord, enter, noFrontier, reach]

theorem behindSlash_enter (place : Place) :
    BehindSlash (stock.enter place 0 2 stock.noFrontier) := by
  rw [stock_eq]
  simp [BehindSlash, enter, noFrontier, reach]

theorem step_pair (c : Char) (place : Place) (n : Nat) :
    let f' := stock.step c place [⟨0, .word, n⟩, ⟨0, .char '/', 2⟩]
    (isWord c = true ∧ f' = stock.enter place 0 n stock.noFrontier) ∨
      (isWord c = false ∧ c = '/' ∧ BehindSlash f') ∨ (inReference c = false ∧ Idle f') := by
  have hword : CharSet.word.contains c = isWord c := rfl
  simp only [step, foldl_cons, foldl_nil, hword, contains_slash, beq_iff_eq]
  by_cases hslash : c = '/'
  · subst hslash
    simp [isWord_slash, behindSlash_enter]
  · cases hc : isWord c with
    | true => simp [hslash]
    | false => simp [hslash, inReference, hc, Idle, noFrontier]

theorem InWord.step (hf : InWord f) (c : Char) (place : Place) :
    let f' := stock.step c place f.threads.reverse
    (isWord c = true ∧ InWord f') ∨ (isWord c = false ∧ c = '/' ∧ BehindSlash f') ∨
      (inReference c = false ∧ Idle f') := by
  rw [hf.1]
  rcases step_pair c place 5 with ⟨hc, hnext⟩ | h
  · exact .inl ⟨hc, hnext ▸ inWord_enter place⟩
  · exact .inr h

theorem BehindSlash.step (hf : BehindSlash f) (c : Char) (place : Place) :
    let f' := stock.step c place f.threads.reverse
    (inReference c = true ∧ BehindSlash f') ∨ (inReference c = false ∧ Idle f') := by
  rw [hf.1]
  rcases step_pair c place 2 with ⟨hc, hnext⟩ | ⟨-, rfl, hnext⟩ | h
  · exact .inl ⟨by simp [inReference, hc], hnext ▸ behindSlash_enter place⟩
  · exact .inl ⟨by simp [inReference], hnext⟩
  · exact .inr h

/-! ### The search -/

theorem search_succ (found : Option Match) (n : Nat) (before : Option Char) (f : Frontier)
    (rest : List Char) :
    stock.search found (n + 1) before f rest =
      match rest with
      | [] => (f.complete.map fun start => ⟨start, n + 1⟩).or found
      | c :: rest =>
        if f.threads.isEmpty then (f.complete.map fun start => ⟨start, n + 1⟩).or found
        else stock.search ((f.complete.map fun start => ⟨start, n + 1⟩).or found) (n + 2) (some c)
          (stock.step c ⟨n + 2, some c, rest⟩ f.threads.reverse) rest := by
  have hstart : stock.atStart = true := by
    rw [stock_eq]
  cases rest <;> simp [search, hstart]

theorem search_idle (hf : Idle f) (found : Option Match) (n : Nat) (before : Option Char)
    (rest : List Char) : stock.search found (n + 1) before f rest = found := by
  rw [search_succ, hf.2]
  cases rest with
  | nil => rfl
  | cons c rest => simp [hf.1]

theorem search_behindSlash (hf : BehindSlash f) (found : Option Match) (n : Nat)
    (before : Option Char) (rest : List Char) : stock.search found (n + 1) before f rest =
      some ⟨0, n + 1 + (rest.takeWhile inReference).length⟩ := by
  induction rest generalizing f found n before with
  | nil => simp [search_succ, hf.2]
  | cons c rest ih =>
    rw [search_succ]
    simp only [hf.2, Option.map_some, Option.some_or]
    rw [if_neg (by simp [hf.1])]
    rcases hf.step c ⟨n + 2, some c, rest⟩ with ⟨hc, hnext⟩ | ⟨hc, hnext⟩
    · rw [ih hnext, takeWhile_cons_of_pos hc, length_cons]
      simp only [Option.some.injEq, Match.mk.injEq, true_and]
      omega
    · rw [search_idle hnext, takeWhile_cons_of_neg (by simp [hc])]
      rfl

theorem search_step (hf : InWord f) (n : Nat) (c : Char) {rest : List Char}
    (hrest : ∀ {f}, InWord f → stock.search none (n + 1) (some c) f rest =
      if '/' ∈ rest.takeWhile inReference then
        some ⟨0, n + 1 + (rest.takeWhile inReference).length⟩
      else none) :
    stock.search none (n + 1) (some c)
        (stock.step c ⟨n + 1, some c, rest⟩ f.threads.reverse) rest =
      if '/' ∈ (c :: rest).takeWhile inReference then
        some ⟨0, n + ((c :: rest).takeWhile inReference).length⟩
      else none := by
  rcases hf.step c ⟨n + 1, some c, rest⟩ with ⟨hc, hnext⟩ | ⟨-, rfl, hnext⟩ | ⟨hc, hnext⟩
  · have hne : '/' ≠ c := by
      rintro rfl
      rw [isWord_slash] at hc
      cases hc
    have href : inReference c = true := by simp [inReference, hc]
    rw [hrest hnext, takeWhile_cons_of_pos href, length_cons, Nat.add_right_comm, Nat.add_assoc]
    simp [hne]
  · have href : inReference '/' = true := by simp [inReference]
    rw [search_behindSlash hnext, takeWhile_cons_of_pos href, if_pos mem_cons_self, length_cons,
      Nat.add_right_comm, Nat.add_assoc]
  · rw [search_idle hnext, takeWhile_cons_of_neg (by simp [hc]), if_neg (by simp)]

theorem search_inWord (hf : InWord f) (n : Nat) (before : Option Char) (rest : List Char) :
    stock.search none (n + 1) before f rest =
      if '/' ∈ rest.takeWhile inReference then
        some ⟨0, n + 1 + (rest.takeWhile inReference).length⟩
      else none := by
  induction rest generalizing f n before with
  | nil => simp [search_succ, hf.2]
  | cons c rest ih =>
    rw [search_succ]
    simp only [hf.2, Option.map_none, Option.none_or]
    rw [if_neg (by simp [hf.1])]
    exact search_step hf (n + 1) c fun hf => ih hf (n + 1) (some c)

theorem find?_stock (cs : List Char) :
    stock.find? cs =
      if '/' ∈ cs.takeWhile inReference then some ⟨0, (cs.takeWhile inReference).length⟩
      else none := by
  have hword := inWord_start cs
  cases cs with
  | nil => simp [find?, search, hword.2]
  | cons c rest =>
    have hsearch := search_step hword 0 c fun hf => search_inWord hf 0 (some c) rest
    rw [Nat.zero_add, Nat.zero_add] at hsearch
    rw [← hsearch, find?, search.eq_def]
    simp [hword.1, hword.2]

end Pattern

end CommandText
