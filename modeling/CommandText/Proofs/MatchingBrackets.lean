import CommandText.Proofs.ArgumentTokens
import Mathlib.Data.List.Induction

/-!
# Brackets and their partners

Which closing bracket belongs to an opening one: the first behind it that has no partner in between.
Reading tokens with a stack, as `unbalanced` does, finds the same pairs, as long as no bracket is
left without a partner. So whether a bracket is still open behind some tokens is seen on them alone:
none of their closing brackets is left over.
-/

namespace CommandText

open List

variable {e : Enclosure} {t : Token}

namespace Unbalanced

variable {u : Unbalanced} {w : List Token}

theorem opens?_of_closes? (h : t.closes? = some e) : t.opens? = none := by
  rw [Token.closes?] at h
  rw [Token.opens?]
  split at h
  · next hp => rw [hp]
  · next hp => rw [hp]
  · cases h

theorem step_of_opens (h : t.opens? = some e) (u : Unbalanced) :
    u.step t = ⟨u.closed, e :: u.opened⟩ := by
  rw [step, h]

theorem step_of_closes (h : t.closes? = some e) (u : Unbalanced) : u.step t = u.close e := by
  rw [step, opens?_of_closes? h, h]

theorem close_self (e : Enclosure) (closed opened : List Enclosure) :
    close ⟨closed, e :: opened⟩ e = ⟨closed, opened⟩ := by
  simp [close]

theorem close_of_ne {top : Enclosure} (h : top ≠ e) (closed below : List Enclosure) :
    close ⟨closed, top :: below⟩ e = ⟨e :: closed, top :: below⟩ := by
  simp [close, h]

theorem step_cases (t : Token) :
    (t.opens? = none ∧ t.closes? = none) ∨ (∃ e, t.opens? = some e) ∨ ∃ e, t.closes? = some e := by
  cases ho : t.opens? with
  | some e => exact .inr (.inl ⟨e, rfl⟩)
  | none =>
    cases hc : t.closes? with
    | none => exact .inl ⟨rfl, rfl⟩
    | some e => exact .inr (.inr ⟨e, rfl⟩)

theorem suffix_closed_step (u : Unbalanced) (t : Token) : u.closed <:+ (u.step t).closed := by
  rcases step_cases t with ⟨ho, hc⟩ | ⟨e, ho⟩ | ⟨e, hc⟩
  · simp only [step_of_not_bracket ho hc, suffix_refl]
  · simp only [step_of_opens ho, suffix_refl]
  · rw [step_of_closes hc, close]
    split
    · split
      · exact suffix_refl _
      · exact suffix_cons _ _
    · exact suffix_cons _ _

theorem suffix_closed_foldl (u : Unbalanced) (w : List Token) :
    u.closed <:+ (w.foldl step u).closed := by
  induction w generalizing u with
  | nil => exact suffix_refl _
  | cons t w ih => exact (suffix_closed_step u t).trans (ih (u.step t))

theorem closed_eq_nil (h : (w.foldl step u).closed = []) : u.closed = [] := by
  have hsuffix := suffix_closed_foldl u w
  rw [h] at hsuffix
  exact suffix_nil.mp hsuffix

theorem unbalanced_append (w w' : List Token) :
    unbalanced (w ++ w') = w'.foldl step (unbalanced w) := foldl_append

theorem foldl_step_eq (h : (unbalanced w).closed = []) (u : Unbalanced) :
    w.foldl step u = ⟨u.closed, (unbalanced w).opened ++ u.opened⟩ := by
  induction w using List.reverseRecOn with
  | nil => rfl
  | append_singleton w t ih =>
    rw [unbalanced_append] at h
    rw [foldl_append, ih (closed_eq_nil h), unbalanced_append]
    rcases step_cases t with ⟨ho, hc⟩ | ⟨e, ho⟩ | ⟨e, hc⟩
    · simp [step_of_not_bracket ho hc]
    · simp [step_of_opens ho]
    · simp only [foldl_cons, foldl_nil, step_of_closes hc, close] at h ⊢
      cases hopened : (unbalanced w).opened with
      | nil => simp [hopened] at h
      | cons top below =>
        by_cases htop : top = e
        · simp [htop]
        · simp [hopened, htop] at h

end Unbalanced

open Unbalanced

/-! ### Pairs -/

/-- All brackets of some tokens have a partner among them. -/
inductive Balanced : List Token → Prop
  | nil : Balanced []
  | plain {t : Token} {w : List Token} (ho : t.opens? = none) (hc : t.closes? = none)
      (h : Balanced w) : Balanced (t :: w)
  | enclosed {o c : Token} {e : Enclosure} {w w' : List Token} (ho : o.opens? = some e)
      (h : Balanced w) (hc : c.closes? = some e) (h' : Balanced w') : Balanced (o :: (w ++ c :: w'))

/-- An opening bracket and the closing one that belongs to it. -/
def Pair (tokens : List Token) (o c : Token) : Prop :=
  ∃ e before between after, tokens = before ++ o :: (between ++ c :: after) ∧
    o.opens? = some e ∧ c.closes? = some e ∧ Balanced between

theorem Balanced.foldl_step {w : List Token} (h : Balanced w) (u : Unbalanced) :
    w.foldl step u = u := by
  induction h generalizing u with
  | nil => rfl
  | plain ho hc _ ih => rw [foldl_cons, step_of_not_bracket ho hc, ih]
  | enclosed ho _ hc _ ih ih' =>
    rw [foldl_cons, step_of_opens ho, foldl_append, ih, foldl_cons,
      step_of_closes hc, close_self, ih']

theorem exists_partner {outer : List Enclosure} {w : List Token}
    (h : w.foldl step ⟨[], e :: outer⟩ = {}) :
    ∃ between c after, w = between ++ c :: after ∧ c.closes? = some e ∧ Balanced between := by
  induction hlength : w.length using Nat.strongRecOn generalizing e outer w with
  | ind n ih =>
    cases w with
    | nil => cases h
    | cons t w =>
      subst hlength
      rw [foldl_cons] at h
      rcases step_cases t with ⟨ho, hc⟩ | ⟨e', ho⟩ | ⟨e', hc⟩
      · rw [step_of_not_bracket ho hc] at h
        obtain ⟨between, c, after, rfl, hclose, hbetween⟩ := ih _ (by simp) h rfl
        exact ⟨t :: between, c, after, rfl, hclose, .plain ho hc hbetween⟩
      · -- the partner of the inner bracket comes first, and then the one looked for
        rw [step_of_opens ho] at h
        obtain ⟨inner, c', rest, rfl, hclose', hinner⟩ := ih _ (by simp) h rfl
        rw [foldl_append, hinner.foldl_step, foldl_cons, step_of_closes hclose',
          close_self] at h
        obtain ⟨between, c, after, rfl, hclose, hbetween⟩ := ih _ (by simp; omega) h rfl
        exact ⟨t :: (inner ++ c' :: between), c, after, by simp, hclose,
          .enclosed ho hinner hclose' hbetween⟩
      · by_cases he : e = e'
        · exact ⟨[], t, w, rfl, he ▸ hc, .nil⟩
        · rw [step_of_closes hc, close_of_ne he] at h
          cases closed_eq_nil (congrArg closed h)

theorem exists_partner_behind {outer : List Enclosure} {mid rest : List Token}
    (h : (mid ++ rest).foldl step ⟨[], e :: outer⟩ = {}) (hmid : (unbalanced mid).closed = []) :
    ∃ between c after, rest = between ++ c :: after ∧ c.closes? = some e ∧
      Balanced (mid ++ between) := by
  obtain ⟨between, c, after, hsplit, hclose, hbetween⟩ := exists_partner h
  rcases append_eq_append_iff.mp hsplit with ⟨between', rfl, hrest⟩ | ⟨mid', rfl, hrest⟩
  · exact ⟨between', c, after, hrest, hclose, hbetween⟩
  · cases mid' with
    | nil => exact ⟨[], c, after, hrest.symm, hclose, by simpa using hbetween⟩
    | cons c' mid' =>
      -- the partner would be left over
      obtain ⟨rfl, -⟩ := cons.inj hrest
      rw [unbalanced, foldl_append, hbetween.foldl_step, foldl_cons,
        step_of_closes hclose] at hmid
      cases closed_eq_nil hmid

end CommandText
