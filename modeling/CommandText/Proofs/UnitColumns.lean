import CommandText.Text.Units
import Mathlib.Order.Monotone.Defs
import Mathlib.Order.Nat

/-!
# Columns and units

The column of a number of units is the first one with as many units in front of it. So it is found
again from the units in front of a column, it grows with the units, and units inside a character
count as the next column. Beyond the end of a text each unit is a column of its own.
-/

namespace CommandText

open List

variable {text : List Char} {i j k u v : Nat}

theorem unitLength_cons (c : Char) (text : List Char) :
    unitLength (c :: text) = unitsOf c + unitLength text := by
  have hfold (n : Nat) : text.foldl (fun n c => n + unitsOf c) n = n + unitLength text := by
    induction text generalizing n with
    | nil => rfl
    | cons d text ih =>
      rw [unitLength, foldl_cons, foldl_cons, ih, ih, Nat.zero_add, Nat.add_assoc]
  rw [unitLength, foldl_cons, hfold, Nat.zero_add]

theorem unitLength_append (u v : List Char) :
    unitLength (u ++ v) = unitLength u + unitLength v := by
  induction u with
  | nil => exact (Nat.zero_add _).symm
  | cons c u ih => rw [cons_append, unitLength_cons, unitLength_cons, ih, Nat.add_assoc]

theorem length_le_unitLength (u : List Char) : u.length ≤ unitLength u := by
  induction u with
  | nil => exact Nat.zero_le _
  | cons c u ih =>
    have hpos := one_le_unitsOf c
    rw [unitLength_cons, length_cons]
    omega

theorem unitOffset_le (text : List Char) (i : Nat) : unitOffset text i ≤ unitLength text := by
  have happend := unitLength_append (text.take i) (text.drop i)
  rw [take_append_drop] at happend
  exact happend ▸ Nat.le_add_right ..

theorem unitOffset_mono (h : i ≤ j) : unitOffset text i ≤ unitOffset text j := by
  have hle := unitOffset_le (text.take j) i
  rwa [unitOffset, take_take, Nat.min_eq_left h] at hle

theorem unitOffset_lt (h : i < j) (hj : j ≤ text.length) :
    unitOffset text i < unitOffset text j := by
  have happend := unitLength_append ((text.take j).take i) ((text.take j).drop i)
  have hlength := length_le_unitLength ((text.take j).drop i)
  rw [take_append_drop, take_take, Nat.min_eq_left (Nat.le_of_lt h)] at happend
  rw [length_drop, length_take] at hlength
  rw [unitOffset, unitOffset, happend]
  omega

/-! ### Columns of units -/

theorem charColumn_cons (c : Char) (text : List Char) (hu : 0 < u) :
    charColumn (c :: text) u = charColumn text (u - unitsOf c) + 1 := by
  rw [charColumn]
  exact Nat.ne_of_gt hu

theorem one_le_charColumn (text : List Char) (u : Nat) : 1 ≤ charColumn text u := by
  fun_cases charColumn text u <;> omega

/-- A column is reached exactly if the characters in front of it have all the units. -/
theorem charColumn_le_iff (hk : k ≤ text.length) :
    charColumn text u ≤ k + 1 ↔ u ≤ unitOffset text k := by
  induction text generalizing k u with
  | nil =>
    obtain rfl := Nat.le_zero.mp hk
    exact Nat.succ_le_succ_iff
  | cons c text ih =>
    rcases Nat.eq_zero_or_pos u with rfl | hu
    · simp
    rw [charColumn_cons c text hu]
    cases k with
    | zero =>
      have hpos := one_le_charColumn text (u - unitsOf c)
      exact iff_of_false (by omega) (Nat.not_le_of_gt hu)
    | succ k =>
      rw [Nat.add_le_add_iff_right, ih (Nat.le_of_succ_le_succ hk), Nat.sub_le_iff_le_add',
        unitOffset, unitOffset, take_succ_cons, unitLength_cons]

theorem charColumn_unitOffset (hk : k ≤ text.length) :
    charColumn text (unitOffset text k) = k + 1 := by
  refine Nat.le_antisymm ((charColumn_le_iff hk).mpr (Nat.le_refl _)) ?_
  cases k with
  | zero => exact one_le_charColumn ..
  | succ k =>
    by_contra hlt
    have hle : unitOffset text (k + 1) ≤ unitOffset text k :=
      (charColumn_le_iff (Nat.le_of_succ_le hk)).mp (by omega)
    exact absurd (unitOffset_lt (Nat.lt_succ_self k) hk) (Nat.not_lt_of_le hle)

theorem charColumn_beyond (text : List Char) (d : Nat) :
    charColumn text (unitLength text + d) = text.length + 1 + d := by
  induction text with
  | nil =>
    show 0 + d + 1 = 0 + 1 + d
    omega
  | cons c text ih =>
    have hpos := one_le_unitsOf c
    rw [unitLength_cons, charColumn_cons _ _ (by omega), Nat.add_assoc, Nat.add_sub_cancel_left, ih,
      length_cons]
    omega

theorem charColumn_le_length (hu : u ≤ unitLength text) : charColumn text u ≤ text.length + 1 := by
  rw [charColumn_le_iff (Nat.le_refl _), unitOffset, take_length]
  exact hu

theorem charColumn_spec (hu : u ≤ unitLength text) :
    u ≤ unitOffset text (charColumn text u - 1) := by
  have hle := charColumn_le_length hu
  have hpos := one_le_charColumn text u
  exact (charColumn_le_iff (by omega)).mp (by omega)

theorem charColumn_mono (h : u ≤ v) : charColumn text u ≤ charColumn text v := by
  rcases Nat.le_total v (unitLength text) with hv | hv
  · have hle := charColumn_le_length hv
    have hpos := one_le_charColumn text v
    have hcolumn := (charColumn_le_iff (by omega)).mpr (Nat.le_trans h (charColumn_spec hv))
    omega
  · obtain ⟨d, rfl⟩ := Nat.exists_eq_add_of_le hv
    rw [charColumn_beyond]
    rcases Nat.le_total u (unitLength text) with hu | hu
    · exact Nat.le_trans (charColumn_le_length hu) (Nat.le_add_right ..)
    · obtain ⟨e, rfl⟩ := Nat.exists_eq_add_of_le hu
      rw [charColumn_beyond]
      omega

/-- Columns and units are converted into each other: the column of the units in front of a place is
that place, the column of any number of units in the text is the first with as many units in front
of it, and beyond the end each unit counts as one column. -/
theorem charColumn_inverts (text : List Char) :
    (∀ k ≤ text.length, charColumn text (unitOffset text k) = k + 1) ∧
      (∀ u ≤ unitLength text,
        IsLeast {c | 1 ≤ c ∧ u ≤ unitOffset text (c - 1)} (charColumn text u)) ∧
      (∀ d, charColumn text (unitLength text + d) = text.length + 1 + d) ∧
      Monotone (charColumn text) ∧ Monotone (unitOffset text) := by
  refine ⟨fun k => charColumn_unitOffset, fun u hu => ⟨⟨one_le_charColumn .., ?_⟩, ?_⟩,
    charColumn_beyond text, fun _ _ => charColumn_mono, fun _ _ => unitOffset_mono⟩
  · exact charColumn_spec hu
  · rintro c ⟨hc, hle⟩
    rcases Nat.le_total (c - 1) text.length with hlength | hlength
    · have hcolumn := (charColumn_le_iff hlength).mpr hle
      omega
    · have hcolumn := charColumn_le_length hu
      omega

/-- Between the two units of a character, the column is that of the next one. -/
theorem charColumn_inverts_smile : charColumn "a😀b".toList 2 = 3 ∧
    IsLeast {c | 1 ≤ c ∧ 2 ≤ unitOffset "a😀b".toList (c - 1)} 3 :=
  ⟨rfl, (charColumn_inverts "a😀b".toList).2.1 2 (by decide)⟩

end CommandText
