import CommandText.Proofs.WrittenTokens
import Mathlib.Algebra.Order.Field.Basic
import Mathlib.Algebra.Order.Field.Rat
import Mathlib.Data.List.Induction
import Mathlib.Tactic.FieldSimp
import Mathlib.Tactic.Linarith
import Mathlib.Tactic.Ring

/-!
# The value of a long float literal

A float literal denotes a rational number, and so does what is kept of a long one. Both are the same
number if the literal has no exponent, or if it is kept as written. In front of an exponent, digits
that do not fit are rounded away, so there the number is kept exactly if no digit but zeros at the
end of the fraction is left over.
-/

namespace CommandText

open List Exact

variable {c : Char} {cs digits rest : List Char} {m scale : Nat} (xs : List Char) {l : FloatLiteral}

/-! ### Digits -/

theorem ofDigits_append (ys : List Char) :
    ofDigits (xs ++ ys) = 10 ^ ys.length * ofDigits xs + ofDigits ys :=
  (Nat.ofDigitChars_append 0).trans Nat.ofDigitChars_eq_ofDigitChars_zero

theorem ofDigits_concat (c : Char) : ofDigits (xs ++ [c]) = 10 * ofDigits xs + digitValue c := by
  rw [ofDigits_append]
  simp [ofDigits]

theorem digitValue_lt (h : c.isDigit = true) : digitValue c < 10 := by
  simp only [Char.isDigit, Bool.and_eq_true, decide_eq_true_eq, UInt32.le_iff_toNat_le] at h
  have hc : c.toNat ≤ 57 := h.2
  have hzero : '0'.toNat = 48 := rfl
  rw [digitValue, hzero]
  omega

theorem digitValue_eq_zero_iff (h : c.isDigit = true) : digitValue c = 0 ↔ c = '0' := by
  simp only [Char.isDigit, Bool.and_eq_true, decide_eq_true_eq, UInt32.le_iff_toNat_le] at h
  have hc : 48 ≤ c.toNat := h.1
  have hzero : '0'.toNat = 48 := rfl
  rw [digitValue, hzero, ← Char.toNat_inj, hzero]
  omega

theorem ofDigits_lt (h : ∀ c ∈ digits, c.isDigit = true) :
    ofDigits digits < 10 ^ digits.length := by
  induction digits using List.reverseRecOn with
  | nil => decide
  | append_singleton digits c ih =>
    rw [forall_mem_append, forall_mem_singleton] at h
    have hdigits := ih h.1
    have hc := digitValue_lt h.2
    rw [ofDigits_concat, length_append, length_singleton, pow_succ]
    omega

theorem ofDigits_eq_zero_iff (h : ∀ c ∈ digits, c.isDigit = true) :
    ofDigits digits = 0 ↔ ∀ c ∈ digits, c = '0' := by
  induction digits using List.reverseRecOn with
  | nil => simp [ofDigits]
  | append_singleton digits c ih =>
    rw [forall_mem_append, forall_mem_singleton] at h ⊢
    rw [ofDigits_concat, ← ih h.1, ← digitValue_eq_zero_iff h.2]
    omega

theorem ofDigits_le_append (ys : List Char) : ofDigits xs ≤ ofDigits (xs ++ ys) := by
  rw [ofDigits_append]
  exact Nat.le_add_right_of_le (Nat.le_mul_of_pos_left _ (Nat.pow_pos (by decide)))

/-! ### Literals and their numbers -/

/-- A number with its sign. -/
def withSign (negative : Bool) (q : ℚ) : ℚ := if negative then -q else q

theorem withSign_inj {negative : Bool} {p q : ℚ} :
    withSign negative p = withSign negative q ↔ p = q := by
  cases negative
  · exact Iff.rfl
  · exact neg_inj

namespace FloatLiteral

/-- The number in front of the exponent, without its sign. -/
def magnitude (l : FloatLiteral) : ℚ :=
  ofDigits l.whole + ofDigits l.fraction / 10 ^ l.fraction.length

/-- The number that a literal denotes. -/
def value (l : FloatLiteral) : ℚ := withSign l.isNegative (l.magnitude * 10 ^ l.power)

/-- Apart from zeros at the end of the fraction, the digits in front of the exponent fit into a
mantissa and its places. -/
def Fits (l : FloatLiteral) : Prop :=
  ∃ kept zeros, l.fraction = kept ++ List.replicate zeros '0' ∧
    ofDigits (l.whole ++ kept) < Exact.bound ∧ kept.length ≤ maxScale

end FloatLiteral

/-- The number that a decimal stands for. -/
def Exact.value (d : Exact) : ℚ := withSign d.negative (d.mantissa / 10 ^ d.scale)

/-- The number that a long literal is kept as. A text stands for the number that it denotes as a
literal. -/
def LongFloat.value? : LongFloat → Option ℚ
  | decimal d => some d.value
  | literal text =>
    match splitFloat? text.toList with
    | some (l, []) => some l.value
    | _ => none

/-! ### Reading a literal -/

section Read

theorem splitSign_of_digit (h : c.isDigit = true) (cs : List Char) :
    splitSign (c :: cs) = (none, c :: cs) := by
  unfold splitSign
  split
  · next heq =>
    cases heq
    exact absurd h (by decide)
  · next heq =>
    cases heq
    exact absurd h (by decide)
  · rfl

theorem splitSign_digits {sign : Option Char} (hsign : ∀ c ∈ sign, c = '-' ∨ c = '+')
    (hne : digits ≠ []) (hdigits : ∀ c ∈ digits, c.isDigit = true) (rest : List Char) :
    splitSign (sign.toList ++ digits ++ rest) = (sign, digits ++ rest) := by
  cases sign with
  | none =>
    obtain ⟨c, cs, rfl⟩ := exists_cons_of_ne_nil hne
    exact splitSign_of_digit (hdigits c mem_cons_self) (cs ++ rest)
  | some c => rcases hsign c rfl with rfl | rfl <;> rfl

theorem splitExponent?_written {sign : Char} (hsign : sign = '+' ∨ sign = '-') (hne : digits ≠ [])
    (hdigits : ∀ c ∈ digits, c.isDigit = true) :
    splitExponent? ('e' :: sign :: digits) = some ((sign, digits), []) := by
  have hstop : ∀ c ∈ ([] : List Char).head?, c.isDigit = false := nofun
  have htake := takeWhile_append_of_stop hdigits hstop
  have hdrop := dropWhile_append_of_stop hdigits hstop
  rw [append_nil] at htake hdrop
  simp only [splitExponent?, htake, hdrop, hsign, hne, ne_eq, not_false_iff, and_self, if_true]

/-- A literal is read back from its text. -/
theorem splitFloat?_written (h : l.WellFormed) : splitFloat? l.written = some (l, []) := by
  obtain ⟨hwhole, hwholeDigits⟩ := h.whole
  obtain ⟨hfraction, hfractionDigits⟩ := h.fraction
  have hread (tail : List Char) (htail : ∀ c ∈ tail.head?, c.isDigit = false) :
      splitSign (l.sign.toList ++ l.whole ++ '.' :: l.fraction ++ tail) =
          (l.sign, l.whole ++ '.' :: (l.fraction ++ tail)) ∧
        (l.fraction ++ tail).takeWhile Char.isDigit = l.fraction ∧
        (l.fraction ++ tail).dropWhile Char.isDigit = tail := by
    refine ⟨?_, takeWhile_append_of_stop hfractionDigits htail,
      dropWhile_append_of_stop hfractionDigits htail⟩
    rw [append_assoc, cons_append]
    exact splitSign_digits h.sign hwhole hwholeDigits _
  have hpoint (tail : List Char) : ∀ c ∈ ('.' :: tail).head?, c.isDigit = false := by
    rintro c ⟨⟩
    decide
  obtain ⟨sign, whole, fraction, exponent⟩ := l
  cases exponent with
  | none =>
    obtain ⟨hsplit, htake, hdrop⟩ := hread [] nofun
    rw [splitFloat?, FloatLiteral.written, hsplit]
    simp only [takeWhile_append_of_stop hwholeDigits (hpoint _),
      dropWhile_append_of_stop hwholeDigits (hpoint _), htake, hdrop, hwhole, hfraction, or_self,
      if_false, splitExponent?]
  | some e =>
    obtain ⟨hsplit, htake, hdrop⟩ := hread ('e' :: e.1 :: e.2) (by rintro c ⟨⟩; decide)
    obtain ⟨hsign, hne, hdigits⟩ := h.exponent e rfl
    rw [splitFloat?, FloatLiteral.written, hsplit]
    simp only [takeWhile_append_of_stop hwholeDigits (hpoint _),
      dropWhile_append_of_stop hwholeDigits (hpoint _), htake, hdrop, hwhole, hfraction, or_self,
      if_false, splitExponent?_written hsign hne hdigits]

theorem wellFormed_of_splitFloat? (h : splitFloat? cs = some (l, rest)) : l.WellFormed :=
  (of_splitFloat? h).2

end Read

/-! ### Taking digits -/

namespace FloatLiteral

/-- Some digits of a fraction have been taken behind those of a whole number. Of the rest, not even
the first one fits. -/
structure Takes (whole taken rest : List Char) : Prop where
  bound : ofDigits (whole ++ taken) < Exact.bound
  places : taken.length ≤ maxScale
  full : ∀ c ∈ rest.head?,
    Exact.bound ≤ ofDigits (whole ++ taken ++ [c]) ∨ taken.length = maxScale

theorem exists_takes {whole done : List Char} (hbound : ofDigits (whole ++ done) < Exact.bound)
    (hplaces : done.length ≤ maxScale) (fraction : List Char) :
    ∃ taken rest, fraction = taken ++ rest ∧ Takes whole (done ++ taken) rest ∧
      takeFraction (ofDigits (whole ++ done)) done.length fraction =
        takeFraction (ofDigits (whole ++ (done ++ taken))) (done ++ taken).length rest := by
  induction fraction generalizing done with
  | nil =>
    refine ⟨[], [], rfl, ⟨?_, ?_, nofun⟩, by rw [append_nil]⟩
    · rwa [append_nil]
    · rwa [append_nil]
  | cons c cs ih =>
    by_cases hfits : 10 * ofDigits (whole ++ done) + digitValue c < Exact.bound ∧
        done.length < maxScale
    · obtain ⟨hnext, hroom⟩ := hfits
      rw [← ofDigits_concat, append_assoc] at hnext
      have hlength : (done ++ [c]).length = done.length + 1 := length_append
      obtain ⟨taken, rest, hcs, htakes, hrun⟩ := ih hnext (by omega)
      rw [append_assoc, singleton_append] at htakes hrun
      refine ⟨c :: taken, rest, by rw [hcs, cons_append], htakes, ?_⟩
      rw [← hrun, hlength, ← append_assoc whole done [c], ofDigits_concat, takeFraction,
        if_pos]
      rw [← append_assoc, ofDigits_concat] at hnext
      simp [hnext, hroom]
    · refine ⟨[], c :: cs, rfl, ⟨by rwa [append_nil], by rwa [append_nil], ?_⟩, ?_⟩
      · rintro c' ⟨⟩
        rw [append_nil, ofDigits_concat]
        omega
      · rw [append_nil]

theorem takeFraction_of_full (h : Exact.bound ≤ 10 * m + digitValue c ∨ scale = maxScale)
    (cs : List Char) : takeFraction m scale (c :: cs) =
      if digitValue c < 5 then some (m, scale)
      else if m + 1 < Exact.bound then some (m + 1, scale)
      else if scale = 0 then none
      else some ((m + 1 + 4) / 10, scale - 1) := by
  rw [takeFraction, if_neg]
  simp only [Bool.and_eq_true, decide_eq_true_eq]
  omega

theorem magnitude_mul {taken : List Char} (h : l.fraction = taken ++ rest) :
    l.magnitude * 10 ^ taken.length =
      ofDigits (l.whole ++ taken) + ofDigits rest / 10 ^ rest.length := by
  rw [magnitude, h, ofDigits_append, ofDigits_append, length_append]
  push_cast
  field_simp
  ring

section Taken

variable {taken : List Char}

theorem Takes.fits_iff (h : Takes l.whole taken rest) (hfraction : l.fraction = taken ++ rest)
    (hdigits : ∀ c ∈ rest, c.isDigit = true) : l.Fits ↔ ofDigits rest = 0 := by
  rw [ofDigits_eq_zero_iff hdigits]
  constructor
  · rintro ⟨kept, zeros, hkept, hbound, hplaces⟩
    rcases append_eq_append_iff.mp (hfraction.symm.trans hkept) with
      ⟨between, rfl, hrest⟩ | ⟨further, rfl, hzeros⟩
    · cases between with
      | nil =>
        rw [hrest, nil_append]
        exact fun c hc => eq_of_mem_replicate hc
      | cons c between =>
        -- one more digit fits, although none was said to
        exfalso
        have hmore : ofDigits (l.whole ++ taken ++ [c]) < Exact.bound := by
          refine Nat.lt_of_le_of_lt (ofDigits_le_append _ between) ?_
          simpa using hbound
        rw [length_append, length_cons] at hplaces
        have hfull := h.full c (by rw [hrest]; rfl)
        omega
    · intro c hc
      exact eq_of_mem_replicate (hzeros ▸ mem_append_right further hc)
  · intro hzeros
    exact ⟨taken, rest.length, by rw [hfraction, ← eq_replicate_length.mpr hzeros], h.bound,
      h.places⟩

theorem mul_ten_ne_of_bound {front : Nat} (hbound : front < Exact.bound)
    (hlast : ¬front + 1 < Exact.bound) {part : ℚ} (hpart : part < 1) :
    (((front + 1 + 4) / 10 : Nat) : ℚ) * 10 ≠ front + part := by
  have hfront : front = 79228162514264337593543950335 := by
    have hvalue : Exact.bound = 79228162514264337593543950336 := by decide
    omega
  subst hfront
  norm_num
  linarith

theorem Takes.exact_iff (h : Takes l.whole taken rest) (hfraction : l.fraction = taken ++ rest)
    (hdigits : ∀ c ∈ rest, c.isDigit = true)
    (hrun : takeFraction (ofDigits (l.whole ++ taken)) taken.length rest = some (m, scale)) :
    (m : ℚ) / 10 ^ scale = l.magnitude ↔ ofDigits rest = 0 := by
  have hmagnitude := magnitude_mul hfraction
  -- the digits that are left over are less than one unit of the last place
  have hless : (ofDigits rest : ℚ) / 10 ^ rest.length < 1 := by
    rw [div_lt_one (by positivity)]
    exact_mod_cast ofDigits_lt hdigits
  have hzero : (ofDigits rest : ℚ) / 10 ^ rest.length = 0 ↔ ofDigits rest = 0 := by
    rw [div_eq_zero_iff, or_iff_left (by positivity), Nat.cast_eq_zero]
  have hplain (n : Nat) : (n : ℚ) / 10 ^ taken.length = l.magnitude ↔
      (n : ℚ) = ofDigits (l.whole ++ taken) + ofDigits rest / 10 ^ rest.length := by
    rw [div_eq_iff (by positivity), hmagnitude]
  cases rest with
  | nil =>
    cases hrun
    rw [hplain, ← hzero]
    exact left_eq_add
  | cons c cs =>
    have hfull := h.full c rfl
    rw [ofDigits_concat] at hfull
    rw [takeFraction_of_full hfull] at hrun
    split at hrun
    · cases hrun
      rw [hplain, ← hzero]
      exact left_eq_add
    · next hround =>
      -- the rest does not vanish, since its first digit is rounded up
      have hrest : ofDigits (c :: cs) ≠ 0 := by
        rw [Ne, ofDigits_eq_zero_iff hdigits]
        intro hall
        rw [hall c mem_cons_self] at hround
        exact hround (by decide)
      refine iff_of_false ?_ hrest
      split at hrun
      · cases hrun
        rw [hplain]
        push_cast
        intro heq
        linarith
      · next hlast =>
        split at hrun
        · cases hrun
        · next hplaces =>
          cases hrun
          obtain ⟨t, ht⟩ := Nat.exists_eq_succ_of_ne_zero hplaces
          have hne := mul_ten_ne_of_bound h.bound hlast hless
          rw [ht, Nat.succ_sub_one, div_eq_iff (by positivity)]
          rw [← hmagnitude, ht, pow_succ] at hne
          intro heq
          rw [heq] at hne
          exact hne (by ring)

end Taken

theorem takeFraction_eq_magnitude_iff (hl : l.WellFormed) (hwhole : ofDigits l.whole < Exact.bound)
    (h : takeFraction (ofDigits l.whole) 0 l.fraction = some (m, scale)) :
    (m : ℚ) / 10 ^ scale = l.magnitude ↔ l.Fits := by
  have hstart : ofDigits (l.whole ++ []) < Exact.bound := by rwa [append_nil]
  obtain ⟨taken, rest, hfraction, htakes, hrun⟩ := exists_takes hstart (by decide) l.fraction
  rw [append_nil, length_nil, h] at hrun
  have hdigits : ∀ c ∈ rest, c.isDigit = true := fun c hc =>
    hl.fraction.2 c (hfraction ▸ mem_append_right taken hc)
  rw [htakes.fits_iff hfraction hdigits]
  exact htakes.exact_iff hfraction hdigits hrun.symm

/-! ### The exponent -/

theorem value_shift? {d d' : Exact} {sign : Char} (h : shift? d sign digits = some d') :
    d'.value = withSign d.negative (d.mantissa / 10 ^ d.scale *
      10 ^ (if sign = '-' then -(ofDigits digits : Int) else ofDigits digits)) := by
  unfold shift? at h
  simp only at h
  split at h
  · cases h
  split at h
  · next hsign =>
    split at h
    · cases h
    · cases h
      rw [if_pos hsign, zpow_neg, zpow_natCast, Exact.value, pow_add]
      field_simp
  · next hsign =>
    rw [if_neg hsign, zpow_natCast]
    split at h
    · next hle =>
      cases h
      obtain ⟨k, hk⟩ := Nat.exists_eq_add_of_le hle
      simp only [Exact.value, hk, Nat.add_sub_cancel_left, pow_add]
      field_simp
    · next hle =>
      split at h
      · cases h
      split at h
      · cases h
      · cases h
        obtain ⟨k, hk⟩ := Nat.exists_eq_add_of_le (Nat.le_of_not_le hle)
        simp only [Exact.value, hk, Nat.add_sub_cancel_left, pow_add, pow_zero, div_one]
        rw [Nat.pow_eq]
        push_cast
        field_simp

theorem value_decimal?_iff (hl : l.WellFormed) {d : Exact} (h : l.decimal? = some d) :
    d.value = l.value ↔ l.exponent = none ∨ l.Fits := by
  unfold decimal? at h
  cases he : l.exponent with
  | none =>
    rw [he, exactPlain?] at h
    simp only at h
    split at h
    · cases h
      refine iff_of_true ?_ (.inl rfl)
      have hmagnitude := magnitude_mul (l := l) (append_nil l.fraction).symm
      rw [length_nil, pow_zero, div_one] at hmagnitude
      rw [Exact.value, value, power, he, zpow_zero, mul_one, withSign_inj,
        div_eq_iff (by positivity), hmagnitude]
      exact (add_zero _).symm
    · cases h
  | some e =>
    obtain ⟨sign, digits⟩ := e
    rw [he] at h
    simp only at h
    split at h
    · cases h
    · next hwhole =>
      obtain ⟨⟨m, scale⟩, htake, hshift⟩ := Option.bind_eq_some_iff.mp h
      rw [value_shift? hshift, value, power, he, withSign_inj,
        mul_left_inj' (zpow_ne_zero _ (by norm_num)),
        takeFraction_eq_magnitude_iff hl (Nat.lt_of_not_le hwhole) htake]
      simp

/-! ### Literals that are kept as written -/

theorem WellFormed.withoutSign (hl : l.WellFormed) : WellFormed { l with sign := none } :=
  ⟨nofun, hl.whole, hl.fraction, hl.exponent⟩

theorem value?_unsigned (hl : l.WellFormed) :
    (LongFloat.literal (String.ofList l.unsigned)).value? = some l.value := by
  have hread {l' : FloatLiteral} (hl' : l'.WellFormed) (hvalue : l'.value = l.value) :
      (LongFloat.literal (String.ofList l'.written)).value? = some l.value := by
    rw [LongFloat.value?, String.toList_ofList, splitFloat?_written hl']
    exact congrArg some hvalue
  rw [unsigned]
  split
  · next hplus =>
    refine hread hl.withoutSign ?_
    rw [value, value, isNegative, isNegative, hplus]
    rfl
  · exact hread hl rfl

end FloatLiteral

theorem Numeric.utf8Size_eq_one (hc : Numeric c) : c.utf8Size = 1 := by
  rcases hc with hc | hc
  · simp only [Char.isDigit, Bool.and_eq_true, decide_eq_true_eq] at hc
    exact Char.utf8Size_eq_one_iff.mpr (UInt32.le_trans hc.2 (by decide))
  · simp only [mem_cons, not_mem_nil, or_false] at hc
    rcases hc with rfl | rfl | rfl | rfl <;> rfl

theorem FloatLiteral.WellFormed.utf8Size_eq_one (hl : l.WellFormed) :
    ∀ c ∈ l.written, c.utf8Size = 1 :=
  fun c hc => (hl.numeric c hc).utf8Size_eq_one

theorem utf8ByteSize_ofList_of_ascii (h : ∀ c ∈ cs, c.utf8Size = 1) :
    (String.ofList cs).utf8ByteSize = cs.length := by
  induction cs with
  | nil => rfl
  | cons c cs ih =>
    obtain ⟨hc, hcs⟩ := forall_mem_cons.mp h
    rw [String.ofList_cons, String.utf8ByteSize_append, String.utf8ByteSize_singleton, hc, ih hcs,
      length_cons, Nat.add_comm]

open FloatLiteral

/-- A literal of more than 16 bytes keeps its value exactly if it has no exponent, or is kept as
written, or its digits in front of the exponent fit, zeros at the end of the fraction apart. -/
theorem value?_eq_value_iff {l : FloatLiteral} (hl : l.WellFormed)
    (hlong : 16 < (String.ofList l.written).utf8ByteSize) :
    ∃ x, scanFloat? l.written = some (.long x, l.written.length) ∧
      (x.value? = some l.value ↔
        l.exponent = none ∨ (∃ text, x = .literal text) ∨ l.Fits) := by
  rw [utf8ByteSize_ofList_of_ascii hl.utf8Size_eq_one] at hlong
  refine ⟨.of l, ?_, ?_⟩
  · have hlexeme : l.lexeme = .long (.of l) := if_neg (Nat.not_le.mpr hlong)
    rw [scanFloat?, splitFloat?_written hl]
    exact congrArg (fun x => some (x, l.written.length)) hlexeme
  · rw [LongFloat.of]
    cases h : l.decimal? with
    | none => simp [value?_unsigned hl]
    | some d => simp [LongFloat.value?, value_decimal?_iff hl h]

/-- A literal with more places than a decimal has, of which the last ones are zeros. -/
def zeroTail : FloatLiteral :=
  ⟨some '-', ['0'], "125000000000000000000000000000".toList, some ('+', ['1'])⟩

theorem value?_zeroTail : zeroTail.WellFormed ∧
    16 < (String.ofList zeroTail.written).utf8ByteSize ∧ zeroTail.value = -5 / 4 ∧
    ∃ x, scanFloat? zeroTail.written = some (.long x, 36) ∧ x.value? = some zeroTail.value := by
  have hread : splitFloat? zeroTail.written = some (zeroTail, []) := by decide +kernel
  have hlong : 16 < (String.ofList zeroTail.written).utf8ByteSize := by decide +kernel
  have hfits : zeroTail.Fits := ⟨['1', '2', '5'], 27, by decide +kernel, by decide, by decide⟩
  have hformed := wellFormed_of_splitFloat? hread
  obtain ⟨x, hx, hiff⟩ := value?_eq_value_iff hformed hlong
  exact ⟨hformed, hlong, by decide +kernel, x, hx, hiff.mpr (.inr (.inr hfits))⟩

/-- A literal with more places than a decimal has, of which the last one is no zero. -/
def digitTail : FloatLiteral :=
  ⟨none, ['0'], "12345678901234567890123456789".toList, some ('+', ['0'])⟩

/-- In front of an exponent, the last digit is rounded away. -/
theorem value?_digitTail : digitTail.WellFormed ∧
    16 < (String.ofList digitTail.written).utf8ByteSize ∧
    String.ofList digitTail.written = "0.12345678901234567890123456789e+0" ∧
    ∃ x, scanFloat? digitTail.written = some (.long x, 34) ∧ x.value? ≠ some digitTail.value := by
  have hread : splitFloat? digitTail.written = some (digitTail, []) := by decide +kernel
  exact ⟨wellFormed_of_splitFloat? hread, by decide +kernel, by decide +kernel,
    .decimal ⟨false, 1234567890123456789012345679, 28⟩, by decide +kernel, by decide +kernel⟩

end CommandText
