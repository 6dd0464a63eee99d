/-!
# Escaped string content

Between quotes, a backslash starts an escape. `escape` writes the seven characters that need one,
`unescape` reads them back and keeps every other backslash as it stands.

## Main results

* `unescape_escape` — escaped text is read back
-/

namespace CommandText

/-- The letter that stands for a character behind a backslash, for the characters that need one. -/
def escapeLetter? : Char → Option Char
  | '\\' => some '\\'
  | '"' => some '"'
  | '\n' => some 'n'
  | '\r' => some 'r'
  | '\t' => some 't'
  | '\x0c' => some 'f'
  | '\x08' => some 'b'
  | _ => none

/-- The character that a letter behind a backslash stands for. -/
def escapedChar? : Char → Option Char
  | '\\' => some '\\'
  | '"' => some '"'
  | 'n' => some '\n'
  | 'r' => some '\r'
  | 't' => some '\t'
  | 'f' => some '\x0c'
  | 'b' => some '\x08'
  | _ => none

/-- Text as it is written between quotes. -/
def escape : List Char → List Char
  | [] => []
  | c :: cs =>
    match escapeLetter? c with
    | some l => '\\' :: l :: escape cs
    | none => c :: escape cs

/-- The text that some characters between quotes stand for. An escape that stands for nothing and
a backslash at the end are kept as written. -/
def unescape : List Char → List Char
  | [] => []
  | ['\\'] => ['\\']
  | '\\' :: l :: cs =>
    match escapedChar? l with
    | some c => c :: unescape cs
    | none => '\\' :: l :: unescape cs
  | c :: cs => c :: unescape cs

/-! ### Reading back -/

theorem escapedChar?_of_escapeLetter? {c l : Char} (h : escapeLetter? c = some l) :
    escapedChar? l = some c := by
  unfold escapeLetter? at h
  split at h <;> cases h <;> rfl

/-- Characters that need no escape are no backslash, quote or line end. -/
theorem ne_of_escapeLetter?_eq_none {c : Char} (h : escapeLetter? c = none) :
    c ≠ '\\' ∧ c ≠ '"' ∧ c ≠ '\n' ∧ c ≠ '\r' := by
  refine ⟨?_, ?_, ?_, ?_⟩ <;> rintro rfl <;> cases h

theorem unescape_cons_of_ne {c : Char} (h : c ≠ '\\') (cs : List Char) :
    unescape (c :: cs) = c :: unescape cs := by
  cases cs <;> simp [unescape, h]

theorem unescape_escape (cs : List Char) : unescape (escape cs) = cs := by
  induction cs with
  | nil => rfl
  | cons c cs ih =>
    rw [escape]
    split
    · next l hl =>
      rw [unescape, escapedChar?_of_escapeLetter? hl, ih]
    · next hc => rw [unescape_cons_of_ne (ne_of_escapeLetter?_eq_none hc).1, ih]

/-- Escaped text stands on one line. -/
theorem ne_of_mem_escape {cs : List Char} {c : Char} (h : c ∈ escape cs) : c ≠ '\n' ∧ c ≠ '\r' := by
  induction cs with
  | nil => cases h
  | cons d cs ih =>
    rw [escape] at h
    split at h
    · next l hl =>
      rcases List.mem_cons.mp h with rfl | h
      · decide
      · rcases List.mem_cons.mp h with rfl | h
        · unfold escapeLetter? at hl
          split at hl <;> cases hl <;> decide
        · exact ih h
    · next hd =>
      rcases List.mem_cons.mp h with rfl | h
      · exact (ne_of_escapeLetter?_eq_none hd).2.2
      · exact ih h

end CommandText
