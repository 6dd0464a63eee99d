/-!
# UTF-16 columns

Editors count the UTF-16 units in front of the cursor, tokens count characters from one. A place
beyond the end of a line counts one column a unit.
-/

namespace CommandText

def unitsOf (c : Char) : Nat := if c.toNat < 0x10000 then 1 else 2

def unitLength (text : List Char) : Nat := text.foldl (fun n c => n + unitsOf c) 0

def unitOffset (text : List Char) (count : Nat) : Nat := unitLength (text.take count)

/-- The column of the first character that starts at a number of units or behind it. -/
def charColumn : List Char → Nat → Nat
  | [], units => units + 1
  | _, 0 => 1
  | c :: text, units => charColumn text (units - unitsOf c) + 1

theorem one_le_unitsOf (c : Char) : 1 ≤ unitsOf c := by
  unfold unitsOf
  split <;> omega

@[simp] theorem charColumn_zero (text : List Char) : charColumn text 0 = 1 := by
  cases text <;> rfl

end CommandText
