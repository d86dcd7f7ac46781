/-! Columns are numbered from 1 and named in bijective base 26: `Z` is followed by `AA`, and no
letter stands for zero. -/

namespace Spreadsheet.Column

def maxCoordinate : Nat := 4294967295

def letter (d : Nat) : Char :=
  Char.ofNat (65 + d)

def letters : Nat → List Char
  | 0 => []
  | n + 1 => letters (n / 26) ++ [letter (n % 26)]
termination_by n => n
decreasing_by omega

def extend (n : Nat) (c : Char) : Nat :=
  26 * n + (c.toNat - 64)

def extend? (n : Nat) (c : Char) : Option Nat :=
  if c.isUpper ∧ extend n c ≤ maxCoordinate then some (extend n c) else none

def ofLetters? (cs : List Char) : Option Nat :=
  if cs = [] then none else cs.foldlM extend? 0

@[simp] theorem letters_zero : letters 0 = [] := by
  simp [letters]

theorem letters_succ (n : Nat) : letters (n + 1) = letters (n / 26) ++ [letter (n % 26)] := by
  rw [letters]

end Spreadsheet.Column
