import Spreadsheet.Cell.Rectangle

/-! A mention is split off greedily; whether its names are cells is asked later. -/

namespace Spreadsheet

inductive Mention
  | single (name : List Char)
  | pair (first last : List Char)
deriving DecidableEq, Repr

namespace Mention

def spelling : Mention → List Char
  | single name => name
  | pair first last => first ++ ':' :: last

def splitName? (cs : List Char) : Option (List Char × List Char) :=
  let letters := cs.takeWhile Char.isUpper
  let afterLetters := cs.dropWhile Char.isUpper
  let digits := afterLetters.takeWhile Char.isDigit
  if letters ≠ [] ∧ digits ≠ [] then
    some (letters ++ digits, afterLetters.dropWhile Char.isDigit)
  else none

def splitLast? : List Char → Option (List Char × List Char)
  | ':' :: cs => splitName? cs
  | _ => none

def split? (cs : List Char) : Option (Mention × List Char) := do
  let (first, rest) ← splitName? cs
  match splitLast? rest with
  | some (last, rest') => some (pair first last, rest')
  | none => some (single first, rest)

theorem splitName?_append {cs name rest : List Char} (h : splitName? cs = some (name, rest)) :
    name ++ rest = cs ∧ name ≠ [] := by
  simp only [splitName?, Option.ite_none_right_eq_some, Option.some.injEq, Prod.mk.injEq] at h
  obtain ⟨⟨hl, -⟩, rfl, rfl⟩ := h
  refine ⟨?_, by simp [hl]⟩
  rw [List.append_assoc, List.takeWhile_append_dropWhile, List.takeWhile_append_dropWhile]

theorem splitLast?_append {cs name rest : List Char} (h : splitLast? cs = some (name, rest)) :
    ':' :: (name ++ rest) = cs := by
  unfold splitLast? at h
  split at h
  · rw [(splitName?_append h).1]
  · contradiction

theorem split?_append {cs : List Char} {m : Mention} {rest : List Char}
    (h : split? cs = some (m, rest)) : m.spelling ++ rest = cs ∧ m.spelling ≠ [] := by
  simp only [split?, Option.bind_eq_bind, Option.bind_eq_some_iff] at h
  obtain ⟨⟨first, after⟩, hf, h⟩ := h
  obtain ⟨ha, hne⟩ := splitName?_append hf
  split at h
  · rename_i last rest' hl
    simp only [Option.some.injEq, Prod.mk.injEq] at h
    obtain ⟨rfl, rfl⟩ := h
    simp [spelling, splitLast?_append hl, ha]
  · simp only [Option.some.injEq, Prod.mk.injEq] at h
    obtain ⟨rfl, rfl⟩ := h
    exact ⟨ha, hne⟩

theorem length_of_split? {cs : List Char} {m : Mention} {rest : List Char}
    (h : split? cs = some (m, rest)) : rest.length < cs.length := by
  obtain ⟨ha, hne⟩ := split?_append h
  rw [← ha, List.length_append]
  have := List.length_pos_iff.mpr hne
  omega

end Mention

end Spreadsheet
