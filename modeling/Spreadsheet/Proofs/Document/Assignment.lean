import Spreadsheet.Document.Assignment
import Spreadsheet.Proofs.Cell.Name
import Spreadsheet.Proofs.Formula.Lexing

namespace Spreadsheet

open Cell (b7)

section Case

variable {c l d : Char}

lemma toNat_toUpper :
    c.toUpper.toNat = if 97 ≤ c.toNat ∧ c.toNat ≤ 122 then c.toNat - 32 else c.toNat := by
  unfold Char.toUpper
  split
  · rename_i h
    simp only [UInt32.le_iff_toNat_le] at h
    have hc : 97 ≤ c.toNat ∧ c.toNat ≤ 122 := h
    have hshift : ('A'.val - 'a'.val).toNat = 2 ^ 32 - 32 := by decide
    rw [if_pos hc, ← Char.toNat_val, UInt32.toNat_add, Char.toNat_val, hshift]
    omega
  · rename_i h
    simp only [UInt32.le_iff_toNat_le] at h
    exact (if_neg h).symm

lemma toNat_toLower :
    c.toLower.toNat = if 65 ≤ c.toNat ∧ c.toNat ≤ 90 then c.toNat + 32 else c.toNat := by
  unfold Char.toLower
  split
  · rename_i h
    simp only [UInt32.le_iff_toNat_le] at h
    have hc : 65 ≤ c.toNat ∧ c.toNat ≤ 90 := h
    rw [if_pos hc, ← Char.toNat_val, UInt32.toNat_add, Char.toNat_val]
    change (c.toNat + 32) % 2 ^ 32 = _
    omega
  · rename_i h
    simp only [UInt32.le_iff_toNat_le] at h
    exact (if_neg h).symm

lemma toUpper_eq_upper (hl : l.isUpper = true) : c.toUpper = l ↔ c = l ∨ c = l.toLower := by
  rw [isUpper_iff] at hl
  simp only [← Char.toNat_inj, toNat_toUpper, toNat_toLower]
  split <;> omega

lemma toUpper_eq_digit (hd : d.isDigit = true) : c.toUpper = d ↔ c = d := by
  simp only [Char.isDigit_iff_toNat, Char.reduceToNat] at hd
  simp only [← Char.toNat_inj, toNat_toUpper]
  split <;> omega

lemma toUpper_eq_self (h : c.isLower = false) : c.toUpper = c := by
  rw [Bool.eq_false_iff, Ne, isLower_iff] at h
  rw [← Char.toNat_inj, toNat_toUpper, if_neg h]

end Case

namespace Input

variable {id : Cell} {cs target : List Char} {text raw : String}

/-- The name of a cell as it may be typed: each letter as a capital or as a small letter, zeros in
front of the row, and blanks around the name. -/
def Typed (id : Cell) (cs : List Char) : Prop :=
  ∃ front letters zeros back,
    cs = front ++ (letters ++ (List.replicate zeros '0' ++ Nat.toDigits 10 id.row)) ++ back ∧
    (∀ c ∈ front, Text.isBlank c = true) ∧ (∀ c ∈ back, Text.isBlank c = true) ∧
    List.Forall₂ (fun c l => c = l ∨ c = l.toLower) letters (Column.letters id.col)

section Name

lemma capitals_eq_letters {ls : List Char} (h : ∀ l ∈ ls, l.isUpper = true) :
    capitals cs = ls ↔ List.Forall₂ (fun c l => c = l ∨ c = l.toLower) cs ls := by
  induction ls generalizing cs with
  | nil => simp [capitals]
  | cons l ls ih =>
    obtain ⟨hl, hls⟩ := List.forall_mem_cons.mp h
    cases cs with
    | nil => simp [capitals]
    | cons c cs =>
      rw [List.forall₂_cons, ← ih hls, ← toUpper_eq_upper hl]
      simp [capitals]

lemma capitals_eq_digits {ds : List Char} (h : ∀ d ∈ ds, d.isDigit = true) :
    capitals cs = ds ↔ cs = ds := by
  induction ds generalizing cs with
  | nil => simp [capitals]
  | cons d ds ih =>
    obtain ⟨hd, hds⟩ := List.forall_mem_cons.mp h
    cases cs with
    | nil => simp [capitals]
    | cons c cs =>
      rw [List.cons.injEq, ← ih hds, ← toUpper_eq_digit hd]
      simp [capitals]

lemma ofChars?_capitals : Cell.ofChars? (capitals cs) = some id ↔ ∃ letters zeros,
    cs = letters ++ (List.replicate zeros '0' ++ Nat.toDigits 10 id.row) ∧
      List.Forall₂ (fun c l => c = l ∨ c = l.toLower) letters (Column.letters id.col) := by
  have hu : ∀ l ∈ Column.letters id.col, l.isUpper = true :=
    fun l => Column.isUpper_of_mem_letters
  rw [Cell.ofChars?_eq_some]
  constructor
  · rintro ⟨digits, hcs, hd, hrow⟩
    obtain ⟨letters, ds, rfl, hletters, hds⟩ := List.map_eq_append_iff.mp hcs
    obtain rfl := (capitals_eq_digits hd).mp hds
    obtain ⟨zeros, rfl⟩ := (spells_iff id.row_bound.1).mp ⟨hd, hrow⟩
    exact ⟨letters, zeros, rfl, (capitals_eq_letters hu).mp hletters⟩
  · rintro ⟨letters, zeros, rfl, hletters⟩
    obtain ⟨hd, hrow⟩ := (spells_iff id.row_bound.1).mpr ⟨zeros, rfl⟩
    refine ⟨_, ?_, hd, hrow⟩
    rw [← (capitals_eq_letters hu).mpr hletters]
    exact List.map_append.trans (congrArg _ ((capitals_eq_digits hd).mpr rfl))

lemma class_of_mem (h : Cell.ofChars? (capitals cs) = some id) {c : Char} (hc : c ∈ cs) :
    c.toUpper.isUpper = true ∨ c.toUpper.isDigit = true := by
  obtain ⟨digits, hcs, hd, -⟩ := Cell.ofChars?_eq_some.mp h
  have hm : c.toUpper ∈ Column.letters id.col ++ digits := hcs ▸ List.mem_map_of_mem hc
  rcases List.mem_append.mp hm with hm | hm
  · exact Or.inl (Column.isUpper_of_mem_letters hm)
  · exact Or.inr (hd _ hm)

lemma not_isBlank_of_mem (h : Cell.ofChars? (capitals cs) = some id) {c : Char} (hc : c ∈ cs) :
    Text.isBlank c = false := by
  rw [Bool.eq_false_iff]
  intro hb
  have hupper : c.toUpper = c :=
    toUpper_eq_self (Text.not_isLower_of_isBlank hb)
  have hn : Text.isBlank c = false := Text.not_isBlank (hupper ▸ class_of_mem h hc)
  simp [hb] at hn

lemma cell_eq_ok : cell cs = .ok id ↔ Typed id cs := by
  have hcell : cell cs = .ok id ↔ Cell.ofChars? (capitals (Text.trim cs)) = some id := by
    rw [cell]
    split <;> simp_all
  rw [hcell]
  constructor
  · intro h
    obtain ⟨letters, zeros, hname, hletters⟩ := ofChars?_capitals.mp h
    obtain ⟨front, back, hcs, hfront, hback⟩ := Text.exists_eq_trim cs
    rw [hname] at hcs
    exact ⟨front, letters, zeros, back, hcs, hfront, hback, hletters⟩
  · rintro ⟨front, letters, zeros, back, rfl, hfront, hback, hletters⟩
    have hname := ofChars?_capitals.mpr ⟨letters, zeros, rfl, hletters⟩
    rw [Text.trim_append hfront hback fun c => not_isBlank_of_mem hname]
    exact hname

lemma cell_of_not_typed (h : ∀ id, ¬ Typed id cs) :
    cell cs = .error (.cell (String.ofList (Text.trim cs))) := by
  cases hc : Cell.ofChars? (capitals (Text.trim cs)) with
  | none => simp [cell, hc]
  | some id => exact absurd (cell_eq_ok.mp (by simp [cell, hc])) (h id)

lemma Typed.not_mem (h : Typed id cs) : '=' ∉ cs := by
  obtain ⟨front, letters, zeros, back, rfl, hfront, hback, hletters⟩ := h
  have hname := ofChars?_capitals.mpr ⟨letters, zeros, rfl, hletters⟩
  intro hm
  rcases List.mem_append.mp hm with hm | hm
  · rcases List.mem_append.mp hm with hm | hm
    · exact absurd (hfront _ hm) (by decide)
    · exact absurd (class_of_mem hname hm) (by decide)
  · exact absurd (hback _ hm) (by decide)

end Name

section Split

lemma plain_of_not_mem (h : '=' ∉ cs) : ∀ c ∈ cs, decide (c ≠ '=') = true := by
  intro c hc
  rw [decide_eq_true_iff]
  rintro rfl
  exact h hc

lemma assignment_append (h : '=' ∉ target) (raw : String) :
    assignment (String.ofList target ++ "=" ++ raw) = (cell target).map (⟨·, raw⟩) := by
  have htext : (String.ofList target ++ "=" ++ raw).toList = target ++ '=' :: raw.toList := by
    simp
  have hp : ∀ c ∈ target, decide (c ≠ '=') = true := plain_of_not_mem h
  have hstop : ∀ d ∈ ('=' :: raw.toList).head?, decide (d ≠ '=') = false := by simp
  rw [assignment, htext]
  simp only [takeWhile_append_of_stop hp hstop, dropWhile_append_of_stop hp hstop,
    String.ofList_toList]
  cases cell target <;> rfl

lemma assignment_of_not_mem (h : '=' ∉ text.toList) :
    assignment text = .error (.assignment text) := by
  have hdrop : text.toList.dropWhile (· ≠ '=') = [] :=
    List.dropWhile_eq_nil_iff.mpr (plain_of_not_mem h)
  rw [assignment]
  simp only [hdrop]

lemma exists_split (h : '=' ∈ text.toList) :
    ∃ target raw, '=' ∉ target ∧ text = String.ofList target ++ "=" ++ raw := by
  obtain ⟨target, raw, ht, hn⟩ := List.eq_append_cons_of_mem h
  refine ⟨target, String.ofList raw, hn, String.toList_inj.mp ?_⟩
  simp [ht]

lemma assignment_cases (text : String) :
    ('=' ∉ text.toList ∧ assignment text = .error (.assignment text)) ∨
    (∃ target id raw, Typed id target ∧ text = String.ofList target ++ "=" ++ raw ∧
      assignment text = .ok ⟨id, raw⟩) ∨
    ∃ target raw, '=' ∉ target ∧ text = String.ofList target ++ "=" ++ raw ∧
      (∀ id, ¬ Typed id target) ∧
      assignment text = .error (.cell (String.ofList (Text.trim target))) := by
  by_cases h : '=' ∈ text.toList
  · right
    obtain ⟨target, raw, hn, htext⟩ := exists_split h
    have ha := assignment_append hn raw
    rw [← htext] at ha
    by_cases hid : ∃ id, Typed id target
    · obtain ⟨id, hid⟩ := hid
      rw [cell_eq_ok.mpr hid] at ha
      exact Or.inl ⟨target, id, raw, hid, htext, ha⟩
    · rw [not_exists] at hid
      rw [cell_of_not_typed hid] at ha
      exact Or.inr ⟨target, raw, hn, htext, hid, ha⟩
  · exact Or.inl ⟨h, assignment_of_not_mem h⟩

end Split

theorem assignments_read_exactly (text : String) :
    (∀ id raw, assignment text = .ok ⟨id, raw⟩ ↔
      ∃ target, Typed id target ∧ text = String.ofList target ++ "=" ++ raw) ∧
    (∀ refused, assignment text = .error (.assignment refused) ↔
      '=' ∉ text.toList ∧ refused = text) ∧
    ∀ name, assignment text = .error (.cell name) ↔
      ∃ target raw, text = String.ofList target ++ "=" ++ raw ∧ '=' ∉ target ∧
        (∀ id, ¬ Typed id target) ∧ name = String.ofList (Text.trim target) := by
  have hcases := assignment_cases text
  refine ⟨fun id raw => ⟨fun h => ?_, ?_⟩, fun refused => ⟨fun h => ?_, ?_⟩,
    fun name => ⟨fun h => ?_, ?_⟩⟩
  · obtain ⟨-, ha⟩ | ⟨target, id, raw, hid, ht, ha⟩ | ⟨target, raw, -, -, -, ha⟩ := hcases <;>
      cases h.symm.trans ha
    exact ⟨target, hid, ht⟩
  · rintro ⟨target, hid, rfl⟩
    rw [assignment_append hid.not_mem, cell_eq_ok.mpr hid]
    rfl
  · obtain ⟨hn, ha⟩ | ⟨target, id, raw, -, -, ha⟩ | ⟨target, raw, -, -, -, ha⟩ := hcases <;>
      cases h.symm.trans ha
    exact ⟨hn, rfl⟩
  · rintro ⟨hn, rfl⟩
    exact assignment_of_not_mem hn
  · obtain ⟨-, ha⟩ | ⟨target, id, raw, -, -, ha⟩ | ⟨target, raw, hn, ht, hid, ha⟩ := hcases <;>
      cases h.symm.trans ha
    exact ⟨target, raw, ht, hn, hid, rfl⟩
  · rintro ⟨target, raw, rfl, hn, hid, rfl⟩
    rw [assignment_append hn, cell_of_not_typed hid]
    rfl

theorem assignments_read_exactly_of_small_letter :
    let target := ['\u2003', 'b', '0', '0', '7', ' ']
    let text := String.ofList target ++ "=" ++ "=A1=2 "
    Typed b7 target ∧ assignment text = .ok ⟨b7, "=A1=2 "⟩ := by
  intro target text
  have hletters : Column.letters b7.col = ['B'] := by
    change Column.letters 2 = ['B']
    rw [Column.letters_succ, Column.letters_zero]
    rfl
  have hb : Typed b7 target := by
    refine ⟨['\u2003'], ['b'], 2, [' '], by decide, List.forall_mem_singleton.mpr rfl,
      List.forall_mem_singleton.mpr rfl, ?_⟩
    rw [hletters]
    exact .cons (by decide) .nil
  exact ⟨hb, ((assignments_read_exactly text).1 b7 "=A1=2 ").mpr ⟨target, hb, rfl⟩⟩

end Input

end Spreadsheet
