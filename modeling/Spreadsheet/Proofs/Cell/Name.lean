import Spreadsheet.Proofs.Cell.Column

namespace Spreadsheet

section Digits

variable {n : ℕ} {c : Char} {cs : List Char}

lemma ofDigitChars_eq_placeValue (cs : List Char) :
    Nat.ofDigitChars 10 cs 0 = placeValue 10 48 cs :=
  foldl_eq_placeValue cs

lemma digitChar_of_isDigit (h : c.isDigit = true) :
    c.toNat - 48 < 10 ∧ (c.toNat - 48).digitChar = c := by
  simp only [Char.isDigit_iff_toNat, Char.reduceToNat] at h
  have hd : c.toNat - 48 < 10 := by omega
  refine ⟨hd, Char.toNat_inj.mp ?_⟩
  rw [Nat.toNat_digitChar_of_lt_ten hd, Nat.add_sub_cancel' h.1]

lemma toDigits_append (hn : 0 < n) (h : ∀ c ∈ cs, c.isDigit = true) :
    Nat.toDigits 10 n ++ cs = Nat.toDigits 10 (Nat.ofDigitChars 10 cs n) := by
  induction cs generalizing n with
  | nil => rw [List.append_nil, Nat.ofDigitChars_nil]
  | cons c cs ih =>
    obtain ⟨hc, hcs⟩ := List.forall_mem_cons.mp h
    obtain ⟨hd, hchar⟩ := digitChar_of_isDigit hc
    have hsnoc : Nat.toDigits 10 n ++ [c] = Nat.toDigits 10 (10 * n + (c.toNat - 48)) := by
      rw [← Nat.toDigits_append_toDigits (by decide) hn hd, Nat.toDigits_of_lt_base hd, hchar]
    calc Nat.toDigits 10 n ++ c :: cs
        = Nat.toDigits 10 n ++ [c] ++ cs := by rw [List.append_assoc, List.singleton_append]
      _ = Nat.toDigits 10 (10 * n + (c.toNat - 48)) ++ cs := by rw [hsnoc]
      _ = Nat.toDigits 10 (Nat.ofDigitChars 10 cs (10 * n + (c.toNat - 48))) :=
          ih (by omega) hcs
      _ = Nat.toDigits 10 (Nat.ofDigitChars 10 (c :: cs) n) := by
          rw [Nat.ofDigitChars_cons]
          rfl

lemma toDigits_ofDigitChars (h : ∀ c ∈ cs, c.isDigit = true)
    (hpos : 0 < Nat.ofDigitChars 10 cs 0) :
    Nat.toDigits 10 (Nat.ofDigitChars 10 cs 0) = cs.dropWhile (· = '0') := by
  induction cs with
  | nil => cases hpos
  | cons c cs ih =>
    obtain ⟨hc, hcs⟩ := List.forall_mem_cons.mp h
    have hcons : Nat.ofDigitChars 10 (c :: cs) 0 = Nat.ofDigitChars 10 cs (c.toNat - 48) := by
      rw [Nat.ofDigitChars_cons, Nat.mul_zero, Nat.zero_add]
      rfl
    rw [hcons] at hpos ⊢
    by_cases hzero : c = '0'
    · subst hzero
      rw [List.dropWhile_cons_of_pos (by decide)]
      exact ih hcs hpos
    · obtain ⟨hd, hchar⟩ := digitChar_of_isDigit hc
      have hn : 0 < c.toNat - 48 := by
        rw [← hchar, Nat.digitChar_eq_zero] at hzero
        exact Nat.pos_of_ne_zero hzero
      rw [List.dropWhile_cons_of_neg (by simpa using hzero), ← toDigits_append hn hcs,
        Nat.toDigits_of_lt_base hd, hchar, List.singleton_append]

lemma spells_iff (hn : 0 < n) :
    (∀ c ∈ cs, c.isDigit = true) ∧ Nat.ofDigitChars 10 cs 0 = n ↔
      ∃ zeros, cs = List.replicate zeros '0' ++ Nat.toDigits 10 n := by
  constructor
  · rintro ⟨h, rfl⟩
    have hzeros : cs.takeWhile (· = '0') = List.replicate (cs.takeWhile (· = '0')).length '0' :=
      List.eq_replicate_of_mem fun c hc => by simpa using List.mem_takeWhile_imp hc
    refine ⟨(cs.takeWhile (· = '0')).length, ?_⟩
    rw [toDigits_ofDigitChars h hn, ← hzeros, List.takeWhile_append_dropWhile]
  · rintro ⟨zeros, rfl⟩
    constructor
    · intro c hc
      rcases List.mem_append.mp hc with hc | hc
      · rw [(List.mem_replicate.mp hc).2]
        rfl
      · exact Nat.isDigit_of_mem_toDigits (by decide) le_rfl hc
    · rw [Nat.ofDigitChars_append, Nat.ofDigitChars_replicate_zero, Nat.mul_zero,
        Nat.ofDigitChars_ten_toDigits]

end Digits

namespace Cell

open Column (maxCoordinate)

variable {id : Cell} {c : Char} {cs letters digits : List Char} {col row : ℕ}

lemma of?_eq_some : of? col row = some id ↔ id.col = col ∧ id.row = row := by
  constructor
  · intro h
    rw [of?] at h
    split at h
    · cases h
      exact ⟨rfl, rfl⟩
    · cases h
  · rintro ⟨rfl, rfl⟩
    exact of?_col_row id

lemma mem_filterMap_of? {top n : ℕ} : id ∈ (List.range' top n).filterMap (of? col) ↔
    id.col = col ∧ top ≤ id.row ∧ id.row < top + n := by
  simp only [List.mem_filterMap, List.mem_range'_1, of?_eq_some]
  constructor
  · rintro ⟨row, hrow, rfl, rfl⟩
    exact ⟨rfl, hrow⟩
  · rintro ⟨hcol, hrow⟩
    exact ⟨id.row, hrow, hcol, rfl⟩

lemma mem_chars (h : c ∈ id.chars) : c.isUpper = true ∨ c.isDigit = true := by
  rcases List.mem_append.mp h with h | h
  · exact Or.inl (Column.isUpper_of_mem_letters h)
  · exact Or.inr (Nat.isDigit_of_mem_toDigits (by decide) le_rfl h)

section Read

lemma ofChars?_append (hu : ∀ c ∈ letters, c.isUpper = true) (hd : ∀ c ∈ digits, c.isDigit = true)
    (hne : digits ≠ []) : ofChars? (letters ++ digits) =
      (Column.ofLetters? letters).bind fun col => of? col (Nat.ofDigitChars 10 digits 0) := by
  have hn : ∀ c ∈ digits, c.isUpper = false := fun c hc => not_isUpper_of_isDigit (hd c hc)
  have hletters : (letters ++ digits).takeWhile Char.isUpper = letters := by
    rw [takeWhile_append_of_none hn, List.takeWhile_eq_self_iff.mpr hu]
  have hdigits : (letters ++ digits).dropWhile Char.isUpper = digits := by
    rw [dropWhile_append_of_none hn, List.dropWhile_eq_nil_iff.mpr hu, List.nil_append]
  simp only [ofChars?, hletters, hdigits]
  rw [if_pos ⟨hne, List.all_eq_true.mpr hd⟩, Option.bind_eq_bind]

lemma ofChars?_eq_some : ofChars? cs = some id ↔ ∃ digits,
    cs = Column.letters id.col ++ digits ∧ (∀ c ∈ digits, c.isDigit = true) ∧
      Nat.ofDigitChars 10 digits 0 = id.row := by
  constructor
  · intro h
    simp only [ofChars?, Option.ite_none_right_eq_some, Option.bind_eq_bind,
      Option.bind_eq_some_iff] at h
    obtain ⟨⟨-, hd⟩, col, hcol, hid⟩ := h
    obtain ⟨rfl, hrow⟩ := of?_eq_some.mp hid
    refine ⟨_, ?_, List.all_eq_true.mp hd, hrow.symm⟩
    rw [Column.letters_of_ofLetters? hcol, List.takeWhile_append_dropWhile]
  · rintro ⟨digits, rfl, hd, hrow⟩
    have hne : digits ≠ [] := by
      rintro rfl
      exact id.row_bound.1.ne hrow
    rw [ofChars?_append (fun c => Column.isUpper_of_mem_letters) hd hne,
      Column.ofLetters?_letters id.col_bound, Option.bind_some, hrow]
    exact of?_col_row id

lemma ofChars?_chars (id : Cell) : ofChars? id.chars = some id :=
  ofChars?_eq_some.mpr ⟨Nat.toDigits 10 id.row, rfl,
    fun c => Nat.isDigit_of_mem_toDigits (by decide) le_rfl, Nat.ofDigitChars_ten_toDigits⟩

end Read

structure NameParts (text : String) (letters digits : List Char) : Prop where
  toList_eq : text.toList = letters ++ digits
  letters_ne_nil : letters ≠ []
  digits_ne_nil : digits ≠ []
  capital : ∀ c ∈ letters, c.isUpper = true
  decimal : ∀ c ∈ digits, c.isDigit = true
  col_bound : 1 ≤ Column.value letters ∧ Column.value letters ≤ maxCoordinate
  row_bound : 1 ≤ placeValue 10 48 digits ∧ placeValue 10 48 digits ≤ maxCoordinate

variable {text : String}

lemma NameParts.ofName? (h : NameParts text letters digits) : ofName? text =
    some ⟨Column.value letters, placeValue 10 48 digits, h.col_bound, h.row_bound⟩ := by
  have hletters : Column.letters (Column.value letters) = letters :=
    Column.letters_value h.capital
  rw [Cell.ofName?, h.toList_eq, ofChars?_eq_some]
  exact ⟨digits, by rw [hletters], h.decimal, ofDigitChars_eq_placeValue digits⟩

lemma exists_nameParts (h : ofName? text = some id) :
    ∃ letters digits, NameParts text letters digits := by
  obtain ⟨digits, ht, hd, hrow⟩ := ofChars?_eq_some.mp h
  have hrow' : placeValue 10 48 digits = id.row :=
    (ofDigitChars_eq_placeValue digits).symm.trans hrow
  refine ⟨Column.letters id.col, digits, ht, ?_, ?_, fun c => Column.isUpper_of_mem_letters, hd,
    ?_, ?_⟩
  · rw [← Column.letters_zero, Ne, Column.letters_inj]
    exact id.col_bound.1.ne'
  · rintro rfl
    exact id.row_bound.1.ne hrow
  · rw [Column.value_letters]
    exact id.col_bound
  · rw [hrow']
    exact id.row_bound

theorem names_read_exactly :
    (∀ id : Cell, ofName? id.name = some id) ∧
    ∀ text : String,
      ((ofName? text).isSome = true ↔ ∃ letters digits, NameParts text letters digits) ∧
      ∀ id letters digits, ofName? text = some id → NameParts text letters digits →
        id.name = String.ofList (letters ++ digits.dropWhile (· = '0')) := by
  refine ⟨fun id => ?_, fun text => ⟨?_, fun id letters digits hid h => ?_⟩⟩
  · rw [ofName?, name, String.toList_ofList]
    exact ofChars?_chars id
  · rw [Option.isSome_iff_exists]
    exact ⟨fun ⟨id, h⟩ => exists_nameParts h, fun ⟨letters, digits, h⟩ => ⟨_, h.ofName?⟩⟩
  · obtain rfl := Option.some_inj.mp (hid.symm.trans h.ofName?)
    have hdigits := ofDigitChars_eq_placeValue digits
    have hrow : Nat.toDigits 10 (placeValue 10 48 digits) = digits.dropWhile (· = '0') := by
      rw [← hdigits]
      exact toDigits_ofDigitChars h.decimal (hdigits ▸ h.row_bound.1)
    rw [name, chars, Column.letters_value h.capital, hrow]

theorem names_read_exactly_last :
    let text := "MWLQKWU004294967295"
    let letters := ['M', 'W', 'L', 'Q', 'K', 'W', 'U']
    let digits := ['0', '0', '4', '2', '9', '4', '9', '6', '7', '2', '9', '5']
    NameParts text letters digits ∧
      ∃ id, ofName? text = some id ∧ id.name = "MWLQKWU4294967295" := by
  intro text letters digits
  obtain ⟨hread, hname⟩ := names_read_exactly.2 text
  have h : NameParts text letters digits :=
    ⟨by decide +kernel, by decide, by decide, List.all_eq_true.mp rfl, List.all_eq_true.mp rfl,
      by decide +kernel, by decide +kernel⟩
  obtain ⟨id, hid⟩ := Option.isSome_iff_exists.mp (hread.mpr ⟨letters, digits, h⟩)
  exact ⟨h, id, hid, (hname id letters digits hid h).trans (by decide +kernel)⟩

end Cell

end Spreadsheet
