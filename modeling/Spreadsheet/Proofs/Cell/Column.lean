import Mathlib.Data.List.Induction
import Mathlib.Data.List.Shortlex
import Mathlib.Data.Nat.Digits.Defs
import Spreadsheet.Proofs.Formula.Mentions

namespace Spreadsheet

section Places

variable {base origin : ℕ}

def placeValue (base origin : ℕ) (cs : List Char) : ℕ :=
  Nat.ofDigits base (cs.reverse.map fun c => c.toNat - origin)

lemma placeValue_append_singleton (cs : List Char) (c : Char) :
    placeValue base origin (cs ++ [c]) = base * placeValue base origin cs + (c.toNat - origin) := by
  rw [placeValue, List.reverse_append, List.reverse_singleton, List.singleton_append,
    List.map_cons, Nat.ofDigits_cons, Nat.add_comm]
  rfl

lemma foldl_eq_placeValue (cs : List Char) :
    cs.foldl (fun n c => base * n + (c.toNat - origin)) 0 = placeValue base origin cs := by
  induction cs using List.reverseRecOn with
  | nil => rfl
  | append_singleton cs c ih =>
    rw [List.foldl_append, ih, placeValue_append_singleton]
    rfl

end Places

namespace Column

variable {m n d e : ℕ} {c : Char} {cs : List Char}

/-- The number that letters spell in bijective base 26, from one for `A` on. -/
def value (cs : List Char) : ℕ :=
  placeValue 26 64 cs

lemma value_append_singleton (cs : List Char) (c : Char) :
    value (cs ++ [c]) = extend (value cs) c :=
  placeValue_append_singleton cs c

section Read

lemma le_foldl_extend (cs : List Char) (n : ℕ) : n ≤ cs.foldl extend n := by
  induction cs generalizing n with
  | nil => exact le_rfl
  | cons c cs ih =>
    have hn : n ≤ extend n c := by
      rw [extend]
      omega
    exact hn.trans (ih (extend n c))

lemma foldlM_extend?_eq_some (h : n ≤ maxCoordinate) : cs.foldlM extend? n = some m ↔
    (∀ c ∈ cs, c.isUpper = true) ∧ cs.foldl extend n ≤ maxCoordinate ∧ cs.foldl extend n = m := by
  induction cs generalizing n with
  | nil => simp [h]
  | cons c cs ih =>
    rw [List.foldlM_cons, List.foldl_cons, extend?]
    split
    · rename_i hc
      rw [Option.bind_eq_bind, Option.bind_some, ih hc.2, List.forall_mem_cons,
        and_iff_right hc.1]
    · rename_i hc
      refine iff_of_false (by simp) ?_
      rintro ⟨hu, hle, -⟩
      -- More letters spell a larger number, so nothing is refused too early.
      exact hc ⟨hu c List.mem_cons_self, (le_foldl_extend cs (extend n c)).trans hle⟩

lemma ofLetters?_eq_some : ofLetters? cs = some n ↔
    cs ≠ [] ∧ (∀ c ∈ cs, c.isUpper = true) ∧ value cs ≤ maxCoordinate ∧ value cs = n := by
  have hv : cs.foldl extend 0 = value cs := foldl_eq_placeValue cs
  rw [ofLetters?, Option.ite_none_left_eq_some, foldlM_extend?_eq_some (Nat.zero_le _), hv]

lemma ofLetters?_eq_none : ofLetters? cs = none ↔
    cs = [] ∨ (∃ c ∈ cs, c.isUpper = false) ∨ maxCoordinate < value cs := by
  rw [← not_iff_not, ← Ne, ← Option.isSome_iff_ne_none, Option.isSome_iff_exists]
  simp [ofLetters?_eq_some]

end Read

section Letters

lemma toNat_letter (h : d < 26) : (letter d).toNat = 65 + d := by
  decide +revert

lemma letter_lt_letter (hd : d < 26) (he : e < 26) : letter d < letter e ↔ d < e := by
  rw [Char.lt_def, UInt32.lt_iff_toNat_lt, Char.toNat_val, Char.toNat_val, toNat_letter hd,
    toNat_letter he, Nat.add_lt_add_iff_left]

lemma extend_letter (h : d < 26) : extend n (letter d) = 26 * n + d + 1 := by
  rw [extend, toNat_letter h]
  omega

lemma value_letters (n : ℕ) : value (letters n) = n := by
  fun_induction letters n with
  | case1 => rfl
  | case2 n ih =>
    rw [value_append_singleton, ih, extend_letter (Nat.mod_lt n (by decide)), Nat.div_add_mod]

lemma isUpper_of_mem_letters (h : c ∈ letters n) : c.isUpper = true := by
  fun_induction letters n with
  | case1 => cases h
  | case2 n ih =>
    rcases List.mem_append.mp h with h | h
    · exact ih h
    · have hd : n % 26 < 26 := Nat.mod_lt n (by decide)
      rw [List.mem_singleton.mp h, isUpper_iff, toNat_letter hd]
      omega

lemma letters_inj : letters m = letters n ↔ m = n :=
  (Function.LeftInverse.injective value_letters).eq_iff

lemma letters_extend (h : c.isUpper = true) : letters (extend n c) = letters n ++ [c] := by
  have hc := isUpper_iff.mp h
  have hn : extend n c = 26 * n + (c.toNat - 65) + 1 := by
    rw [extend]
    omega
  have hdiv : (26 * n + (c.toNat - 65)) / 26 = n := by omega
  have hmod : (26 * n + (c.toNat - 65)) % 26 = c.toNat - 65 := by omega
  have hletter : letter (c.toNat - 65) = c := by
    rw [letter, Nat.add_sub_cancel' hc.1, Char.ofNat_toNat]
  rw [hn, letters_succ, hdiv, hmod, hletter]

lemma letters_value (h : ∀ c ∈ cs, c.isUpper = true) : letters (value cs) = cs := by
  induction cs using List.reverseRecOn with
  | nil => exact letters_zero
  | append_singleton cs c ih =>
    rw [List.forall_mem_append, List.forall_mem_singleton] at h
    rw [value_append_singleton, letters_extend h.2, ih h.1]

lemma ofLetters?_letters (h : 0 < n ∧ n ≤ maxCoordinate) : ofLetters? (letters n) = some n := by
  have hne : letters n ≠ [] := by
    rw [← letters_zero, Ne, letters_inj]
    exact h.1.ne'
  rw [ofLetters?_eq_some, value_letters]
  exact ⟨hne, fun c => isUpper_of_mem_letters, h.2, rfl⟩

lemma letters_of_ofLetters? (h : ofLetters? cs = some n) : letters n = cs := by
  obtain ⟨-, hu, -, rfl⟩ := ofLetters?_eq_some.mp h
  exact letters_value hu

end Letters

section Order

open List (Lex Shortlex)

lemma lex_append_singleton {α : Type} {r : α → α → Prop} {as bs : List α} {a b : α}
    (h : as.length = bs.length) : Lex r (as ++ [a]) (bs ++ [b]) ↔ Lex r as bs ∨ as = bs ∧ r a b := by
  induction as generalizing bs with
  | nil =>
    obtain rfl := List.length_eq_zero_iff.mp h.symm
    simp
  | cons x as ih =>
    obtain ⟨y, bs, rfl⟩ := List.exists_cons_of_length_eq_add_one h.symm
    rw [List.cons_append, List.cons_append, List.cons_lex_cons_iff, List.cons_lex_cons_iff,
      ih (Nat.succ.inj h), List.cons.injEq]
    tauto

lemma shortlex_append_singleton {α : Type} {r : α → α → Prop} {as bs : List α} {a b : α} :
    Shortlex r (as ++ [a]) (bs ++ [b]) ↔ Shortlex r as bs ∨ as = bs ∧ r a b := by
  simp only [List.shortlex_def, List.length_append, List.length_singleton,
    Nat.add_lt_add_iff_right, Nat.add_right_cancel_iff]
  by_cases h : as.length = bs.length
  · rw [lex_append_singleton h]
    simp [h]
  · have hne : as ≠ bs := fun he => h (congrArg List.length he)
    simp [h, hne]

lemma lt_iff_shortlex (m n : ℕ) : m < n ↔ Shortlex (· < ·) (letters m) (letters n) := by
  fun_induction letters n generalizing m with
  | case1 => simp
  | case2 n ih =>
    cases m with
    | zero => simp [Shortlex.of_length_lt]
    | succ m =>
      have hm : m % 26 < 26 := Nat.mod_lt m (by decide)
      have hn : n % 26 < 26 := Nat.mod_lt n (by decide)
      rw [letters_succ, shortlex_append_singleton, ← ih, letters_inj, letter_lt_letter hm hn]
      omega

end Order

/-- Letters and columns correspond to each other one to one. What is not a column's name is empty,
has a character that is no capital letter, or spells a number beyond the last column. Columns come
in the order of their names, shorter ones first. -/
theorem letters_name_columns_in_order :
    (∀ n, 1 ≤ n → n ≤ maxCoordinate → ofLetters? (letters n) = some n) ∧
    (∀ cs n, ofLetters? cs = some n → letters n = cs) ∧
    (∀ cs, ofLetters? cs = none ↔
      cs = [] ∨ (∃ c ∈ cs, c.isUpper = false) ∨ maxCoordinate < value cs) ∧
    ∀ m n, m < n ↔ (letters m).length < (letters n).length ∨
      (letters m).length = (letters n).length ∧ letters m < letters n := by
  refine ⟨fun n h₁ h₂ => ofLetters?_letters ⟨h₁, h₂⟩, fun cs n => letters_of_ofLetters?,
    fun cs => ofLetters?_eq_none, fun m n => ?_⟩
  rw [lt_iff_shortlex, List.shortlex_def]
  rfl

theorem letters_name_columns_in_order_last :
    let cs := ['M', 'W', 'L', 'Q', 'K', 'W', 'U']
    let ds := ['M', 'W', 'L', 'Q', 'K', 'W', 'V']
    ofLetters? cs = some maxCoordinate ∧ letters maxCoordinate = cs ∧
      value ds = maxCoordinate + 1 ∧ ofLetters? ds = none := by
  intro cs ds
  obtain ⟨-, hname, hnone, -⟩ := letters_name_columns_in_order
  have hcs : ofLetters? cs = some maxCoordinate := by decide
  have hds : value ds = maxCoordinate + 1 := by decide +kernel
  exact ⟨hcs, hname cs maxCoordinate hcs, hds, (hnone ds).mpr (Or.inr (Or.inr (by omega)))⟩

end Column

end Spreadsheet
