import Mathlib.Data.List.TakeWhile
import Spreadsheet.Formula.Lexeme
import Spreadsheet.Formula.References

/-! The tokens of a formula name exactly the cells that its mentions name, in the same order. -/

namespace Spreadsheet

open Cell (a1 a2 b2 c3)

section Split

variable {p : Char → Bool} {cs bs : List Char}

lemma takeWhile_append_of_none (h : ∀ b ∈ bs, p b = false) :
    (cs ++ bs).takeWhile p = cs.takeWhile p := by
  induction cs with
  | nil => cases bs <;> simp_all
  | cons c cs ih => cases hc : p c <;> simp [hc, ih]

lemma dropWhile_append_of_none (h : ∀ b ∈ bs, p b = false) :
    (cs ++ bs).dropWhile p = cs.dropWhile p ++ bs := by
  induction cs with
  | nil => cases bs <;> simp_all
  | cons c cs ih => cases hc : p c <;> simp [hc, ih]

end Split

lemma isUpper_iff {c : Char} : c.isUpper = true ↔ 65 ≤ c.toNat ∧ c.toNat ≤ 90 := by
  have h : c.isUpper = decide (c.val ≥ 'A'.val ∧ c.val ≤ 'Z'.val) := rfl
  simp [h, UInt32.le_iff_toNat_le, ← Char.toNat_val]

lemma isLower_iff {c : Char} : c.isLower = true ↔ 97 ≤ c.toNat ∧ c.toNat ≤ 122 := by
  have h : c.isLower = (decide (c.val ≥ 'a'.val) && decide (c.val ≤ 'z'.val)) := rfl
  simp [h, UInt32.le_iff_toNat_le, ← Char.toNat_val]

lemma not_isUpper_of_isDigit {c : Char} (h : c.isDigit = true) : c.isUpper = false := by
  simp only [Char.isDigit_iff_toNat, Char.reduceToNat] at h
  rw [Bool.eq_false_iff, Ne, isUpper_iff]
  omega

namespace Text

variable {c : Char}

lemma not_isUpper_of_isBlank (h : isBlank c = true) : c.isUpper = false := by
  simp only [isBlank, Bool.or_eq_true, Bool.and_eq_true, beq_iff_eq, decide_eq_true_eq] at h
  rw [Bool.eq_false_iff, Ne, isUpper_iff]
  omega

lemma not_isDigit_of_isBlank (h : isBlank c = true) : c.isDigit = false := by
  simp only [isBlank, Bool.or_eq_true, Bool.and_eq_true, beq_iff_eq, decide_eq_true_eq] at h
  rw [Bool.eq_false_iff, Ne, Char.isDigit_iff_toNat]
  simp only [Char.reduceToNat]
  omega

lemma not_isLower_of_isBlank (h : isBlank c = true) : c.isLower = false := by
  simp only [isBlank, Bool.or_eq_true, Bool.and_eq_true, beq_iff_eq, decide_eq_true_eq] at h
  rw [Bool.eq_false_iff, Ne, isLower_iff]
  omega

lemma not_isBlank (h : c.isUpper = true ∨ c.isDigit = true) : isBlank c = false := by
  rw [Bool.eq_false_iff]
  intro hb
  rcases h with h | h
  · simp [not_isUpper_of_isBlank hb] at h
  · simp [not_isDigit_of_isBlank hb] at h

lemma trim_append {front name back : List Char} (hf : ∀ c ∈ front, isBlank c = true)
    (hb : ∀ c ∈ back, isBlank c = true) (hn : ∀ c ∈ name, isBlank c = false) :
    trim (front ++ name ++ back) = name := by
  have hdrop : (front ++ name ++ back).dropWhile isBlank = (name ++ back).dropWhile isBlank := by
    rw [List.append_assoc, List.dropWhile_append_of_pos hf]
  cases name with
  | nil => rw [trim, hdrop, List.nil_append, List.dropWhile_eq_nil_iff.mpr hb]; rfl
  | cons c name =>
    have hstop : (c :: name ++ back).dropWhile isBlank = c :: name ++ back :=
      List.dropWhile_cons_of_neg (Bool.eq_false_iff.mp (hn c List.mem_cons_self))
    have hback : back.reverse.dropWhile isBlank = [] :=
      List.dropWhile_eq_nil_iff.mpr fun c hc => hb c (List.mem_reverse.mp hc)
    have hname : ∀ d ∈ (c :: name).reverse, isBlank d = false :=
      fun d hd => hn d (List.mem_reverse.mp hd)
    rw [trim, hdrop, hstop, List.reverse_append, dropWhile_append_of_none hname, hback,
      List.nil_append, List.reverse_reverse]

lemma trim_eq_self {cs : List Char} (h : ∀ c ∈ cs, isBlank c = false) : trim cs = cs := by
  have hnil : ∀ c ∈ ([] : List Char), isBlank c = true := by simp
  have ht := trim_append hnil hnil h
  rwa [List.nil_append, List.append_nil] at ht

lemma exists_eq_trim (cs : List Char) : ∃ front back, cs = front ++ trim cs ++ back ∧
    (∀ c ∈ front, isBlank c = true) ∧ ∀ c ∈ back, isBlank c = true := by
  let back := ((cs.dropWhile isBlank).reverse.takeWhile isBlank).reverse
  have hback : trim cs ++ back = cs.dropWhile isBlank := by
    rw [trim, ← List.reverse_append, List.takeWhile_append_dropWhile, List.reverse_reverse]
  refine ⟨cs.takeWhile isBlank, back, ?_, fun c => List.mem_takeWhile_imp,
    fun c hc => List.mem_takeWhile_imp (List.mem_reverse.mp hc)⟩
  rw [List.append_assoc, hback, List.takeWhile_append_dropWhile]

end Text

namespace Mention

variable {c : Char} {cs bs : List Char}

lemma split?_eq_none : split? cs = none ↔
    cs.takeWhile Char.isUpper = [] ∨ (cs.dropWhile Char.isUpper).takeWhile Char.isDigit = [] := by
  have hn : splitName? cs = none ↔
      cs.takeWhile Char.isUpper = [] ∨ (cs.dropWhile Char.isUpper).takeWhile Char.isDigit = [] := by
    simp only [splitName?, ite_eq_right_iff, reduceCtorEq, imp_false, ne_eq, not_and_or, not_not]
  rw [← hn, split?]
  cases splitName? cs with
  | none => simp
  | some first =>
    obtain ⟨first, rest⟩ := first
    simp only [Option.bind_eq_bind, Option.bind_some, reduceCtorEq, iff_false]
    split <;> simp

lemma split?_of_not_isUpper (h : c.isUpper = false) : split? (c :: cs) = none := by
  apply split?_eq_none.mpr
  left
  simp [h]

lemma splitName?_append_blanks (h : ∀ b ∈ bs, Text.isBlank b = true) :
    splitName? (cs ++ bs) = (splitName? cs).map fun (name, rest) => (name, rest ++ bs) := by
  have hu : ∀ b ∈ bs, b.isUpper = false := fun b hb => Text.not_isUpper_of_isBlank (h b hb)
  have hd : ∀ b ∈ bs, b.isDigit = false := fun b hb => Text.not_isDigit_of_isBlank (h b hb)
  simp only [splitName?, takeWhile_append_of_none hu, dropWhile_append_of_none hu,
    takeWhile_append_of_none hd, dropWhile_append_of_none hd]
  split <;> rfl

lemma splitLast?_append_blanks (h : ∀ b ∈ bs, Text.isBlank b = true) :
    splitLast? (cs ++ bs) = (splitLast? cs).map fun (name, rest) => (name, rest ++ bs) := by
  cases cs with
  | nil =>
    cases bs with
    | nil => rfl
    | cons b bs =>
      have hb : b ≠ ':' := by
        rintro rfl
        exact absurd (h ':' List.mem_cons_self) (by decide)
      simp [splitLast?, hb]
  | cons c cs =>
    by_cases hc : c = ':'
    · subst hc
      exact splitName?_append_blanks h
    · simp [splitLast?, hc]

lemma split?_append_blanks (cs : List Char) (h : ∀ b ∈ bs, Text.isBlank b = true) :
    split? (cs ++ bs) = (split? cs).map fun (m, rest) => (m, rest ++ bs) := by
  simp only [split?, splitName?_append_blanks h]
  cases splitName? cs with
  | none => rfl
  | some first =>
    obtain ⟨first, rest⟩ := first
    simp only [Option.map_some, Option.bind_eq_bind, Option.bind_some, splitLast?_append_blanks h]
    cases splitLast? rest <;> rfl

end Mention

namespace References

open Mention

variable {c : Char} {cs bs rest : List Char} {m : Mention}

lemma mentions_of_split? (h : split? (c :: cs) = some (m, rest)) :
    mentions (c :: cs) = m :: mentions rest := by
  rw [mentions]
  split
  · rename_i h'
    rw [h] at h'
    cases h'
    rfl
  · simp_all

lemma mentions_of_split?_eq_none (h : split? (c :: cs) = none) :
    mentions (c :: cs) = mentions cs := by
  rw [mentions]
  split
  · simp_all
  · rfl

lemma mentions_dropWhile {p : Char → Bool} (h : ∀ c, p c = true → c.isUpper = false) :
    mentions (cs.dropWhile p) = mentions cs := by
  induction cs with
  | nil => rfl
  | cons c cs ih =>
    by_cases hc : p c = true
    · rw [List.dropWhile_cons_of_pos hc, ih,
        mentions_of_split?_eq_none (split?_of_not_isUpper (h c hc))]
    · rw [List.dropWhile_cons_of_neg hc]

lemma mentions_dropWhile_isUpper (h : (cs.dropWhile Char.isUpper).takeWhile Char.isDigit = []) :
    mentions (cs.dropWhile Char.isUpper) = mentions cs := by
  induction cs with
  | nil => rfl
  | cons c cs ih =>
    by_cases hc : c.isUpper = true
    · rw [mentions_of_split?_eq_none (split?_eq_none.mpr (Or.inr h))]
      rw [List.dropWhile_cons_of_pos hc] at h ⊢
      exact ih h
    · rw [List.dropWhile_cons_of_neg hc]

lemma mentions_append_blanks (h : ∀ b ∈ bs, Text.isBlank b = true) :
    mentions (cs ++ bs) = mentions cs := by
  fun_induction mentions cs with
  | case1 =>
    have hu : mentions (bs.dropWhile Text.isBlank) = mentions bs :=
      mentions_dropWhile fun b hb => Text.not_isUpper_of_isBlank hb
    rw [List.dropWhile_eq_nil_iff.mpr h] at hu
    exact hu.symm.trans (by rw [mentions])
  | case2 c cs m rest hm ih =>
    have hs := split?_append_blanks (c :: cs) h
    rw [hm] at hs
    rw [List.cons_append] at hs ⊢
    rw [mentions_of_split? hs, ih]
  | case3 c cs hm ih =>
    have hs := split?_append_blanks (c :: cs) h
    rw [hm] at hs
    rw [List.cons_append] at hs ⊢
    rw [mentions_of_split?_eq_none hs, ih]

lemma mentions_blanks_append (h : ∀ b ∈ bs, Text.isBlank b = true) :
    mentions (bs ++ cs) = mentions cs := by
  have hu : ∀ c, Text.isBlank c = true → c.isUpper = false :=
    fun c => Text.not_isUpper_of_isBlank
  rw [← mentions_dropWhile hu, List.dropWhile_append_of_pos h, mentions_dropWhile hu]

lemma mentions_trim (cs : List Char) : mentions (Text.trim cs) = mentions cs := by
  obtain ⟨front, back, hcs, hfront, hback⟩ := Text.exists_eq_trim cs
  calc mentions (Text.trim cs) = mentions (front ++ Text.trim cs ++ back) := by
        rw [mentions_append_blanks hback, mentions_blanks_append hfront]
    _ = mentions cs := by rw [← hcs]

lemma mentions_splitPlaces (cs : List Char) :
    mentions (Lexeme.splitPlaces cs).2 = mentions cs := by
  unfold Lexeme.splitPlaces
  split
  · rename_i after
    have hp : mentions ('.' :: after) = mentions after :=
      mentions_of_split?_eq_none (split?_of_not_isUpper (by decide))
    have hd : mentions (after.dropWhile Char.isDigit) = mentions after :=
      mentions_dropWhile fun c hc => not_isUpper_of_isDigit hc
    dsimp only
    split
    · rfl
    · exact hd.trans hp.symm
  · rfl

end References

def Lexeme.mention? : Lexeme → Option Mention
  | mention m => some m
  | _ => none

def Token.cells : Token → List Cell
  | cell id => [id]
  | range r => r.cells?.getD []
  | _ => []

namespace Lexeme

open References

lemma mentions_next (c : Char) (cs : List Char) :
    mentions (c :: cs) = (next c cs).1.mention?.toList ++ mentions (next c cs).2 := by
  rw [next]
  split
  · rename_i m rest h
    exact mentions_of_split? h
  · rename_i h
    rw [mentions_of_split?_eq_none h]
    split
    · have hd : mentions (cs.dropWhile Char.isDigit) = mentions cs :=
        mentions_dropWhile fun c hc => not_isUpper_of_isDigit hc
      simp [mention?, mentions_splitPlaces, hd]
    · split
      · rename_i hu
        have hw : (cs.dropWhile Char.isUpper).takeWhile Char.isDigit = [] := by
          rcases Mention.split?_eq_none.mp h with hl | hd
          · simp [hu] at hl
          · rwa [List.dropWhile_cons_of_pos hu] at hd
        simp [mention?, mentions_dropWhile_isUpper hw]
      · split
        · rfl
        · split <;> rfl

lemma cells_of_ofMark? {c : Char} {t : Token} (h : Token.ofMark? c = some t) : t.cells = [] := by
  simp only [Token.ofMark?] at h
  split at h <;> cases h <;> rfl

lemma cells_of_mention {policy : Policy} {m : Mention} {t : Option Token}
    (h : (mention m).token? policy = .ok t) : t.toList.flatMap Token.cells = m.cells := by
  cases m with
  | single name =>
    cases hn : Cell.ofChars? name with
    | none => simp [token?, cell, hn, bind, Except.bind] at h
    | some id =>
      simp only [token?, cell, hn, bind, Except.bind, pure, Except.pure, Except.ok.injEq] at h
      subst h
      simp [Token.cells, Mention.cells, hn]
  | pair first last =>
    cases hf : Cell.ofChars? first with
    | none => simp [token?, cell, hf, bind, Except.bind] at h
    | some a =>
      cases hl : Cell.ofChars? last with
      | none => simp [token?, cell, hf, hl, bind, Except.bind] at h
      | some b =>
        simp only [token?, cell, hf, hl, bind, Except.bind, pure, Except.pure, Except.ok.injEq] at h
        subst h
        simp [Token.cells, Mention.cells, hf, hl]

lemma cells_of_word {policy : Policy} {letters : List Char} {t : Option Token}
    (h : (word letters).token? policy = .ok t) : t.toList.flatMap Token.cells = [] := by
  simp only [token?] at h
  split at h
  · cases h
    rfl
  · cases policy <;> cases h
    rfl

lemma cells_of_next {policy : Policy} {c : Char} {cs : List Char} {t : Option Token}
    (h : (next c cs).1.token? policy = .ok t) :
    t.toList.flatMap Token.cells = (next c cs).1.mention?.toList.flatMap Mention.cells := by
  revert h
  rw [next]
  split
  · intro h
    simpa [mention?] using cells_of_mention h
  · split
    · intro h
      cases h
      rfl
    · split
      · exact cells_of_word
      · split
        · rename_i token hm
          intro h
          cases h
          simpa [mention?] using cells_of_ofMark? hm
        · split <;> intro h
          · cases h
            rfl
          · cases policy <;> cases h
            rfl

lemma cells_of_tokens {policy : Policy} {cs : List Char} {ts : List Token}
    (h : tokens policy (ofChars cs) = .ok ts) :
    ts.flatMap Token.cells = (mentions cs).flatMap Mention.cells := by
  fun_induction ofChars cs generalizing ts with
  | case1 =>
    cases h
    rw [mentions]
    rfl
  | case2 c cs ih =>
    simp only [tokens, bind, Except.bind] at h
    cases ht : (next c cs).1.token? policy with
    | error code => simp [ht] at h
    | ok t =>
      cases hr : tokens policy (ofChars (next c cs).2) with
      | error code => simp [ht, hr] at h
      | ok rest =>
        simp only [ht, hr, pure, Except.pure, Except.ok.injEq] at h
        rw [← h, mentions_next, List.flatMap_append, List.flatMap_append, ih hr, cells_of_next ht]

end Lexeme

lemma Formula.tokens_eq_ok {policy : Policy} {cs : List Char} {ts : List Token} :
    Formula.tokens policy cs = .ok ts ↔
      ts ≠ [] ∧ Lexeme.tokens policy (Lexeme.ofChars cs) = .ok ts := by
  rw [Formula.tokens]
  cases Lexeme.tokens policy (Lexeme.ofChars cs) with
  | error code => simp [bind, Except.bind]
  | ok us => cases us <;> cases ts <;> simp [bind, Except.bind, pure, Except.pure]

lemma References.mem_ofFormula {policy : Policy} {cs : List Char} {ts : List Token}
    (h : Formula.tokens policy (Text.trim cs) = .ok ts) {c : Cell} :
    c ∈ References.ofFormula cs ↔ c ∈ ts.flatMap Token.cells := by
  rw [Lexeme.cells_of_tokens (Formula.tokens_eq_ok.mp h).2, References.mentions_trim]
  simp [References.ofFormula, Std.ExtTreeSet.mem_ofList]

lemma Raw.references_of_formula? {raw : String} {formula : List Char}
    (h : Raw.formula? raw = some formula) : Raw.references raw = References.ofFormula formula := by
  simp [Raw.references, h]

section NamedByTokens

variable {t : Token} {ts : List Token} {r : Rectangle} {ids : List Cell} {c : Cell}

lemma Rectangle.size_le_of_cells? (h : r.cells? = some ids) : r.size ≤ maxCells := by
  simp only [cells?, Option.ite_none_right_eq_some] at h
  exact h.1

lemma Token.mem_cells : c ∈ t.cells ↔
    t = .cell c ∨ ∃ r ids, t = .range r ∧ r.cells? = some ids ∧ c ∈ ids := by
  cases t with
  | cell id => simp [cells, eq_comm]
  | range r => cases hr : r.cells? <;> simp [cells, hr]
  | _ => simp [cells]

namespace Raw

lemma formula?_append (formula : String) : formula? ("=" ++ formula) = some formula.toList := by
  simp [formula?]

theorem mem_references_iff_token (policy : Policy) (formula : String) (ts : List Token)
    (h : Formula.tokens policy (Text.trim formula.toList) = .ok ts) (c : Cell) :
    c ∈ references ("=" ++ formula) ↔ .cell c ∈ ts ∨
      ∃ r ids, .range r ∈ ts ∧ r.size ≤ Rectangle.maxCells ∧ r.cells? = some ids ∧ c ∈ ids := by
  rw [references_of_formula? (formula?_append formula), References.mem_ofFormula h,
    List.mem_flatMap]
  constructor
  · rintro ⟨t, ht, hc⟩
    rcases Token.mem_cells.mp hc with rfl | ⟨r, ids, rfl, hr, hc⟩
    · exact Or.inl ht
    · exact Or.inr ⟨r, ids, ht, Rectangle.size_le_of_cells? hr, hr, hc⟩
  · rintro (ht | ⟨r, ids, ht, -, hr, hc⟩)
    · exact ⟨_, ht, Token.mem_cells.mpr (Or.inl rfl)⟩
    · exact ⟨_, ht, Token.mem_cells.mpr (Or.inr ⟨r, ids, rfl, hr, hc⟩)⟩

theorem mem_references_of_glued_lexemes :
    let formula := " 2A1:A2:B2C3:D "
    Formula.tokens .lenient (Text.trim formula.toList) =
        .ok [.number 2, .range ⟨a1, a2⟩, .cell b2, .cell c3] ∧
      a2 ∈ references ("=" ++ formula) ∧ c3 ∈ references ("=" ++ formula) := by
  intro formula
  have ht : Formula.tokens .lenient (Text.trim formula.toList) =
      .ok [.number 2, .range ⟨a1, a2⟩, .cell b2, .cell c3] := by decide +kernel
  have hr : Rectangle.cells? ⟨a1, a2⟩ = some [a1, a2] := by decide +kernel
  refine ⟨ht, ?_, ?_⟩
  · apply (mem_references_iff_token _ _ _ ht a2).mpr
    exact Or.inr ⟨⟨a1, a2⟩, [a1, a2], by simp, by decide, hr, by simp⟩
  · apply (mem_references_iff_token _ _ _ ht c3).mpr
    exact Or.inl (by simp)

end Raw

end NamedByTokens

end Spreadsheet
