import Spreadsheet.Proofs.Formula.Lexing
import Spreadsheet.Proofs.Number.Pattern
import Spreadsheet.Proofs.Number.Rounding

namespace Spreadsheet

namespace Number

open Lexeme (pointed)

structure Spells (whole places : List Char) (bits : ℕ) : Prop where
  nonempty : whole ≠ []
  whole_digits : ∀ c ∈ whole, c.isDigit = true
  places_digits : ∀ c ∈ places, c.isDigit = true
  reads : readDigits whole places 0 = bits

def minus (negative : Bool) : List Char :=
  if negative then ['-'] else []

section Read

variable {whole places cs : List Char} {bits : ℕ} {negative : Bool}

lemma splitSign_minus (h : whole ≠ []) (hd : ∀ c ∈ whole, c.isDigit = true) :
    splitSign (minus negative ++ (whole ++ cs)) = (negative, whole ++ cs) := by
  obtain ⟨c, ds, rfl⟩ := List.exists_cons_of_ne_nil h
  have hc : c.isDigit = true := hd c List.mem_cons_self
  cases negative with
  | true => rfl
  | false =>
    rw [minus, if_neg Bool.false_ne_true, List.nil_append, List.cons_append, splitSign]
    · rintro _ ⟨⟩
      contradiction
    · rintro _ ⟨⟩
      contradiction

lemma head?_pointed (places : List Char) : ∀ d ∈ (pointed places).head?, d.isDigit = false := by
  cases places with
  | nil => simp [pointed]
  | cons => simp [pointed]

lemma splitFraction_pointed (h : ∀ c ∈ places, c.isDigit = true) :
    splitFraction (pointed places) = (places, []) := by
  cases places with
  | nil => rfl
  | cons c places =>
    have hstop : ∀ d ∈ ([] : List Char).head?, d.isDigit = false := by simp
    have ht := takeWhile_append_of_stop h hstop
    have hd := dropWhile_append_of_stop h hstop
    rw [List.append_nil] at ht hd
    change ((c :: places).takeWhile Char.isDigit, (c :: places).dropWhile Char.isDigit) = _
    rw [ht, hd]

lemma Spells.not_isBlank (h : Spells whole places bits) :
    ∀ c ∈ minus negative ++ (whole ++ pointed places), Text.isBlank c = false := by
  intro c hc
  rcases List.mem_append.mp hc with hc | hc
  · cases negative with
    | true =>
      obtain rfl := List.mem_singleton.mp hc
      rfl
    | false => cases hc
  rcases List.mem_append.mp hc with hc | hc
  · exact Text.not_isBlank (Or.inr (h.whole_digits c hc))
  · cases places with
    | nil => cases hc
    | cons d places =>
      rcases List.mem_cons.mp hc with rfl | hc
      · rfl
      · exact Text.not_isBlank (Or.inr (h.places_digits c hc))

lemma Spells.ofChars? (h : Spells whole places bits) (hb : bits < infinityBits) (negative : Bool) :
    ofChars? (minus negative ++ (whole ++ pointed places)) = some (ofMagnitude negative bits) := by
  rw [Number.ofChars?, Text.trim_eq_self h.not_isBlank, splitSign_minus h.nonempty h.whole_digits]
  simp only [takeWhile_append_of_stop h.whole_digits (head?_pointed places),
    dropWhile_append_of_stop h.whole_digits (head?_pointed places),
    splitFraction_pointed h.places_digits]
  simp [readExponent?, h.nonempty, h.reads, hb]

end Read

section Write

lemma length_padded {n k : ℕ} (hk : 0 < k) : (Nat.toDigits 10 (n % 10 ^ k)).length ≤ k :=
  (Nat.length_toDigits_le_iff (by decide) hk).mpr (Nat.mod_lt _ (Nat.pow_pos (by decide)))

/-- Of the decimal digits of `n`, the last `k` with zeros in front of them. -/
def lastDigits (n k : ℕ) : List Char :=
  if k = 0 then []
  else
    let digits := Nat.toDigits 10 (n % 10 ^ k)
    List.replicate (k - digits.length) '0' ++ digits

lemma length_lastDigits (n k : ℕ) : (lastDigits n k).length = k := by
  rw [lastDigits]
  split
  · simp_all
  · rename_i hk
    have := length_padded (n := n) (Nat.pos_of_ne_zero hk)
    simp
    omega

lemma ofDigitChars_lastDigits (n k : ℕ) :
    Nat.ofDigitChars 10 (Nat.toDigits 10 (n / 10 ^ k) ++ lastDigits n k) 0 = n := by
  have hlast : Nat.ofDigitChars 10 (lastDigits n k) 0 = n % 10 ^ k := by
    rw [lastDigits]
    split
    · rename_i hk
      simp [hk, Nat.mod_one]
    · simp [Nat.ofDigitChars_append]
  rw [Nat.ofDigitChars_append, Nat.ofDigitChars_ten_toDigits, Nat.ofDigitChars_eq_ofDigitChars_zero,
    length_lastDigits, hlast, Nat.div_add_mod]

lemma pointed_of_ne_nil {places : List Char} (h : places ≠ []) :
    pointed places = '.' :: places := by
  cases places with
  | nil => contradiction
  | cons => rfl

def Decimal.whole (d : Decimal) : List Char :=
  Nat.toDigits 10 (d.digits * 10 ^ d.exponent.toNat / 10 ^ (-d.exponent).toNat)

def Decimal.places (d : Decimal) : List Char :=
  lastDigits d.digits (-d.exponent).toNat

lemma positional_eq (d : Decimal) : positional d = d.whole ++ pointed d.places := by
  have hlen : d.places.length = (-d.exponent).toNat := length_lastDigits _ _
  rw [positional]
  simp only [Nat.pow_eq]
  split
  · rename_i hk
    rw [hk, List.length_eq_zero_iff] at hlen
    rw [hlen, pointed, List.append_nil, Decimal.whole, hk]
  · rename_i hk
    have hne : d.places ≠ [] := by
      rw [← List.length_pos_iff]
      omega
    rw [pointed_of_ne_nil hne, Decimal.places, lastDigits, if_neg hk]
    rfl

lemma nearestDecimal_shift {n : ℕ} {e : ℤ} (he : 0 ≤ e) (h : nearestDecimal n e < infinityBits) :
    nearestDecimal (n * 10 ^ e.toNat) 0 = nearestDecimal n e := by
  rcases Nat.eq_zero_or_pos n with rfl | hn
  · rw [Nat.zero_mul, nearestDecimal, nearestDecimal, if_pos rfl, if_pos rfl]
  have hpos : n * 10 ^ e.toNat ≠ 0 := (Nat.mul_pos hn (Nat.pow_pos (by decide))).ne'
  have hle : ¬ 400 < e := by
    intro hlt
    rw [nearestDecimal, if_neg hn.ne', if_pos hlt] at h
    exact lt_irrefl _ h
  have hdown : (-e).toNat = 0 := by omega
  rw [nearestDecimal, if_neg hpos, if_neg (by decide), if_neg (by omega), nearestDecimal,
    if_neg hn.ne', if_neg hle, if_neg (by omega), hdown]
  simp

lemma readDigits_decimal (d : Decimal) (h : d.bits < infinityBits) :
    readDigits d.whole d.places 0 = d.bits := by
  have hlen : d.places.length = (-d.exponent).toNat := length_lastDigits _ _
  rw [readDigits, hlen, Decimal.whole, Decimal.places]
  rcases le_or_gt 0 d.exponent with he | he
  · have hk : (-d.exponent).toNat = 0 := by omega
    rw [hk, lastDigits, if_pos rfl, List.append_nil, pow_zero, Nat.div_one,
      Nat.ofDigitChars_ten_toDigits]
    exact nearestDecimal_shift he h
  · have hk : d.exponent.toNat = 0 := by omega
    rw [hk, pow_zero, Nat.mul_one, ofDigitChars_lastDigits, Decimal.bits]
    congr 1
    omega

lemma isDigit_of_mem_lastDigits {n k : ℕ} {c : Char} (h : c ∈ lastDigits n k) :
    c.isDigit = true := by
  rw [lastDigits] at h
  split at h
  · cases h
  · rcases List.mem_append.mp h with h | h
    · rw [(List.mem_replicate.mp h).2]
      rfl
    · exact Nat.isDigit_of_mem_toDigits (by decide) le_rfl h

lemma spells_decimal (d : Decimal) (h : d.bits < infinityBits) :
    Spells d.whole d.places d.bits where
  nonempty := Nat.toDigits_ne_nil
  whole_digits _ := Nat.isDigit_of_mem_toDigits (by decide) le_rfl
  places_digits _ := isDigit_of_mem_lastDigits
  reads := readDigits_decimal d h

lemma spells_zero : Spells ['0'] [] 0 where
  nonempty := List.cons_ne_nil _ _
  whole_digits := by simp
  places_digits := by simp
  reads := rfl

def unsignedZero (x : Float) : Float :=
  if magnitude x = 0 then 0 else x

lemma text_eq {x : Float} (h : isFinite x = true) : ∃ negative whole places,
    text x = minus negative ++ (whole ++ pointed places) ∧ Spells whole places (magnitude x) ∧
      ofMagnitude negative (magnitude x) = unsignedZero x := by
  have hb : magnitude x < infinityBits := of_decide_eq_true h
  rw [text, unsignedZero]
  split
  · rename_i h0
    rw [h0]
    exact ⟨false, ['0'], [], rfl, spells_zero, rfl⟩
  · rename_i h0
    set d := shortest (magnitude x)
    have hd : d.bits = magnitude x := bits_shortest hb h0
    have hs : Spells d.whole d.places d.bits := spells_decimal d (hd ▸ hb)
    refine ⟨isNegative x, d.whole, d.places, ?_, hd ▸ hs, ofMagnitude_magnitude h⟩
    rw [positional_eq]
    cases isNegative x <;> rfl

lemma ofChars?_text {x : Float} (h : isFinite x = true) :
    ofChars? (text x) = some (unsignedZero x) := by
  obtain ⟨negative, whole, places, ht, hs, hx⟩ := text_eq h
  rw [ht, hs.ofChars? (of_decide_eq_true h), hx]

end Write

end Number

end Spreadsheet
