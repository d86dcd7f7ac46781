import Spreadsheet.Proofs.Number.ReadBack

/-! A whole number below `10 ^ 15` is written with its plain digits. -/

namespace Spreadsheet.Number

variable {den n m bits k : ℕ} {e : ℤ} {d : Decimal} {x : Float}

lemma mantissaExponent_of_normal {q : ℤ} (hq : -1074 ≤ q) (hlo : 2 ^ 52 ≤ m) (hhi : m < 2 ^ 53) :
    mantissaExponent ((q + 1074).toNat * 2 ^ 52 + m) = (m, q) := by
  have hpow : Nat.pow 2 52 = 2 ^ 52 := rfl
  rw [mantissaExponent, hpow, if_neg (by omega)]
  ext <;> dsimp only <;> omega

lemma exists_pattern (h0 : 0 < n) (h : n < 2 ^ 53) :
    ∃ bits < infinityBits, patternValue bits = n := by
  have hlog : n.log2 ≤ 52 := Nat.lt_succ_iff.mp ((Nat.log2_lt h0.ne').mpr h)
  obtain ⟨k, hk⟩ := Nat.exists_eq_add_of_le hlog
  have hlo : 2 ^ 52 ≤ n * 2 ^ k := by
    rw [hk, pow_add]
    exact Nat.mul_le_mul_right _ (Nat.log2_self_le h0.ne')
  have hhi : n * 2 ^ k < 2 ^ 53 := by
    have hsucc : 53 = n.log2 + 1 + k := by omega
    rw [hsucc, pow_add]
    exact Nat.mul_lt_mul_of_pos_right Nat.lt_log2_self (Nat.pow_pos two_pos)
  refine ⟨(-k + 1074 : ℤ).toNat * 2 ^ 52 + n * 2 ^ k, ?_, ?_⟩
  · have hinf : infinityBits = 2047 * 2 ^ 52 := rfl
    omega
  · rw [patternValue, mantissaExponent_of_normal (by omega) hlo hhi, zpow_neg, zpow_natCast]
    push_cast
    field_simp

lemma patternValue_bits (he : 0 ≤ d.exponent) (he' : d.exponent ≤ 400)
    (h : d.digits * 10 ^ d.exponent.toNat < 2 ^ 53) (h0 : d.bits ≠ 0) :
    patternValue d.bits = (d.digits * 10 ^ d.exponent.toNat : ℕ) := by
  have hn : d.digits ≠ 0 := fun hd => h0 (if_pos hd)
  obtain ⟨bits, hb, hv⟩ :=
    exists_pattern (Nat.mul_pos (Nat.pos_of_ne_zero hn) (Nat.pow_pos (by decide))) h
  have hvalue : (d.digits : ℚ) * 10 ^ d.exponent = patternValue bits := by
    lift d.exponent to ℕ using he with e
    rw [hv, zpow_natCast]
    push_cast
    rfl
  rw [Decimal.bits, nearestDecimal_of_value hb he' (by omega) hvalue, hv]

lemma fraction_eq (hv : patternValue bits = n) :
    ∃ den, 0 < den ∧ fraction bits = (n * den, den) := by
  rw [patternValue] at hv
  rw [fraction]
  generalize mantissaExponent bits = p at *
  refine ⟨Nat.pow 2 (-p.2).toNat, Nat.pow_pos two_pos, Prod.ext ?_ rfl⟩
  have hdiv : (n : ℚ) / (1 : ℕ) = p.1 * 2 ^ p.2 := by rw [hv, Nat.cast_one, div_one]
  dsimp only
  rw [mul_eq_of_div_eq one_pos hdiv, one_mul]

lemma mem_neighbours (hd : 0 < den) (he : 0 ≤ e) (h : d ∈ neighbours m (n * den) den e) :
    d.exponent = e ∧ d.digits ≤ n / 10 ^ e.toNat + 1 := by
  have hdown : (-e).toNat = 0 := by omega
  have hquot : n * den / (den * 10 ^ e.toNat) = n / 10 ^ e.toNat := by
    rw [mul_comm n, Nat.mul_div_mul_left _ _ hd]
  simp only [neighbours, hdown, Nat.pow_eq, pow_zero, mul_one, hquot] at h
  grind

lemma self_mem_neighbours (hd : 0 < den) : ⟨n, 0⟩ ∈ neighbours m (n * den) den 0 := by
  simp [neighbours, hd]

lemma decimalExponent_eq (hn : 0 < n) (hd : 0 < den) :
    decimalExponent (n * den) den = (Nat.toDigits 10 n).length := by
  rw [decimalExponent, if_pos (Nat.le_mul_of_pos_left _ hn), Nat.mul_div_cancel _ hd]

lemma findSome?_range {α : Type} {f : ℕ → Option α} (h : (f k).isSome) (hk : k < n) :
    ∃ p ≤ k, ∃ a, f p = some a ∧ (List.range n).findSome? f = some a := by
  obtain ⟨l, rfl⟩ := Nat.exists_eq_add_of_le (Nat.succ_le_of_lt hk)
  have hsome : ((List.range (k + 1)).findSome? f).isSome :=
    List.findSome?_isSome_iff.mpr ⟨k, List.self_mem_range_succ, h⟩
  obtain ⟨a, ha⟩ := Option.isSome_iff_exists.mp hsome
  obtain ⟨p, hp, hpa⟩ := List.exists_of_findSome?_eq_some ha
  refine ⟨p, Nat.lt_succ_iff.mp (List.mem_range.mp hp), a, hpa, ?_⟩
  rw [List.range_add, List.findSome?_append, ha, Option.some_or]

section Integral

variable (hv : patternValue bits = n) (h0 : 0 < n)
include hv h0

lemma ne_zero_of_value : bits ≠ 0 := by
  rintro rfl
  have hzero : patternValue 0 = 0 := by simp [patternValue, mantissaExponent]
  rw [hzero] at hv
  exact h0.ne (by exact_mod_cast hv)

variable (hb : bits < infinityBits) (hn : n < 10 ^ 15)
include hb hn

lemma shortest_mem_neighbours : ∃ den, 0 < den ∧ ∃ e, 0 ≤ e ∧ e ≤ 15 ∧
    shortest bits ∈ neighbours (mantissaExponent bits).1 (n * den) den e := by
  obtain ⟨den, hd, hfrac⟩ := fraction_eq hv
  set top := (Nat.toDigits 10 n).length with htop
  have hlength : top ≤ 15 := (Nat.length_toDigits_le_iff (by decide) (by decide)).mpr hn
  have hself : nearestDecimal n 0 = bits :=
    nearestDecimal_of_value hb (by decide) (by omega) (by simpa using hv.symm)
  have hfound : ((neighbours (mantissaExponent bits).1 (n * den) den (top - top : ℤ)).find?
      (·.bits = bits)).isSome := by
    rw [sub_self, List.find?_isSome]
    exact ⟨_, self_mem_neighbours hd, decide_eq_true hself⟩
  -- The grid of the whole numbers succeeds, so the first grid to succeed is no finer.
  obtain ⟨p, hp, d, hdp, hsome⟩ := findSome?_range (n := 18)
    (f := fun (p : ℕ) => (neighbours (mantissaExponent bits).1 (n * den) den (top - p)).find?
      (·.bits = bits)) hfound (by omega)
  have hshort : shortest bits = d := by
    rw [shortest, hfrac]
    dsimp only
    rw [decimalExponent_eq h0 hd, ← htop, hsome, Option.getD_some]
  rw [hshort]
  exact ⟨den, hd, _, by omega, by omega, List.mem_of_find?_eq_some hdp⟩

lemma shortest_of_integral : 0 ≤ (shortest bits).exponent ∧
    (shortest bits).digits * 10 ^ (shortest bits).exponent.toNat = n := by
  have hbits : bits ≠ 0 := ne_zero_of_value hv h0
  obtain ⟨den, hd, e, he, htop, hmem⟩ := shortest_mem_neighbours hv h0 hb hn
  have hread : (shortest bits).bits = bits := bits_shortest hb hbits
  obtain ⟨rfl, hdigits⟩ := mem_neighbours hd he hmem
  generalize shortest bits = d at *
  have hbound : d.digits * 10 ^ d.exponent.toNat < 2 ^ 53 := by
    have hpow : 10 ^ d.exponent.toNat ≤ 10 ^ 15 := Nat.pow_le_pow_right (by decide) (by omega)
    calc d.digits * 10 ^ d.exponent.toNat
        ≤ (n / 10 ^ d.exponent.toNat + 1) * 10 ^ d.exponent.toNat :=
          Nat.mul_le_mul_right _ hdigits
      _ ≤ n + 10 ^ d.exponent.toNat := by
          rw [add_mul, one_mul]
          exact Nat.add_le_add_right (Nat.div_mul_le_self _ _) _
      _ < 2 ^ 53 := by omega
  have hvalue := patternValue_bits he (by omega) hbound (hread ▸ hbits)
  rw [hread, hv] at hvalue
  exact ⟨he, by exact_mod_cast hvalue.symm⟩

end Integral

theorem text_of_integral (h : isFinite x = true) (hv : patternValue (magnitude x) = n) (h0 : 0 < n)
    (hn : n < 10 ^ 15) : text x = minus (isNegative x) ++ Nat.toDigits 10 n := by
  obtain ⟨he, hd⟩ := shortest_of_integral hv h0 (of_decide_eq_true h) hn
  have hdown : (-(shortest (magnitude x)).exponent).toNat = 0 := by omega
  rw [text, if_neg (ne_zero_of_value hv h0), positional]
  simp only [hdown, Nat.pow_eq, pow_zero, Nat.div_one, hd]
  cases isNegative x <;> rfl

end Spreadsheet.Number
