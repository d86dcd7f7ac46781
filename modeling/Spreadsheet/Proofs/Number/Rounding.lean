import Mathlib.Algebra.Order.Field.Power
import Mathlib.Data.Int.Log
import Mathlib.Data.Rat.Floor
import Mathlib.Tactic.FieldSimp
import Mathlib.Tactic.Positivity
import Spreadsheet.Number.Shortest

/-! A fraction that is a double already is rounded to itself. -/

namespace Spreadsheet.Number

variable {num den n bits : ℕ} {e : ℤ} {r : ℚ}

lemma zpow_eq_div {b : ℚ} (hb : b ≠ 0) (e : ℤ) : b ^ e = b ^ e.toNat / b ^ (-e).toNat := by
  rw [← zpow_natCast, ← zpow_natCast, ← zpow_sub₀ hb]
  congr 1
  omega

lemma log_eq (h : (2 : ℚ) ^ e ≤ r) (h' : r < 2 ^ (e + 1)) : Int.log 2 r = e := by
  have hr : 0 < r := lt_of_lt_of_le (by positivity) h
  have hle : e ≤ Int.log 2 r := (Int.zpow_le_iff_le_log (by norm_num) hr).mp (by simpa using h)
  have hlt : Int.log 2 r < e + 1 := (Int.lt_zpow_iff_log_lt (by norm_num) hr).mp (by simpa using h')
  omega

lemma lt_zpow_iff (hd : 0 < den) (e : ℤ) :
    (num : ℚ) / den < 2 ^ e ↔ num * Nat.pow 2 (-e).toNat < den * Nat.pow 2 e.toNat := by
  have hd' : (0 : ℚ) < den := by exact_mod_cast hd
  rw [zpow_eq_div two_ne_zero, div_lt_div_iff₀ hd' (by positivity), mul_comm _ (den : ℚ)]
  exact_mod_cast Iff.rfl

lemma log2_bounds (hn : 0 < n) : (2 : ℚ) ^ (n.log2 : ℤ) ≤ n ∧ (n : ℚ) < 2 ^ (n.log2 + 1 : ℤ) := by
  rw [zpow_natCast, ← Nat.cast_succ, zpow_natCast]
  exact ⟨by exact_mod_cast Nat.log2_self_le hn.ne', by exact_mod_cast Nat.lt_log2_self⟩

lemma binaryExponent_eq (hn : 0 < num) (hd : 0 < den) :
    binaryExponent num den = Int.log 2 ((num : ℚ) / den) := by
  have hd' : (0 : ℚ) < den := by exact_mod_cast hd
  obtain ⟨hnlo, hnhi⟩ := log2_bounds hn
  obtain ⟨hdlo, hdhi⟩ := log2_bounds hd
  set e : ℤ := num.log2 - den.log2 with he
  have hlo : (2 : ℚ) ^ (e - 1) ≤ num / den := by
    rw [le_div_iff₀ hd']
    calc (2 : ℚ) ^ (e - 1) * den ≤ 2 ^ (e - 1) * 2 ^ (den.log2 + 1 : ℤ) := by gcongr
      _ = 2 ^ (num.log2 : ℤ) := by
        rw [← zpow_add₀ two_ne_zero]
        congr 1
        omega
      _ ≤ num := hnlo
  have hhi : (num : ℚ) / den < 2 ^ (e + 1) := by
    rw [div_lt_iff₀ hd']
    calc (num : ℚ) < 2 ^ (num.log2 + 1 : ℤ) := hnhi
      _ = 2 ^ (e + 1) * 2 ^ (den.log2 : ℤ) := by
        rw [← zpow_add₀ two_ne_zero]
        congr 1
        omega
      _ ≤ 2 ^ (e + 1) * den := by gcongr
  simp only [binaryExponent, ← lt_zpow_iff hd, ← he]
  split
  · rename_i h
    exact (log_eq hlo (by simpa using h)).symm
  · rename_i h
    exact (log_eq (not_lt.mp h) hhi).symm

lemma roundDiv_of_mul (h : 0 < den) : roundDiv (n * den) den = n := by
  simp [roundDiv, h]

def patternValue (bits : ℕ) : ℚ :=
  (mantissaExponent bits).1 * 2 ^ (mantissaExponent bits).2

lemma mantissaExponent_cases (bits : ℕ) : ∃ m q, mantissaExponent bits = (m, q) ∧ m < 2 ^ 53 ∧
    (q = -1074 ∨ -1074 ≤ q ∧ 2 ^ 52 ≤ m) ∧ (q + 1074).toNat * 2 ^ 52 + m = bits := by
  have hpow : Nat.pow 2 52 = 2 ^ 52 := rfl
  rw [mantissaExponent, hpow]
  split
  · exact ⟨_, _, rfl, by omega, Or.inl rfl, by omega⟩
  · exact ⟨_, _, rfl, by omega, Or.inr ⟨by omega, by omega⟩, by omega⟩

lemma log_mul_zpow (hn : 0 < n) (q : ℤ) : Int.log 2 ((n : ℚ) * 2 ^ q) = n.log2 + q := by
  obtain ⟨hlo, hhi⟩ := log2_bounds hn
  apply log_eq
  · rw [zpow_add₀ two_ne_zero]
    gcongr
  · rw [add_right_comm, zpow_add₀ two_ne_zero]
    gcongr

lemma mul_eq_of_div_eq {m : ℕ} {q : ℤ} (hd : 0 < den) (h : (num : ℚ) / den = m * 2 ^ q) :
    num * Nat.pow 2 (-q).toNat = m * (den * Nat.pow 2 q.toNat) := by
  have hd' : (den : ℚ) ≠ 0 := by exact_mod_cast hd.ne'
  rw [zpow_eq_div two_ne_zero, ← mul_div_assoc, div_eq_div_iff hd' (by positivity)] at h
  have h' : num * 2 ^ (-q).toNat = m * 2 ^ q.toNat * den := by exact_mod_cast h
  rw [mul_comm den, ← mul_assoc]
  exact h'

lemma nearest_of_value (hd : 0 < den) (hb : bits < infinityBits)
    (h : (num : ℚ) / den = patternValue bits) : nearest num den = bits := by
  obtain ⟨m, q, hmq, hm, hq, hbits⟩ := mantissaExponent_cases bits
  rw [patternValue, hmq] at h
  have hmul : num * Nat.pow 2 (-q).toNat = m * (den * Nat.pow 2 q.toNat) := mul_eq_of_div_eq hd h
  have hpos : 0 < den * Nat.pow 2 q.toNat := Nat.mul_pos hd (Nat.pow_pos two_pos)
  rcases Nat.eq_zero_or_pos num with rfl | hn
  · rw [nearest, if_pos rfl]
    have hm' : m = 0 := by
      rw [Nat.zero_mul, eq_comm, Nat.mul_eq_zero] at hmul
      exact hmul.resolve_right hpos.ne'
    omega
  · have hm' : m ≠ 0 := by
      rintro rfl
      simp [hn.ne'] at hmul
    have hlog : m.log2 ≤ 52 := Nat.lt_succ_iff.mp ((Nat.log2_lt hm').mpr hm)
    have hlog' : 2 ^ 52 ≤ m → 52 ≤ m.log2 := (Nat.le_log2 hm').mpr
    have hmax : max (-1074) (Int.log 2 ((m : ℚ) * 2 ^ q) - 52) = q := by
      rw [log_mul_zpow (Nat.pos_of_ne_zero hm')]
      omega
    rw [nearest, if_neg hn.ne', binaryExponent_eq hn hd, h]
    simp only [hmax, hmul, roundDiv_of_mul hpos]
    rw [show Nat.pow 2 52 = 2 ^ 52 from rfl, hbits]
    exact Nat.min_eq_right hb.le

lemma nearestDecimal_of_value (hb : bits < infinityBits) (he : e ≤ 400)
    (hn : 3 * -e ≤ n.log2 + 1100) (h : (n : ℚ) * 10 ^ e = patternValue bits) :
    nearestDecimal n e = bits := by
  have hnear : nearest (n * Nat.pow 10 e.toNat) (Nat.pow 10 (-e).toNat) = bits := by
    refine nearest_of_value (Nat.pow_pos (by decide)) hb ?_
    rw [← h, zpow_eq_div (by norm_num), ← mul_div_assoc]
    simp only [Nat.pow_eq]
    push_cast
    rfl
  rw [nearestDecimal]
  split
  · rename_i hn
    rw [← hnear, hn, Nat.zero_mul, nearest, if_pos rfl]
  · rw [if_neg (not_lt.mpr he), if_neg (not_lt.mpr hn), hnear]

lemma value_exact (bits : ℕ) :
    ((exact bits).digits : ℚ) * 10 ^ (exact bits).exponent = patternValue bits := by
  rw [exact, patternValue]
  obtain ⟨m, q⟩ := mantissaExponent bits
  have hmin : (10 : ℚ) ^ min q 0 = 1 / (2 ^ (-q).toNat * 5 ^ (-q).toNat) := by
    have hup : (min q 0).toNat = 0 := by omega
    have hdown : (-min q 0).toNat = (-q).toNat := by omega
    rw [zpow_eq_div (by norm_num), hup, hdown, pow_zero, ← mul_pow]
    norm_num
  dsimp only
  rw [hmin, zpow_eq_div two_ne_zero q]
  simp only [Nat.pow_eq]
  push_cast
  field_simp

lemma two_mul_le_log2 (hn : 0 < n) (k : ℕ) : 2 * k ≤ (n * 5 ^ k).log2 := by
  rw [Nat.le_log2 (by positivity), pow_mul]
  calc (2 ^ 2) ^ k ≤ 5 ^ k := Nat.pow_le_pow_left (by decide) k
    _ ≤ n * 5 ^ k := Nat.le_mul_of_pos_left _ hn

lemma bits_exact (hb : bits < infinityBits) (h0 : bits ≠ 0) : (exact bits).bits = bits := by
  obtain ⟨m, q, hmq, hm, hq, hbits⟩ := mantissaExponent_cases bits
  have hexact : exact bits = ⟨m * 2 ^ q.toNat * 5 ^ (-q).toNat, min q 0⟩ := by
    rw [exact, hmq]
    rfl
  have hpos : 0 < m * 2 ^ q.toNat := Nat.mul_pos (by omega) (Nat.pow_pos two_pos)
  have hlog : 2 * (-q).toNat ≤ (m * 2 ^ q.toNat * 5 ^ (-q).toNat).log2 :=
    two_mul_le_log2 hpos (-q).toNat
  have hup : min q 0 ≤ 400 := by omega
  have hdown : 3 * -min q 0 ≤ (m * 2 ^ q.toNat * 5 ^ (-q).toNat).log2 + 1100 := by omega
  have hvalue := value_exact bits
  rw [hexact] at hvalue ⊢
  exact nearestDecimal_of_value hb hup hdown hvalue

lemma bits_shortest (hb : bits < infinityBits) (h0 : bits ≠ 0) : (shortest bits).bits = bits := by
  rw [shortest]
  dsimp only
  set found := (List.range 18).findSome? _ with hf
  cases hc : found with
  | none => exact bits_exact hb h0
  | some d =>
    rw [hc] at hf
    obtain ⟨places, -, hd⟩ := List.exists_of_findSome?_eq_some hf.symm
    simpa using List.find?_some hd

end Spreadsheet.Number
