import Mathlib.Algebra.Group.Int.Defs
import Mathlib.Algebra.Group.Nat.Defs
import Spreadsheet.Number.Numeral

/-! A finite number is determined by its bit pattern, and negation changes nothing but the sign. -/

namespace Spreadsheet.Number

open Float.Model (Format UnpackedFloat)
open Float.Model.UnpackedFloat

section Fields

variable (s : Sign) (e : BitVec 11) (m : BitVec 52)

def ofFields : UnpackedFloat :=
  if e = -1#11 then
    if m = 0#52 then .infinity s else .notANumber
  else if e = 0#11 then
    if h : m = 0#52 then .zero s else .finite s m.toNat (-1074) (BitVec.toNat_pos_of_ne_zero h)
  else .finite s (2 ^ 52 + m.toNat) (e.toNat - 1075) (by omega)

lemma toNat_packComponents : (packComponents Format.binary64 s e m).toNat =
    s.toBitVec.toNat * 2 ^ 63 + e.toNat * 2 ^ 52 + m.toNat := by
  simp only [packComponents, BitVec.toNat_append]
  rw [← Nat.shiftLeft_add_eq_or_of_lt m.isLt, ← Nat.shiftLeft_add_eq_or_of_lt e.isLt]
  simp only [Nat.shiftLeft_eq]
  omega

lemma sign_packComponents :
    Sign.ofBitVec (unpackSign (packComponents Format.binary64 s e m)) = s := by
  have h : (unpackSign (packComponents Format.binary64 s e m)).toNat = s.toBitVec.toNat := by
    have he : e.toNat < 2 ^ 11 := e.isLt
    have hm : m.toNat < 2 ^ 52 := m.isLt
    change (packComponents Format.binary64 s e m).toNat >>> 63 % 2 ^ 1 = _
    rw [toNat_packComponents, Nat.shiftRight_eq_div_pow]
    cases s <;> simp [Sign.toBitVec] <;> omega
  rw [BitVec.eq_of_toNat_eq h]
  cases s <;> rfl

lemma finite_congr {m n : ℕ} {k l : ℤ} (hm : 0 < m) (hmn : m = n) (hkl : k = l) :
    finite s m k hm = finite s n l (hmn ▸ hm) := by
  subst hmn hkl
  rfl

variable {s e m} in
lemma unpack_of_fields {b : BitVec Format.binary64.numBits}
    (hs : Sign.ofBitVec (unpackSign b) = s) (he : unpackExponent b = e)
    (hm : unpackMantissa b = m) : unpack Format.binary64 b = ofFields s e m := by
  subst hs he hm
  have hmant : (1#1 ++ unpackMantissa b).toNat = 2 ^ 52 + (unpackMantissa b).toNat := by
    rw [BitVec.toNat_append, ← Nat.shiftLeft_add_eq_or_of_lt (unpackMantissa b).isLt]
    rfl
  -- The two functions make the same tests; they differ in how they spell mantissa and exponent.
  refine ite_congr rfl (fun _ => rfl) fun _ => ite_congr rfl (fun he => ?_) fun _ => ?_
  · refine dite_congr rfl (fun _ => rfl) fun _ => finite_congr _ _ rfl ?_
    rw [he]
    rfl
  · exact finite_congr _ _ hmant rfl

lemma unpack_packComponents :
    unpack Format.binary64 (packComponents Format.binary64 s e m) = ofFields s e m :=
  unpack_of_fields (sign_packComponents s e m) unpackExponent_packComponents
    unpackMantissa_packComponents

lemma pack_finite (n : ℕ) (k : ℤ) (hn : 0 < n) : pack Format.binary64 (.finite s n k hn) =
    if 2 ^ 11 ≤ (k + 1023 + 52).toNat + 1 then packedInfinity Format.binary64 s
    else if n.log2 + 1 = 53 then
      packComponents Format.binary64 s (BitVec.ofNat 11 (k + 1023 + 52).toNat) (BitVec.ofNat 52 n)
    else packComponents Format.binary64 s 0#11 (BitVec.ofNat 52 n) :=
  rfl

lemma neg_ofFields : (ofFields s e m).neg = ofFields (-s) e m := by
  rw [ofFields, ofFields, apply_ite neg, apply_ite neg, apply_ite neg, apply_dite neg]
  rfl

variable {e} in
lemma pack_ofFields (he : e ≠ -1#11) :
    pack Format.binary64 (ofFields s e m) = packComponents Format.binary64 s e m := by
  have hm : m.toNat < 2 ^ 52 := m.isLt
  rw [ofFields, if_neg he]
  by_cases hz : e = 0#11
  · subst hz
    rw [if_pos rfl]
    by_cases hm₀ : m = 0#52
    · subst hm₀
      rfl
    · -- A subnormal number has a mantissa of at most 52 places.
      have hlog : m.toNat.log2 + 1 ≠ 53 := by
        have := (Nat.log2_lt (BitVec.toNat_ne_iff_ne.mpr hm₀)).mpr hm
        omega
      rw [dif_neg hm₀, pack_finite, if_neg (by decide), if_neg hlog, BitVec.ofNat_toNat,
        BitVec.setWidth_eq]
  · have hlog : (2 ^ 52 + m.toNat).log2 = 52 := (Nat.log2_eq_iff (by omega)).mpr (by omega)
    have htop : e.toNat ≠ 2 ^ 11 - 1 := fun h => he (BitVec.eq_of_toNat_eq h)
    have hlt : e.toNat < 2 ^ 11 := e.isLt
    have hb : ((e.toNat : ℤ) - 1075 + 1023 + 52).toNat = e.toNat := by omega
    have hmant : BitVec.ofNat 52 (2 ^ 52 + m.toNat) = m := by
      apply BitVec.eq_of_toNat_eq
      rw [BitVec.toNat_ofNat, Nat.add_mod_left, Nat.mod_eq_of_lt hm]
    rw [if_neg hz, pack_finite, hb, hlog, hmant, if_neg (by omega), if_pos rfl,
      BitVec.ofNat_toNat, BitVec.setWidth_eq]

end Fields

section Magnitude

variable {n : ℕ} {x : Float}

def signField (negative : Bool) : Sign :=
  if negative then .negative else .positive

def exponentField (n : ℕ) : BitVec 11 :=
  BitVec.ofNat 11 (n / 2 ^ 52)

def mantissaField (n : ℕ) : BitVec 52 :=
  BitVec.ofNat 52 n

lemma exponentField_ne (h : n < infinityBits) : exponentField n ≠ -1#11 := by
  intro he
  have hn : n / 2 ^ 52 % 2 ^ 11 = 2047 := congrArg BitVec.toNat he
  have : n < 2047 * 2 ^ 52 := h
  omega

lemma toBitVec_signed (negative : Bool) (h : n < 2 ^ 63) :
    (UInt64.ofNat (if negative then Nat.pow 2 63 + n else n)).toBitVec =
      packComponents Format.binary64 (signField negative) (exponentField n) (mantissaField n) := by
  apply BitVec.eq_of_toNat_eq
  rw [toNat_packComponents, exponentField, mantissaField, BitVec.toNat_ofNat, BitVec.toNat_ofNat,
    UInt64.toNat_toBitVec, UInt64.toNat_ofNat']
  cases negative <;> simp [signField, Sign.toBitVec] <;> omega

lemma ofMagnitude_eq (negative : Bool) (h : n < 2 ^ 63) : ofMagnitude negative n =
    .ofModel (.pack (ofFields (signField negative) (exponentField n) (mantissaField n))) := by
  rw [ofMagnitude, Float.ofBits, Float.Model.ofBits, toBitVec_signed negative h,
    unpack_packComponents]

lemma lt_of_lt_infinityBits (h : n < infinityBits) : n < 2 ^ 63 := by
  have : n < 2047 * 2 ^ 52 := h
  omega

lemma toNat_toBits_ofMagnitude (negative : Bool) (h : n < infinityBits) :
    (ofMagnitude negative n).toBits.toNat = if negative then 2 ^ 63 + n else n := by
  have hn : n < 2 ^ 63 := lt_of_lt_infinityBits h
  rw [ofMagnitude_eq negative hn]
  change (pack Format.binary64 _).toNat = _
  rw [pack_ofFields _ _ (exponentField_ne h), ← toBitVec_signed negative hn,
    UInt64.toNat_toBitVec, UInt64.toNat_ofNat']
  exact Nat.mod_eq_of_lt (by split <;> simp <;> omega)

lemma neg_ofMagnitude (h : n < infinityBits) : -ofMagnitude false n = ofMagnitude true n := by
  have hn : n < 2 ^ 63 := lt_of_lt_infinityBits h
  rw [ofMagnitude_eq _ hn, ofMagnitude_eq _ hn]
  change Float.ofModel (.pack (unpack _ (pack _ _)).neg) = _
  rw [pack_ofFields _ _ (exponentField_ne h), unpack_packComponents, neg_ofFields]
  rfl

lemma toNat_toBits :
    x.toBits.toNat = if isNegative x then 2 ^ 63 + magnitude x else magnitude x := by
  have hx : x.toBits.toNat < 2 ^ 64 := x.toBits.toNat_lt
  have hp : Nat.pow 2 63 = 2 ^ 63 := rfl
  simp only [isNegative, magnitude, hp, decide_eq_true_eq]
  split <;> omega

lemma ofMagnitude_magnitude (h : isFinite x = true) :
    ofMagnitude (isNegative x) (magnitude x) = x := by
  have hb : (ofMagnitude (isNegative x) (magnitude x)).toBits = x.toBits := by
    apply UInt64.toNat_inj.mp
    rw [toNat_toBits_ofMagnitude _ (of_decide_eq_true h), toNat_toBits]
  generalize ofMagnitude (isNegative x) (magnitude x) = y at *
  obtain ⟨⟨a, ha⟩⟩ := x
  obtain ⟨⟨b, hb'⟩⟩ := y
  cases hb
  rfl

end Magnitude

end Spreadsheet.Number
