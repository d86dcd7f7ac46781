import Spreadsheet.Proofs.Formula.Spelled
import Spreadsheet.Proofs.Number.ReadBack
import Spreadsheet.Sheet.Basic

namespace Spreadsheet

namespace Number

open Lexeme (pointed)
open Layout

variable {x : Float} {whole places : List Char} {bits : ℕ} {policy : Policy} {lookup : Lookup}

lemma isFinite_ofMagnitude (negative : Bool) (h : bits < infinityBits) :
    isFinite (ofMagnitude negative bits) = true := by
  have hb : bits < 2 ^ 63 := lt_of_lt_infinityBits h
  have hm : magnitude (ofMagnitude negative bits) = bits := by
    rw [magnitude, toNat_toBits_ofMagnitude negative h, Nat.pow_eq]
    cases negative
    · exact Nat.mod_eq_of_lt hb
    · exact (Nat.add_mod_left _ _).trans (Nat.mod_eq_of_lt hb)
  rw [isFinite, hm]
  exact decide_eq_true h

lemma Spells.spelledAs (h : Spells whole places bits) :
    (Token.number (ofMagnitude false bits)).SpelledAs (whole ++ pointed places) := by
  rw [← h.reads]
  cases places with
  | nil =>
    rw [pointed, List.append_nil]
    exact .whole h.nonempty h.whole_digits
  | cons d places =>
    exact .decimal h.nonempty (List.cons_ne_nil d places) h.whole_digits h.places_digits

def signed (negative : Bool) (t : Token) : List Token :=
  if negative then [.operator .sub, t] else [t]

lemma Spells.isLayout (h : Spells whole places bits) (negative : Bool) :
    IsLayout (signed negative (.number (ofMagnitude false bits)))
      (minus negative ++ (whole ++ pointed places)) := by
  have hnumber : IsLayout [.number (ofMagnitude false bits)] (whole ++ pointed places) :=
    isLayout_singleton h.spelledAs
  cases negative with
  | false => exact hnumber
  | true => exact isLayout_mark_cons hnumber rfl

lemma arithmetic_signed (negative : Bool) :
    Reduction.arithmetic lookup (signed negative (.number x)) =
      .ok (signed negative (.number x)) := by
  have hnumber : Reduction.arithmetic lookup [.number x] = .ok [.number x] := by
    rw [Reduction.arithmetic_plain (by simp) (by simp) (by simp), Reduction.arithmetic_nil]
    rfl
  cases negative with
  | false => exact hnumber
  | true =>
    rw [signed, if_pos rfl, Reduction.arithmetic_plain (by simp) (by simp) (by simp), hnumber]
    rfl

lemma value_signed (negative : Bool) (h : bits < infinityBits) :
    Arithmetic.value (signed negative (.number (ofMagnitude false bits))) =
      .ok (ofMagnitude negative bits) := by
  have hresult : ∀ y, isFinite y = true → Arithmetic.result [y] = .ok y := by
    intro y hy
    rw [Arithmetic.result, if_pos hy]
  cases negative with
  | false => exact hresult _ (isFinite_ofMagnitude false h)
  | true =>
    have hn : Arithmetic.value [.operator .sub, .number (ofMagnitude false bits)] =
        Arithmetic.result [-ofMagnitude false bits] := rfl
    rw [signed, if_pos rfl, hn, neg_ofMagnitude h]
    exact hresult _ (isFinite_ofMagnitude true h)

section Finite

variable (h : isFinite x = true)
include h

lemma displayNumber_eq : Value.displayNumber x = String.ofList (text x) := by
  rw [Value.displayNumber, if_pos h]

lemma ofText?_displayNumber : ofText? (Value.displayNumber x) = some (unsignedZero x) := by
  rw [ofText?, displayNumber_eq h, String.toList_ofList, ofChars?_text h]

lemma displayNumber_ne_empty : Value.displayNumber x ≠ "" := by
  intro he
  have hn : ofText? "" = none := by decide
  rw [← he, ofText?_displayNumber h] at hn
  cases hn

lemma spelled_displayNumber : ∃ negative,
    Formula.Spelled (signed negative (.number (ofMagnitude false (magnitude x))))
      (Value.displayNumber x) ∧ ofMagnitude negative (magnitude x) = unsignedZero x := by
  obtain ⟨negative, whole, places, ht, hs, hx⟩ := text_eq h
  have hlist : (Value.displayNumber x).toList = minus negative ++ (whole ++ pointed places) := by
    rw [displayNumber_eq h, String.toList_ofList, ht]
  refine ⟨negative, ⟨hlist ▸ hs.isLayout negative, ?_, hlist ▸ hs.not_isBlank⟩, hx⟩
  cases negative <;> exact List.cons_ne_nil _ _

lemma evaluate_displayNumber :
    Raw.evaluate policy lookup ("=" ++ Value.displayNumber x) = .ok (.number (unsignedZero x)) := by
  obtain ⟨negative, hs, hx⟩ := spelled_displayNumber h
  have hc : ∀ id, signed negative (.number (ofMagnitude false (magnitude x))) ≠ [.cell id] := by
    cases negative <;> simp [signed]
  rw [hs.evaluate hc, arithmetic_signed]
  change (do return Value.number (← Arithmetic.value _)) = _
  rw [value_signed negative (of_decide_eq_true h), hx]
  rfl

end Finite

end Number

namespace Sheet

open Number

variable {s : Sheet} {id : Cell} {r : Record} {x : Float}

lemma reading_put : (s.put id r).reading id = r.reading := by
  rw [reading, get?_put, if_pos rfl]

lemma reading_apply_number (h : isFinite x = true) :
    (r.apply (.ok (.number x))).reading = .text (Value.displayNumber x) := by
  simp [Record.reading, Record.apply, Shown.ofResult, Value.display, displayNumber_ne_empty h]

theorem reads_stored_number (x : Float) (h : isFinite x = true) :
    ofText? (Value.displayNumber x) = some (unsignedZero x) ∧
      (∀ policy lookup, Raw.evaluate policy lookup ("=" ++ Value.displayNumber x) =
        .ok (.number (unsignedZero x))) ∧
      ∀ (s : Sheet) (id : Cell) (r : Record),
        let v := (s.put id (r.apply (.ok (.number x)))).reading id
        v.number? = some (unsignedZero x) ∧ Reduction.operand v = .ok (unsignedZero x) ∧
          Reduction.member v = .ok (unsignedZero x) := by
  have hread : ofText? (Value.displayNumber x) = some (unsignedZero x) := ofText?_displayNumber h
  refine ⟨hread, fun _ _ => evaluate_displayNumber h, fun s id r => ?_⟩
  rw [reading_put, reading_apply_number h]
  refine ⟨hread, ?_, ?_⟩
  · simp [Reduction.operand, hread]
  · simp [Reduction.member, Value.number?, hread]

theorem reads_stored_number_minus_tenth :
    let x := Float.ofBits 0xBFB999999999999A
    isFinite x = true ∧ Value.displayNumber x = "-0.1" ∧
      Raw.evaluate .strict (fun _ => .empty) "=-0.1" = .ok (.number x) := by
  intro x
  have h : isFinite x = true := by decide +kernel
  have hd : Value.displayNumber x = "-0.1" := by decide +kernel
  have hx : unsignedZero x = x := if_neg (by decide +kernel)
  have he := (reads_stored_number x h).2.1 .strict fun _ => .empty
  rw [hd, hx] at he
  exact ⟨h, hd, he⟩

end Sheet

end Spreadsheet
