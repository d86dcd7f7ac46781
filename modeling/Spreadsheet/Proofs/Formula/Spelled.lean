import Spreadsheet.Proofs.Formula.Layout
import Spreadsheet.Proofs.Formula.Leniency
import Spreadsheet.Proofs.Formula.Reading

namespace Spreadsheet.Formula

open Layout

variable {policy : Policy} {lookup : Lookup} {ts : List Token} {cs : List Char} {formula : String}

lemma tokens_of_isLayout (policy : Policy) (h : IsLayout ts cs) (hne : ts ≠ []) :
    tokens policy cs = .ok ts := by
  have hs : tokens .strict cs = .ok ts := tokens_eq_ok.mpr ⟨hne, tokens_eq_ok_iff.mpr h⟩
  cases policy with
  | strict => exact hs
  | lenient => exact tokens_lenient_of_strict hs

lemma reduce_of_ne (h : ∀ id, ts ≠ [.cell id]) : reduce lookup ts = (do
    return .arithmetic (← Reduction.arithmetic lookup ts)) := by
  rw [reduce]
  exact h

structure Spelled (ts : List Token) (formula : String) : Prop where
  layout : IsLayout ts formula.toList
  nonempty : ts ≠ []
  not_blank : ∀ c ∈ formula.toList, Text.isBlank c = false

namespace Spelled

variable (h : Spelled ts formula)
include h

lemma tokens_trim : tokens policy (Text.trim formula.toList) = .ok ts := by
  rw [Text.trim_eq_self h.not_blank]
  exact tokens_of_isLayout policy h.layout h.nonempty

lemma evaluate (hc : ∀ id, ts ≠ [.cell id]) :
    Raw.evaluate policy lookup ("=" ++ formula) = (do
      return .number (← Arithmetic.value (← Reduction.arithmetic lookup ts))) := by
  rw [Raw.evaluate, Raw.formula?_append]
  simp only [value, h.tokens_trim]
  change (reduce lookup ts >>= finish) = _
  rw [reduce_of_ne hc]
  cases Reduction.arithmetic lookup ts <;> rfl

lemma mem_references {c : Cell} :
    c ∈ Raw.references ("=" ++ formula) ↔ c ∈ ts.flatMap Token.cells := by
  have ht : tokens .strict (Text.trim formula.toList) = .ok ts := h.tokens_trim
  rw [Raw.references_of_formula? (Raw.formula?_append formula), References.mem_ofFormula ht]

end Spelled

end Spreadsheet.Formula
