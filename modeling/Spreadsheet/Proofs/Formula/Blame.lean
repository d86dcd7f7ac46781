import Spreadsheet.Proofs.Formula.Acceptance
import Spreadsheet.Proofs.Formula.Lexing
import Spreadsheet.Proofs.Formula.Reading

namespace Spreadsheet

def CellError.IsOwn : CellError → Prop
  | malformed | badValue | zeroDivision => True
  | deletedCell | cycle => False

open Outcome

variable {allowed : CellError → Prop} {lookup : Lookup}

lemma Arguments.cut_failsOnly (depth : ℕ) (piece : List Token) (args : List (List Token))
    (ts : List Token) : FailsOnly CellError.IsOwn (cut depth piece args ts) := by
  fun_induction cut depth piece args ts with
  | case1 | case5 | case8 => exact .error trivial
  | case4 | case6 => exact .ok _
  | case2 _ _ _ _ ih | case3 _ _ _ _ ih | case7 _ _ _ _ ih | case9 _ _ _ _ ih => exact ih
  | case10 _ _ _ _ _ _ _ _ ih => exact ih

lemma Arithmetic.run_failsOnly (code : List Instruction) :
    FailsOnly CellError.IsOwn (run code []) := by
  intro e he
  by_cases hm : e = .malformed
  · rw [hm]
    trivial
  · rw [(run_eq_error he hm).run] at he
    cases he
    trivial

lemma Arithmetic.value_failsOnly (ts : List Token) : FailsOnly CellError.IsOwn (value ts) := by
  have hcompile : FailsOnly CellError.IsOwn (compile ts) := by
    intro e he
    rw [compile_eq_error he]
    trivial
  refine hcompile.bind fun code _ => (run_failsOnly code).bind fun stack _ => ?_
  simp only [result]
  split
  · split
    · exact .ok _
    · exact .error trivial
  · exact .error trivial

lemma Aggregate.apply_failsOnly (f : Aggregate) (xs : List Float) :
    FailsOnly CellError.IsOwn (f.apply xs) := by
  simp only [apply]
  split
  · exact .ok _
  · exact .error trivial
  · exact .ok _

section Allowed

variable (hown : ∀ code, code.IsOwn → allowed code)
include hown

namespace Reduction

lemma operand_failsOnly {v : Value} (h : ∀ code, v = .error code → allowed code) :
    FailsOnly allowed (operand v) := by
  cases v with
  | empty => exact .ok _
  | number x => exact .ok _
  | text s =>
    rw [operand]
    split
    · exact .ok _
    · exact .error (hown _ trivial)
  | error code => exact .error (h code rfl)

omit hown in
lemma member_failsOnly {v : Value} (h : ∀ code, v = .error code → allowed code) :
    FailsOnly allowed (member v) := by
  simp only [member]
  split
  · exact .error (h _ rfl)
  · exact .ok _

lemma members_failsOnly {r : Rectangle}
    (h : ∀ c ∈ r.cells?.getD [], ∀ code, lookup c = .error code → allowed code) :
    FailsOnly allowed (members lookup r) := by
  rw [members]
  cases hc : r.cells? with
  | none => exact .error (hown _ trivial)
  | some ids => exact .mapM fun c hm => member_failsOnly (h c (by simpa [hc] using hm))

lemma argument_failsOnly {arg : List Token}
    (h : ∀ c ∈ namedCells (Arguments.strip arg), ∀ code, lookup c = .error code → allowed code)
    (hi : FailsOnly allowed (arithmetic lookup (Arguments.strip arg))) :
    FailsOnly allowed (argument lookup arg) := by
  rw [argument]
  split
  · rename_i r hs
    exact members_failsOnly hown (by simpa [hs, Token.cells] using h)
  · rename_i id hs
    exact (member_failsOnly (h id (by simp [hs, Token.cells]))).bind fun x _ => .ok _
  · exact hi.bind fun us _ => ((Arithmetic.value_failsOnly us).mono hown).bind fun x _ => .ok _

lemma arithmetic_failsOnly {ts : List Token}
    (h : ∀ c ∈ namedCells ts, ∀ code, lookup c = .error code → allowed code) :
    FailsOnly allowed (arithmetic lookup ts) := by
  induction ts using induction with
  | nil =>
    rw [arithmetic]
    exact .ok _
  | call f ts ih =>
    rw [arithmetic_call]
    refine ((Arguments.cut_failsOnly 0 [] [] ts).mono hown).bind fun a ha => ?_
    obtain ⟨hargs, hrest⟩ := ih a ha
    refine FailsOnly.bind (.mapM fun arg hm => ?_) fun values _ => ?_
    · have harg : ∀ c ∈ namedCells (Arguments.strip arg), ∀ code,
          lookup c = .error code → allowed code :=
        fun c hc => h c (Arguments.mem_namedCells_of_arg ha hm hc)
      exact argument_failsOnly hown harg (hargs arg hm harg)
    · refine ((f.apply_failsOnly _).mono hown).bind fun x _ => ?_
      refine (hrest fun c hc => h c ?_).bind fun us _ => .ok _
      exact (Arguments.mem_namedCells_split ha c).mpr (Or.inr hc)
  | cons t ts hc ih =>
    have hts : FailsOnly allowed (arithmetic lookup ts) := by
      refine ih fun c hm => h c ?_
      simp [hm]
    cases t with
    | cell id =>
      rw [arithmetic_cell]
      refine (operand_failsOnly hown (h id (by simp [Token.cells]))).bind fun x _ => ?_
      exact hts.bind fun us _ => .ok _
    | range r =>
      rw [arithmetic_range]
      exact .error (hown _ trivial)
    | call f =>
      rw [arithmetic_bare_call fun us => hc f us rfl]
      exact .error (hown _ trivial)
    | _ =>
      rw [arithmetic_plain (by simp) (by simp) (by simp)]
      exact hts.bind fun us _ => .ok _

end Reduction

end Allowed

lemma Formula.value_failsOnly {policy : Policy} {formula : List Char}
    (hown : ∀ code, code.IsOwn → allowed code)
    (h : ∀ c ∈ References.ofFormula formula, ∀ code, lookup c = .error code → allowed code) :
    FailsOnly allowed (value policy lookup formula) := by
  have htokens : FailsOnly CellError.IsOwn (tokens policy (Text.trim formula)) := by
    refine (tokens_failsOnly policy _).mono ?_
    rintro _ rfl
    trivial
  refine (htokens.mono hown).bind fun ts ht => ?_
  have h : ∀ c ∈ namedCells ts, ∀ code, lookup c = .error code → allowed code :=
    fun c hc => h c ((References.mem_ofFormula ht).mpr hc)
  have hreduce : FailsOnly allowed (reduce lookup ts) := by
    simp only [reduce]
    split
    · rename_i id
      split
      · exact .ok _
      · rename_i code hl
        exact .error (h id (by simp [Token.cells]) code hl)
      · exact .ok _
    · exact (Reduction.arithmetic_failsOnly hown h).bind fun us _ => .ok _
  refine hreduce.bind fun reduced _ => ?_
  cases reduced with
  | value v => exact .ok _
  | arithmetic us => exact ((Arithmetic.value_failsOnly us).mono hown).bind fun x _ => .ok _

namespace Raw

variable {policy : Policy} {raw : String}

lemma evaluate_eq_error {code : CellError} (h : evaluate policy lookup raw = .error code) :
    code.IsOwn ∨ ∃ c ∈ references raw, lookup c = .error code := by
  rw [evaluate] at h
  cases hf : formula? raw with
  | none => simp [hf] at h
  | some formula =>
    rw [references_of_formula? hf]
    simp only [hf] at h
    have hf : Outcome.FailsOnly (fun code => code.IsOwn ∨
        ∃ c ∈ References.ofFormula formula, lookup c = .error code)
        (Formula.value policy lookup formula) :=
      Formula.value_failsOnly (fun code => Or.inl) fun c hc code hl => Or.inr ⟨c, hc, hl⟩
    exact hf code h

lemma evaluate_ne_ok_error (code : CellError) : evaluate policy lookup raw ≠ .ok (.error code) := by
  intro h
  rw [evaluate] at h
  cases hf : formula? raw with
  | none => simp [hf] at h
  | some formula =>
    simp only [hf, Formula.value] at h
    obtain ⟨ts, -, h⟩ := Outcome.bind_eq_ok.mp h
    obtain ⟨reduced, hr, h⟩ := Outcome.bind_eq_ok.mp h
    cases reduced with
    | value v =>
      cases h
      simp only [Formula.reduce] at hr
      split at hr
      · split at hr <;> simp_all
      · obtain ⟨us, -, h⟩ := Outcome.bind_eq_ok.mp hr
        cases h
    | arithmetic us =>
      obtain ⟨x, -, h⟩ := Outcome.bind_eq_ok.mp h
      cases h

theorem evaluate_passes_on_errors (policy : Policy) (lookup : Lookup) (raw : String) :
    (∀ v, evaluate policy lookup raw = .ok v →
      ∀ c ∈ references raw, ∀ code, lookup c ≠ .error code) ∧
    ∀ code, code = .deletedCell ∨ code = .cycle → evaluate policy lookup raw = .error code →
      ∃ c ∈ references raw, lookup c = .error code := by
  constructor
  · intro v hv c hc code hl
    exact evaluate_ne_ok hc hl v hv
  · intro code hcode he
    have hown : ¬ code.IsOwn := by
      rcases hcode with rfl | rfl <;> exact id
    exact (evaluate_eq_error he).resolve_left hown

end Raw

end Spreadsheet
