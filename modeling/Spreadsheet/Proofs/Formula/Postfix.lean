import Mathlib.Algebra.BigOperators.Group.List.Basic
import Mathlib.Algebra.Ring.Int.Defs
import Mathlib.Data.List.Induction
import Spreadsheet.Formula.Arithmetic
import Spreadsheet.Proofs.Outcome

/-! A run that ends leaves one number for each postfix form that the code consists of. -/

namespace Spreadsheet

namespace Arithmetic

variable {code code' : List Instruction} {stack : List Float} {ts us : List Token} {t : Token}
  {op : Operator}

inductive IsPostfix : List Instruction → Prop
  | push (x : Float) : IsPostfix [.push x]
  | negate {e : List Instruction} (h : IsPostfix e) : IsPostfix (e ++ [.negate])
  | apply {e f : List Instruction} (op : Operator) (h : IsPostfix e) (h' : IsPostfix f) :
    IsPostfix (e ++ f ++ [.apply op])

inductive Parts : ℕ → List Instruction → Prop
  | nil : Parts 0 []
  | cons {n : ℕ} {code e : List Instruction} (h : Parts n code) (h' : IsPostfix e) :
    Parts (n + 1) (code ++ e)

def DividesByZero (code : List Instruction) : Prop :=
  ∃ before after stack x y, code = before ++ .apply .div :: after ∧
    run before [] = .ok (y :: x :: stack) ∧ (y == 0) = true

section Run

lemma run_cons (i : Instruction) (code : List Instruction) :
    run (i :: code) stack = run [i] stack >>= run code := by
  cases i with
  | push x => rfl
  | negate => cases stack <;> rfl
  | apply op =>
    cases stack with
    | nil => rfl
    | cons y stack =>
      cases stack with
      | nil => rfl
      | cons x stack =>
        simp only [run]
        cases op.apply x y <;> rfl

lemma run_append : run (code ++ code') stack = run code stack >>= run code' := by
  induction code generalizing stack with
  | nil => rfl
  | cons i code ih =>
    rw [List.cons_append, run_cons, run_cons i code]
    cases run [i] stack with
    | error e => rfl
    | ok stack => exact ih

lemma apply_eq_error {x y : Float} {e : CellError} (h : op.apply x y = .error e) :
    op = .div ∧ (y == 0) = true ∧ e = .zeroDivision := by
  cases op with
  | div =>
    simp only [Operator.apply] at h
    split at h
    · cases h
      exact ⟨rfl, ‹_›, rfl⟩
    · cases h
  | _ => cases h

lemma run_singleton_eq_error {i : Instruction} {e : CellError} (h : run [i] stack = .error e)
    (he : e ≠ .malformed) :
    ∃ x y rest, i = .apply .div ∧ stack = y :: x :: rest ∧ (y == 0) = true := by
  cases i with
  | push x => cases h
  | negate =>
    cases stack with
    | nil =>
      cases h
      exact absurd rfl he
    | cons => cases h
  | apply op =>
    cases stack with
    | nil =>
      cases h
      exact absurd rfl he
    | cons y stack =>
      cases stack with
      | nil =>
        cases h
        exact absurd rfl he
      | cons x stack =>
        simp only [run] at h
        cases ha : op.apply x y with
        | error e' =>
          obtain ⟨rfl, hy, -⟩ := apply_eq_error ha
          exact ⟨x, y, stack, rfl, rfl, hy⟩
        | ok z => simp [ha, bind, Except.bind] at h

lemma DividesByZero.run (h : DividesByZero code) : run code [] = .error .zeroDivision := by
  obtain ⟨before, after, stack, x, y, rfl, hrun, hy⟩ := h
  rw [run_append, hrun]
  simp [Arithmetic.run, Operator.apply, hy, bind, Except.bind]

lemma run_eq_error {e : CellError} (h : run code [] = .error e) (he : e ≠ .malformed) :
    DividesByZero code := by
  induction code using List.reverseRecOn with
  | nil => cases h
  | append_singleton code i ih =>
    rw [run_append] at h
    cases hc : run code [] with
    | error e' =>
      rw [hc] at h
      cases h
      obtain ⟨before, after, stack, x, y, rfl, hrun, hy⟩ := ih hc
      exact ⟨before, after ++ [i], stack, x, y, by simp, hrun, hy⟩
    | ok stack =>
      rw [hc] at h
      obtain ⟨x, y, rest, rfl, rfl, hy⟩ := run_singleton_eq_error h he
      exact ⟨code, [], rest, x, y, rfl, hc, hy⟩

lemma IsPostfix.run (h : IsPostfix code) (stack : List Float) :
    (∃ x, run code stack = .ok (x :: stack)) ∨ run code stack = .error .zeroDivision := by
  induction h generalizing stack with
  | push x => exact Or.inl ⟨x, rfl⟩
  | negate _ ih =>
    rw [run_append]
    rcases ih stack with ⟨x, hx⟩ | hx
    · exact Or.inl ⟨-x, by rw [hx]; rfl⟩
    · exact Or.inr (by rw [hx]; rfl)
  | @apply e f op _ _ ih ih' =>
    rw [run_append, run_append]
    rcases ih stack with ⟨x, hx⟩ | hx
    · rcases ih' (x :: stack) with ⟨y, hy⟩ | hy
      · have hrun : (Arithmetic.run e stack >>= Arithmetic.run f) = .ok (y :: x :: stack) := by
          rw [hx]
          exact hy
        rw [hrun]
        cases ha : op.apply x y with
        | error e =>
          obtain ⟨-, -, rfl⟩ := apply_eq_error ha
          exact Or.inr (by simp [Arithmetic.run, ha, bind, Except.bind])
        | ok z => exact Or.inl ⟨z, by simp [Arithmetic.run, ha, bind, Except.bind]⟩
      · have hrun : (Arithmetic.run e stack >>= Arithmetic.run f) = .error .zeroDivision := by
          rw [hx]
          exact hy
        rw [hrun]
        exact Or.inr rfl
    · rw [hx]
      exact Or.inr rfl

lemma Parts.isPostfix (h : Parts 1 code) : IsPostfix code := by
  cases h with
  | cons h h' =>
    cases h
    exact h'

lemma parts_of_run (h : run code [] = .ok stack) : Parts stack.length code := by
  induction code using List.reverseRecOn generalizing stack with
  | nil =>
    cases h
    exact .nil
  | append_singleton code i ih =>
    rw [run_append] at h
    obtain ⟨stack', hs, h⟩ := Outcome.bind_eq_ok.mp h
    have hparts : Parts stack'.length code := ih hs
    cases i with
    | push x =>
      cases h
      exact hparts.cons (.push x)
    | negate =>
      cases stack' with
      | nil => cases h
      | cons x stack' =>
        cases h
        cases hparts with
        | cons hparts he =>
          rw [List.append_assoc]
          exact hparts.cons he.negate
    | apply op =>
      cases stack' with
      | nil => cases h
      | cons y stack' =>
        cases stack' with
        | nil => cases h
        | cons x stack' =>
          simp only [run] at h
          obtain ⟨z, -, h⟩ := Outcome.bind_eq_ok.mp h
          cases h
          cases hparts with
          | cons hparts hf =>
            cases hparts with
            | cons hparts he =>
              rw [List.append_assoc, List.append_assoc, ← List.append_assoc _ _ [_]]
              exact hparts.cons (he.apply op hf)

end Run

section Weight

def Instruction.weight : Instruction → ℤ
  | .push _ => 1
  | .negate => 0
  | .apply _ => -1

def weight (code : List Instruction) : ℤ :=
  (code.map Instruction.weight).sum

@[simp] lemma weight_nil : weight [] = 0 := rfl

@[simp] lemma weight_cons {i : Instruction} : weight (i :: code) = i.weight + weight code := rfl

@[simp] lemma weight_append : weight (code ++ code') = weight code + weight code' := by
  simp [weight]

@[simp] lemma weight_reverse : weight code.reverse = weight code := by
  simp [weight, List.sum_reverse]

lemma IsPostfix.weight (h : IsPostfix code) : weight code = 1 := by
  induction h with
  | push x => rfl
  | negate _ ih => simp [ih, Instruction.weight]
  | apply op _ _ ih ih' => simp [ih, ih', Instruction.weight]

end Weight

end Arithmetic

end Spreadsheet
