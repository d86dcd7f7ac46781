import Spreadsheet.Proofs.Formula.Grammar
import Spreadsheet.Proofs.Formula.Postfix

/-! The code of a token list leaves one number if it is the postfix form of an expression. Without
adjacent operands this is so for sentences of the grammar only. -/

namespace Spreadsheet

namespace Arithmetic

variable {code : List Instruction} {ts us : List Token} {t : Token} {op : Operator}

section Weight

def Compilation.weight (c : Compilation) : ℤ :=
  Arithmetic.weight c.code + Arithmetic.weight (c.deferred.map Deferred.instruction) +
    Arithmetic.weight (c.enclosing.flatten.map Deferred.instruction)

lemma Compilation.weight_emit {c : Compilation} {due : List Deferred} :
    Arithmetic.weight (c.emit due) =
      Arithmetic.weight (due.map Deferred.instruction) + Arithmetic.weight c.code := by
  simp [emit]

lemma Compilation.weight_binary {c : Compilation} : (c.binary op).weight = c.weight - 1 := by
  have hd : Arithmetic.weight (c.deferred.map Deferred.instruction) =
      Arithmetic.weight ((c.deferred.takeWhile (·.precedes op)).map Deferred.instruction) +
        Arithmetic.weight ((c.deferred.dropWhile (·.precedes op)).map Deferred.instruction) := by
    rw [← weight_append, ← List.map_append, List.takeWhile_append_dropWhile]
  have hop : (Deferred.operator op).instruction.weight = -1 := rfl
  simp only [Compilation.weight, binary, weight_emit, List.map_cons, weight_cons, hd, hop]
  omega

end Weight

section Errors

lemma step_eq_error {c : Compilation} {e : CellError} (h : c.step t = .error e) :
    e = .malformed := by
  cases t with
  | number x => cases h
  | operator op =>
    simp only [Compilation.step] at h
    split at h
    · cases op <;> cases h <;> rfl
    · cases h
  | openParen => cases h
  | closeParen =>
    simp only [Compilation.step, Compilation.close] at h
    split at h <;> cases h
    rfl
  | _ =>
    cases h
    rfl

lemma foldlM_step_eq_error {c : Compilation} {e : CellError}
    (h : ts.foldlM Compilation.step c = .error e) : e = .malformed := by
  induction ts generalizing c with
  | nil => cases h
  | cons t ts ih =>
    rw [List.foldlM_cons] at h
    cases hs : c.step t with
    | error e' =>
      rw [hs] at h
      cases h
      exact step_eq_error hs
    | ok c' =>
      rw [hs] at h
      exact ih h

lemma compile_eq_error {e : CellError} (h : compile ts = .error e) : e = .malformed := by
  rw [compile] at h
  cases hc : ts.foldlM Compilation.step .start with
  | error e' =>
    rw [hc] at h
    cases h
    exact foldlM_step_eq_error hc
  | ok c =>
    rw [hc] at h
    simp only [bind, Except.bind, Compilation.finish] at h
    split at h <;> cases h
    rfl

end Errors

section Admissible

variable {c c' : Compilation}

def opening : Token → ℤ
  | .openParen => 1
  | .closeParen => -1
  | _ => 0

def depth (ts : List Token) : ℤ :=
  (ts.map opening).sum

def IsArithmetic : Token → Prop
  | .number _ | .operator _ | .openParen | .closeParen => True
  | .cell _ | .range _ | .call _ | .comma => False

def OperandNext (ts : List Token) : Prop :=
  ∀ t ∈ ts.getLast?, ¬ EndsOperand t

structure MayFollow (ts : List Token) (t : Token) : Prop where
  arithmetic : IsArithmetic t
  opened : t = .closeParen → 0 < depth ts
  sign : ∀ op, t = .operator op → OperandNext ts → op = .add ∨ op = .sub

def Admissible (ts : List Token) : Prop :=
  depth ts = 0 ∧ ∀ us t, us ++ [t] <+: ts → MayFollow us t

lemma depth_append_singleton : depth (ts ++ [t]) = depth ts + opening t := by
  simp [depth]

lemma step_operator : c.step (.operator op) = .ok c' ↔
    if c.operandNext then c.sign op = .ok c' else c.binary op = c' := by
  rw [Compilation.step]
  split <;> simp

lemma step_closeParen : c.step .closeParen = .ok c' ↔
    ∃ outer enclosing, c.enclosing = outer :: enclosing ∧
      ⟨c.emit c.deferred, outer, enclosing, false⟩ = c' := by
  rw [Compilation.step, Compilation.close]
  split
  · rename_i he
    simp [he]
  · rename_i outer enclosing he
    simp [he]

lemma length_enclosing_step (hc : c.step t = .ok c') :
    (c'.enclosing.length : ℤ) = c.enclosing.length + opening t := by
  cases t with
  | number x =>
    cases hc
    simp [opening]
  | operator op =>
    rw [step_operator] at hc
    split at hc
    · cases op <;> cases hc <;> simp [opening]
    · cases hc
      simp [opening, Compilation.binary]
  | openParen =>
    cases hc
    simp [opening]
  | closeParen =>
    obtain ⟨outer, enclosing, he, rfl⟩ := step_closeParen.mp hc
    simp [opening, he]
  | _ => cases hc

lemma operandNext_step (hc : c.step t = .ok c') : c'.operandNext = false ↔ EndsOperand t := by
  cases t with
  | number x =>
    cases hc
    exact iff_of_true rfl trivial
  | operator op =>
    rw [step_operator] at hc
    refine iff_of_false ?_ id
    split at hc
    · cases op <;> cases hc <;> simp_all
    · cases hc
      simp [Compilation.binary]
  | openParen =>
    cases hc
    exact iff_of_false Bool.noConfusion id
  | closeParen =>
    obtain ⟨_, _, _, rfl⟩ := step_closeParen.mp hc
    exact iff_of_true rfl trivial
  | _ => cases hc

lemma foldlM_step_append_singleton : (ts ++ [t]).foldlM Compilation.step c = .ok c' ↔
    ∃ d, ts.foldlM Compilation.step c = .ok d ∧ d.step t = .ok c' := by
  rw [List.foldlM_append, Outcome.bind_eq_ok]
  simp

lemma depth_of_foldlM (h : ts.foldlM Compilation.step .start = .ok c) :
    depth ts = c.enclosing.length ∧ (c.operandNext = true ↔ OperandNext ts) := by
  induction ts using List.reverseRecOn generalizing c with
  | nil =>
    cases h
    exact ⟨rfl, iff_of_true rfl (by simp [OperandNext])⟩
  | append_singleton ts t ih =>
    obtain ⟨d, hd, hstep⟩ := foldlM_step_append_singleton.mp h
    refine ⟨?_, ?_⟩
    · rw [depth_append_singleton, length_enclosing_step hstep, (ih hd).1]
    · rw [← Bool.not_eq_false, operandNext_step hstep]
      simp [OperandNext]

lemma exists_step_iff (h : ts.foldlM Compilation.step .start = .ok c) :
    (∃ c', c.step t = .ok c') ↔ MayFollow ts t := by
  obtain ⟨hdepth, hnext⟩ := depth_of_foldlM h
  constructor
  · rintro ⟨c', hc⟩
    refine ⟨?_, ?_, ?_⟩
    · cases t with
      | number | operator | openParen | closeParen => trivial
      | _ => cases hc
    · rintro rfl
      obtain ⟨outer, enclosing, he, -⟩ := step_closeParen.mp hc
      simp [hdepth, he]
    · rintro op rfl hn
      rw [step_operator, if_pos (hnext.mpr hn)] at hc
      cases op with
      | add => exact Or.inl rfl
      | sub => exact Or.inr rfl
      | mul | div => cases hc
  · rintro ⟨harithmetic, hopened, hsign⟩
    cases t with
    | number x => exact ⟨_, rfl⟩
    | operator op =>
      simp only [step_operator]
      split
      · rename_i hn
        rcases hsign op rfl (hnext.mp hn) with rfl | rfl <;> exact ⟨_, rfl⟩
      · exact ⟨_, rfl⟩
    | openParen => exact ⟨_, rfl⟩
    | closeParen =>
      have he : c.enclosing ≠ [] := by
        intro he
        simp [hdepth, he] at hopened
      obtain ⟨outer, enclosing, he⟩ := List.exists_cons_of_ne_nil he
      exact ⟨_, step_closeParen.mpr ⟨outer, enclosing, he, rfl⟩⟩
    | _ => exact harithmetic.elim

lemma exists_foldlM_iff : (∃ c, ts.foldlM Compilation.step .start = .ok c) ↔
    ∀ us t, us ++ [t] <+: ts → MayFollow us t := by
  induction ts using List.reverseRecOn with
  | nil =>
    refine iff_of_true ⟨_, rfl⟩ fun us t h => ?_
    simp at h
  | append_singleton ts t ih =>
    constructor
    · rintro ⟨c', hc⟩ us u hu
      obtain ⟨c, hts, hstep⟩ := foldlM_step_append_singleton.mp hc
      rcases List.prefix_concat_iff.mp hu with hu | hu
      · obtain ⟨rfl, rfl⟩ := List.append_singleton_inj.mp hu
        exact (exists_step_iff hts).mp ⟨c', hstep⟩
      · exact ih.mp ⟨c, hts⟩ us u hu
    · intro h
      obtain ⟨c, hts⟩ := ih.mpr fun us u hu => h us u (hu.trans (List.prefix_append _ _))
      obtain ⟨c', hstep⟩ := (exists_step_iff hts).mpr (h ts t List.prefix_rfl)
      exact ⟨c', foldlM_step_append_singleton.mpr ⟨c, hts, hstep⟩⟩

lemma exists_compile_iff : (∃ code, compile ts = .ok code) ↔ Admissible ts := by
  rw [Admissible, ← exists_foldlM_iff]
  constructor
  · rintro ⟨code, h⟩
    obtain ⟨c, hc, hfinish⟩ := Outcome.bind_eq_ok.mp h
    refine ⟨?_, c, hc⟩
    rw [(depth_of_foldlM hc).1]
    rw [Compilation.finish] at hfinish
    split at hfinish
    · rename_i he
      simp [he]
    · cases hfinish
  · rintro ⟨hdepth, c, hc⟩
    have he : c.enclosing = [] := by
      rw [(depth_of_foldlM hc).1] at hdepth
      exact List.length_eq_zero_iff.mp (Int.natCast_eq_zero.mp hdepth)
    exact ⟨_, Outcome.bind_eq_ok.mpr ⟨c, hc, by rw [Compilation.finish, he]⟩⟩

end Admissible

section Compile

/-- How many operands a compilation lacks that operators and parentheses called for. -/
def Compilation.lack (c : Compilation) : ℤ :=
  (if c.operandNext then 0 else 1) - c.weight

lemma lack_step {c c' : Compilation} (hc : c.step t = .ok c')
    (ht : StartsOperand t → c.operandNext = true) :
    (c'.lack = c.lack ∧ ∀ ts, Prefix c.enclosing.length c.operandNext ts →
      Prefix c'.enclosing.length c'.operandNext (ts ++ [t])) ∨ c.lack < c'.lack := by
  obtain ⟨code, deferred, enclosing, operandNext⟩ := c
  cases t with
  | number x =>
    obtain rfl : operandNext = true := ht trivial
    cases hc
    refine Or.inl ⟨?_, fun ts h => h.factor ⟨_, .number x⟩⟩
    simp only [Compilation.lack, Compilation.weight, weight_cons, Instruction.weight, if_true,
      Bool.false_eq_true, if_false]
    omega
  | operator op =>
    cases operandNext with
    | true =>
      cases op with
      | add =>
        cases hc
        exact Or.inl ⟨rfl, fun ts h => h.sign (Or.inl rfl)⟩
      | sub =>
        cases hc
        refine Or.inl ⟨?_, fun ts h => h.sign (Or.inr rfl)⟩
        simp [Compilation.lack, Compilation.weight, Deferred.instruction, Instruction.weight]
      | mul | div => cases hc
    | false =>
      cases hc
      refine Or.inl ⟨?_, fun ts h => h.operator op⟩
      rw [Compilation.lack, Compilation.weight_binary]
      simp [Compilation.lack, Compilation.binary]
  | openParen =>
    obtain rfl : operandNext = true := ht trivial
    cases hc
    refine Or.inl ⟨?_, fun ts h => h.openParen⟩
    simp [Compilation.lack, Compilation.weight, add_assoc]
  | closeParen =>
    cases enclosing with
    | nil => cases hc
    | cons outer enclosing =>
      cases hc
      have hw : Compilation.weight ⟨(Compilation.mk code deferred (outer :: enclosing)
          operandNext).emit deferred, outer, enclosing, false⟩ =
          Compilation.weight ⟨code, deferred, outer :: enclosing, operandNext⟩ := by
        simp [Compilation.weight, Compilation.weight_emit]
        omega
      cases operandNext with
      | true =>
        right
        simp only [Compilation.lack, hw, if_true, Bool.false_eq_true, if_false]
        omega
      | false =>
        refine Or.inl ⟨?_, fun ts h => h.closeParen⟩
        simp only [Compilation.lack, hw]
  | _ => cases hc

lemma prefix_of_lack {c : Compilation} (hs : Separated ts)
    (hc : ts.foldlM Compilation.step .start = .ok c) :
    0 ≤ c.lack ∧ (c.lack = 0 → Prefix c.enclosing.length c.operandNext ts) := by
  induction ts using List.reverseRecOn generalizing c with
  | nil =>
    cases hc
    exact ⟨Int.le_refl 0, fun _ => prefix_nil⟩
  | append_singleton ts t ih =>
    obtain ⟨c₀, h₀, hc⟩ := foldlM_step_append_singleton.mp hc
    obtain ⟨hts, -, hr⟩ := List.isChain_append.mp hs
    obtain ⟨hlack, hbegins⟩ := ih hts h₀
    have ht : StartsOperand t → c₀.operandNext = true := fun ht =>
      (depth_of_foldlM h₀).2.mpr fun u hu he => hr u hu t (by simp) he ht
    rcases lack_step hc ht with ⟨he, hp⟩ | hlt
    · rw [he]
      exact ⟨hlack, fun hz => hp ts (hbegins hz)⟩
    · exact ⟨by omega, fun hz => by omega⟩

lemma sentence_of_compile (hs : Separated ts) (hc : compile ts = .ok code) (hp : IsPostfix code) :
    Sentence ts := by
  rw [compile] at hc
  obtain ⟨c, hfold, hfinish⟩ := Outcome.bind_eq_ok.mp hc
  obtain ⟨hlack, hbegins⟩ := prefix_of_lack hs hfold
  obtain ⟨code', deferred, enclosing, operandNext⟩ := c
  cases enclosing with
  | cons => cases hfinish
  | nil =>
    cases hfinish
    have hw : Compilation.weight ⟨code', deferred, [], operandNext⟩ = 1 := by
      rw [← hp.weight]
      simp [Compilation.weight, Compilation.weight_emit, add_comm]
    cases operandNext with
    | true => simp [Compilation.lack, hw] at hlack
    | false => exact (hbegins (by simp [Compilation.lack, hw])).sentence

end Compile

section Value

lemma value_ne_malformed_iff : value ts ≠ .error .malformed ↔
    ∃ code, compile ts = .ok code ∧ (IsPostfix code ∨ DividesByZero code) := by
  rw [value]
  cases hc : compile ts with
  | error e =>
    obtain rfl := compile_eq_error hc
    simp [bind, Except.bind]
  | ok code =>
    simp only [bind, Except.bind, Except.ok.injEq, exists_eq_left']
    constructor
    · intro h
      cases hr : run code [] with
      | error e =>
        rw [hr] at h
        exact Or.inr (run_eq_error hr fun he => h (by rw [he]))
      | ok stack =>
        rw [hr] at h
        have hp : Parts stack.length code := parts_of_run hr
        cases stack with
        | nil => exact absurd rfl h
        | cons x stack =>
          cases stack with
          | nil => exact Or.inl hp.isPostfix
          | cons y stack => exact absurd rfl h
    · rintro (hp | hz)
      · rcases hp.run [] with ⟨x, hx⟩ | hx
        · rw [hx]
          simp only [result]
          split <;> simp
        · rw [hx]
          simp
      · rw [hz.run]
        simp

/-- Tokens that are no sentence have a value or end with another error than that of malformed ones
exactly if their code is a postfix form or divides by zero. They have no code unless they are
admissible, and without adjacent operands they have no value. -/
theorem value_of_not_sentence (ts : List Token) (h : ¬ Sentence ts) :
    (value ts ≠ .error .malformed ↔
      ∃ code, compile ts = .ok code ∧ (IsPostfix code ∨ DividesByZero code)) ∧
    (¬ Admissible ts → value ts = .error .malformed) ∧
    (Separated ts → value ts = .error .malformed ∨ value ts = .error .zeroDivision) := by
  refine ⟨value_ne_malformed_iff, fun ha => ?_, fun hs => ?_⟩
  · by_contra hv
    obtain ⟨code, hc, -⟩ := value_ne_malformed_iff.mp hv
    exact ha (exists_compile_iff.mp ⟨code, hc⟩)
  · by_contra hv
    obtain ⟨hm, hz⟩ := not_or.mp hv
    obtain ⟨code, hc, hp | hd⟩ := value_ne_malformed_iff.mp hm
    · exact h (sentence_of_compile hs hc hp)
    · refine hz ?_
      rw [value, hc]
      simp [bind, Except.bind, hd.run]

theorem value_of_adjacent_operands :
    ¬ Sentence [.number 1, .number 2, .operator .add] ∧
      value [.number 1, .number 2, .operator .add] ≠ .error .malformed := by
  have hs : ¬ Sentence [.number 1, .number 2, .operator .add] := by
    intro h
    exact (List.isChain_cons_cons.mp h.separated).1 trivial trivial
  refine ⟨hs, (value_of_not_sentence _ hs).1.mpr ⟨_, rfl, Or.inl ?_⟩⟩
  exact .apply .add (.push 1) (.push 2)

end Value

end Arithmetic

end Spreadsheet
