import Spreadsheet.Proofs.Formula.Grammar
import Spreadsheet.Proofs.Formula.Postfix

/-! Compiling any rendering of an expression gives its postfix form, and running that interprets the
expression. -/

namespace Spreadsheet

namespace Arithmetic

namespace Expr

def eval : Expr → Outcome Float
  | number x => .ok x
  | plus e => e.eval
  | minus e => do return -(← e.eval)
  | binary op e f => do op.apply (← e.eval) (← f.eval)

def HasZeroDivisor : Expr → Prop
  | number _ => False
  | plus e | minus e => e.HasZeroDivisor
  | binary op e f => e.HasZeroDivisor ∨ f.HasZeroDivisor ∨
    (op = .div ∧ ∃ y, f.eval = .ok y ∧ (y == 0) = true)

def code : Expr → List Instruction
  | number x => [.push x]
  | plus e => e.code
  | minus e => e.code ++ [.negate]
  | binary op e f => e.code ++ f.code ++ [.apply op]

lemma eval_cases (e : Expr) :
    (e.HasZeroDivisor ∧ e.eval = .error .zeroDivision) ∨
      (¬ e.HasZeroDivisor ∧ ∃ x, e.eval = .ok x) := by
  induction e with
  | number x => exact Or.inr ⟨id, x, rfl⟩
  | plus e ih => exact ih
  | minus e ih =>
    rcases ih with ⟨hz, he⟩ | ⟨hz, x, he⟩
    · exact Or.inl ⟨hz, by rw [eval, he]; rfl⟩
    · exact Or.inr ⟨hz, -x, by rw [eval, he]; rfl⟩
  | binary op e f ih ih' =>
    rcases ih with ⟨hz, he⟩ | ⟨hz, x, he⟩
    · exact Or.inl ⟨Or.inl hz, by rw [eval, he]; rfl⟩
    rcases ih' with ⟨hz', hf⟩ | ⟨hz', y, hf⟩
    · exact Or.inl ⟨Or.inr (Or.inl hz'), by rw [eval, he, hf]; rfl⟩
    have heval : (binary op e f).eval = op.apply x y := by
      rw [eval, he, hf]
      rfl
    rw [heval]
    cases ha : op.apply x y with
    | error code =>
      obtain ⟨hop, hy, rfl⟩ := apply_eq_error ha
      exact Or.inl ⟨Or.inr (Or.inr ⟨hop, y, hf, hy⟩), rfl⟩
    | ok z =>
      refine Or.inr ⟨?_, z, rfl⟩
      rintro (h | h | ⟨rfl, y', hy', h⟩)
      · exact hz h
      · exact hz' h
      · rw [hf] at hy'
        cases hy'
        simp [Operator.apply, h] at ha

lemma run_code (e : Expr) (stack : List Float) :
    run e.code stack = e.eval >>= fun x => .ok (x :: stack) := by
  induction e generalizing stack with
  | number x => rfl
  | plus e ih => exact ih stack
  | minus e ih =>
    rw [code, run_append, ih, eval]
    cases e.eval <;> rfl
  | binary op e f ih ih' =>
    rw [code, run_append, run_append, ih, eval]
    cases e.eval with
    | error code => rfl
    | ok x =>
      change run f.code (x :: stack) >>= run [.apply op] = _
      rw [ih']
      cases f.eval <;> rfl

end Expr

section Compile

variable {m n : ℕ} {e f : Expr} {ts us : List Token} {op : Operator} {code : List Instruction}
  {due deferred : List Deferred} {enclosing : List (List Deferred)}

lemma foldlM_step_cons {t : Token} {c d : Compilation} (h : c.step t = .ok d) :
    (t :: ts).foldlM Compilation.step c = ts.foldlM Compilation.step d := by
  rw [List.foldlM_cons, h]
  rfl

lemma foldlM_step_append {c d : Compilation} (h : ts.foldlM Compilation.step c = .ok d) :
    (ts ++ us).foldlM Compilation.step c = us.foldlM Compilation.step d := by
  rw [List.foldlM_append, h]
  rfl

/-- Reading the tokens emits the code of an expression but for operations that are still deferred.
These precede all operators up to the precedence `n`. What was deferred before is not touched,
unless it precedes an operator of at least this precedence. -/
def Reads (n : ℕ) (e : Expr) (ts : List Token) : Prop :=
  ∀ code deferred enclosing,
    (∀ op : Operator, n ≤ op.precedence → deferred.takeWhile (·.precedes op) = []) →
    ∃ code' due, ts.foldlM Compilation.step ⟨code, deferred, enclosing, true⟩ =
        .ok ⟨code', due ++ deferred, enclosing, false⟩ ∧
      (due.map Deferred.instruction).reverse ++ code' = e.code.reverse ++ code ∧
      ∀ op : Operator, op.precedence ≤ n → ∀ d ∈ due, d.precedes op = true

lemma Reads.mono (h : Reads m e ts) (hn : n ≤ m) : Reads n e ts := by
  intro code deferred enclosing hd
  obtain ⟨code', due, hr, hc, hp⟩ := h code deferred enclosing fun op hop => hd op (hn.trans hop)
  exact ⟨code', due, hr, hc, fun op hop => hp op (hop.trans hn)⟩

lemma reads_number (x : Float) : Reads n (.number x) [.number x] := by
  intro code deferred enclosing _
  exact ⟨.push x :: code, [], rfl, rfl, by simp⟩

lemma Reads.plus (h : Reads n e ts) : Reads n (.plus e) (.operator .add :: ts) :=
  h

lemma Reads.minus (h : Reads n e ts) (hn : ∀ op : Operator, op.precedence < n) :
    Reads n (.minus e) (.operator .sub :: ts) := by
  intro code deferred enclosing _
  obtain ⟨code', due, hr, hc, hp⟩ := h code (.sign :: deferred) enclosing fun op hop =>
    absurd (hn op) (Nat.not_lt.mpr hop)
  refine ⟨code', due ++ [.sign], ?_, ?_, fun op hop d hd => ?_⟩
  · rw [List.append_assoc]
    exact hr
  · simpa [Expr.code, Deferred.instruction] using hc
  · rcases List.mem_append.mp hd with hd | hd
    · exact hp op hop d hd
    · rw [List.mem_singleton.mp hd]
      rfl

lemma Reads.parens (h : Reads m e ts) : Reads n e (.openParen :: (ts ++ [.closeParen])) := by
  intro code deferred enclosing _
  obtain ⟨code', due, hr, hc, -⟩ := h code [] (deferred :: enclosing) fun _ _ => rfl
  refine ⟨_, [], ?_, hc, by simp⟩
  rw [foldlM_step_cons rfl, foldlM_step_append hr, List.append_nil]
  rfl

lemma step_binary (hdue : ∀ d ∈ due, d.precedes op = true)
    (hd : deferred.takeWhile (·.precedes op) = []) :
    Compilation.step ⟨code, due ++ deferred, enclosing, false⟩ (.operator op) =
      .ok ⟨(due.map Deferred.instruction).reverse ++ code, .operator op :: deferred, enclosing,
        true⟩ := by
  have ht : (due ++ deferred).takeWhile (·.precedes op) = due := by
    rw [List.takeWhile_append_of_pos hdue, hd, List.append_nil]
  have hw : (due ++ deferred).dropWhile (·.precedes op) = deferred := by
    have h := List.takeWhile_append_dropWhile (p := (·.precedes op)) (l := due ++ deferred)
    rw [ht] at h
    exact List.append_cancel_left h
  simp only [Compilation.step, Compilation.binary, Compilation.emit, ht, hw, Bool.false_eq_true,
    if_false]

lemma Reads.binary (h : Reads n e ts) (h' : Reads m f us) (hop : op.precedence = n) (hm : n < m) :
    Reads n (.binary op e f) (ts ++ .operator op :: us) := by
  intro code deferred enclosing hd
  obtain ⟨code₁, due₁, hr₁, hc₁, hp₁⟩ := h code deferred enclosing hd
  obtain ⟨code₂, due₂, hr₂, hc₂, hp₂⟩ :=
    h' ((due₁.map Deferred.instruction).reverse ++ code₁) (.operator op :: deferred) enclosing
      fun op' hop' => by
        rw [List.takeWhile_cons_of_neg]
        simp only [Deferred.precedes, decide_eq_true_eq]
        omega
  refine ⟨code₂, due₂ ++ [.operator op], ?_, ?_, fun op' hop' d hd => ?_⟩
  · rw [foldlM_step_append hr₁, foldlM_step_cons (step_binary (hp₁ op hop.le) (hd op hop.ge)),
      List.append_assoc]
    exact hr₂
  · simp only [List.map_append, List.map_cons, List.map_nil, List.reverse_append,
      List.reverse_singleton, List.append_assoc, hc₂, hc₁, Expr.code, Deferred.instruction]
  · rcases List.mem_append.mp hd with hd | hd
    · exact hp₂ op' (hop'.trans hm.le) d hd
    · rw [List.mem_singleton.mp hd]
      simpa [Deferred.precedes, hop] using hop'

def Category.precedence : Category → ℕ
  | sum => 1
  | product => 2
  | factor => 3

lemma Renders.reads {category : Category} (h : Renders category e ts) :
    Reads category.precedence e ts := by
  induction h with
  | number x => exact reads_number x
  | plus _ ih => exact ih.plus
  | minus _ ih =>
    refine ih.minus fun op => ?_
    cases op <;> decide
  | parens _ ih => exact ih.parens
  | factor _ ih => exact ih.mono (by decide)
  | single _ ih => exact ih.mono (by decide)
  | product hop _ _ ih ih' =>
    refine ih.binary ih' ?_ (by decide)
    rcases hop with rfl | rfl <;> rfl
  | sum hop _ _ ih ih' =>
    refine ih.binary ih' ?_ (by decide)
    rcases hop with rfl | rfl <;> rfl

lemma compile_of_renders (h : Renders .sum e ts) : compile ts = .ok e.code := by
  obtain ⟨code, due, hr, hc, -⟩ := h.reads [] [] [] fun _ _ => rfl
  rw [compile, Compilation.start, hr]
  change Compilation.finish ⟨code, due ++ [], [], false⟩ = _
  simp only [Compilation.finish, Compilation.emit, List.append_nil, hc, List.reverse_reverse]

end Compile

section Value

variable {e : Expr} {ts : List Token}

theorem value_of_renders (e : Expr) (ts : List Token) (h : Renders .sum e ts) :
    (e.HasZeroDivisor → value ts = .error .zeroDivision) ∧
      (¬ e.HasZeroDivisor → ∃ x, e.eval = .ok x ∧
        value ts = if Number.isFinite x then .ok x else .error .badValue) := by
  have hv : value ts = e.eval >>= fun x => result [x] := by
    rw [value, compile_of_renders h]
    change run e.code [] >>= result = _
    rw [e.run_code]
    cases e.eval <;> rfl
  rw [hv]
  rcases e.eval_cases with ⟨hz, he⟩ | ⟨hz, x, he⟩
  · exact ⟨fun _ => by rw [he]; rfl, fun h => absurd hz h⟩
  · exact ⟨fun h => absurd h hz, fun _ => ⟨x, he, by rw [he]; rfl⟩⟩

theorem value_of_signed_product :
    value [.operator .sub, .openParen, .number 1, .operator .sub, .number 3, .closeParen,
      .operator .mul, .operator .sub, .number 4, .operator .div, .number 2, .operator .sub,
      .number 1] = .ok (-5) := by
  let product : Expr := .binary .mul (.minus (.binary .sub (.number 1) (.number 3)))
    (.minus (.number 4))
  have hdifference : Renders .factor (.binary .sub (.number 1) (.number 3)) _ :=
    .parens (.sum (Or.inr rfl) (.single (.factor (.number 1))) (.factor (.number 3)))
  have hproduct : Renders .product product _ :=
    .product (Or.inl rfl) (.factor hdifference.minus) (Renders.number 4).minus
  have hquotient : Renders .product (.binary .div product (.number 2)) _ :=
    .product (Or.inr rfl) hproduct (.number 2)
  have hsum : Renders .sum (.binary .sub (.binary .div product (.number 2)) (.number 1)) _ :=
    .sum (Or.inr rfl) (.single hquotient) (.factor (.number 1))
  have he : (Expr.binary .sub (.binary .div product (.number 2)) (.number 1)).eval = .ok (-5) := by
    decide +kernel
  have hz : ¬ (Expr.binary .sub (.binary .div product (.number 2)) (.number 1)).HasZeroDivisor := by
    rcases Expr.eval_cases _ with ⟨-, h⟩ | ⟨h, -⟩
    · cases he.symm.trans h
    · exact h
  obtain ⟨x, hx, hv⟩ := (value_of_renders _ _ hsum).2 hz
  cases he.symm.trans hx
  exact hv.trans (if_pos (by decide +kernel))

end Value

end Arithmetic

end Spreadsheet
