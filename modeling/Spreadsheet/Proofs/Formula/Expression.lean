import Spreadsheet.Proofs.Formula.Nesting
import Spreadsheet.Proofs.Formula.Reading

namespace Spreadsheet

open Cell (a1 b2 c1 d1)

def Value.inAggregate : Value → Outcome Float
  | error code => .error code
  | number x => .ok x
  | text s => .ok ((Number.ofText? s).getD 0)
  | empty => .ok 0

def Value.inArithmetic : Value → Outcome Float
  | text s => (Number.ofText? s).elim (.error .badValue) .ok
  | v => v.inAggregate

def Rectangle.inAggregate (lookup : Lookup) (r : Rectangle) : Outcome (List Float) :=
  match r.cells? with
  | some ids => ids.mapM fun id => (lookup id).inAggregate
  | none => .error .badValue

namespace Formula

inductive Expr
  | number (x : Float)
  | cell (id : Cell)
  | range (r : Rectangle)
  | plus (e : Expr)
  | minus (e : Expr)
  | binary (op : Operator) (e f : Expr)
  | parens (e : Expr)
  | call (f : Aggregate) (args : List Expr)

namespace Expr

mutual

def tokens : Expr → List Token
  | number x => [.number x]
  | cell id => [.cell id]
  | range r => [.range r]
  | plus e => .operator .add :: e.tokens
  | minus e => .operator .sub :: e.tokens
  | binary op e f => e.tokens ++ .operator op :: f.tokens
  | parens e => .openParen :: (e.tokens ++ [.closeParen])
  | call f args =>
    .call f :: .openParen :: (List.intercalate [.comma] (pieces args) ++ [.closeParen])

def pieces : List Expr → List (List Token)
  | [] => []
  | e :: es => e.tokens :: pieces es

end

structure Reading where
  operand : Outcome Expr
  argument : Outcome (List Float)

def Reading.evaluated (operand : Outcome Expr) : Reading :=
  ⟨operand, do return [← Arithmetic.value (← operand).tokens]⟩

mutual

def reading (lookup : Lookup) : Expr → Reading
  | number x => .evaluated (.ok (number x))
  | cell id =>
    ⟨do return number (← (lookup id).inArithmetic), do return [← (lookup id).inAggregate]⟩
  | range r => ⟨.error .malformed, r.inAggregate lookup⟩
  | plus e => .evaluated do return plus (← (e.reading lookup).operand)
  | minus e => .evaluated do return minus (← (e.reading lookup).operand)
  | binary op e f =>
    .evaluated do return binary op (← (e.reading lookup).operand) (← (f.reading lookup).operand)
  | parens e => ⟨do return parens (← (e.reading lookup).operand), (e.reading lookup).argument⟩
  | call f args => .evaluated do return number (← f.apply (← contributions lookup args))

def contributions (lookup : Lookup) : List Expr → Outcome (List Float)
  | [] => .ok []
  | e :: es => do return (← (e.reading lookup).argument) ++ (← contributions lookup es)

end

lemma induction {motive : Expr → Prop} (number : ∀ x, motive (number x))
    (cell : ∀ id, motive (cell id)) (range : ∀ r, motive (range r))
    (plus : ∀ e, motive e → motive (plus e)) (minus : ∀ e, motive e → motive (minus e))
    (binary : ∀ op e f, motive e → motive f → motive (binary op e f))
    (parens : ∀ e, motive e → motive (parens e))
    (call : ∀ f args, (∀ e ∈ args, motive e) → motive (call f args)) (e : Expr) : motive e :=
  @Expr.rec motive (fun es => ∀ e ∈ es, motive e) number cell range plus minus binary parens call
    (fun _ h => absurd h List.not_mem_nil) (fun _ _ he hes => List.forall_mem_cons.mpr ⟨he, hes⟩) e

section Tokens

variable {e f : Expr} {es : List Expr}

lemma pieces_eq_map : pieces es = es.map tokens := by
  induction es with
  | nil => rfl
  | cons e es ih => rw [pieces, ih, List.map_cons]

lemma tokens_ne_nil : e.tokens ≠ [] := by
  cases e <;> simp [tokens]

lemma tokens_binary_ne {op : Operator} (t : Token) : (binary op e f).tokens ≠ [t] := by
  intro h
  have he : 0 < e.tokens.length := List.length_pos_iff.mpr tokens_ne_nil
  have hl := congrArg List.length h
  simp only [tokens, List.length_append, List.length_cons, List.length_nil] at hl
  omega

lemma nested_tokens (e : Expr) : Nested false e.tokens := by
  induction e using induction with
  | number x => exact .single trivial
  | cell id => exact .single trivial
  | range r => exact .single trivial
  | plus e ih => exact .plain trivial ih
  | minus e ih => exact .plain trivial ih
  | binary op e f ih ih' => exact ih.append (.plain trivial ih')
  | parens e ih => exact .parens ih.mono .nil
  | call f args ih =>
    refine .plain trivial (.parens (.intercalate ?_) .nil)
    simpa [pieces_eq_map] using ih

lemma split_pieces (args : List Expr) (rest : List Token) :
    Arguments.split (List.intercalate [.comma] (pieces args) ++ .closeParen :: rest) =
      .ok ⟨pieces args, rest⟩ := by
  apply Arguments.split_intercalate
  rw [pieces_eq_map]
  intro p hp
  obtain ⟨e, -, rfl⟩ := List.mem_map.mp hp
  exact ⟨nested_tokens e, tokens_ne_nil⟩

end Tokens

end Expr

end Formula

namespace Reduction

open Formula (Expr)

variable {lookup : Lookup} {ts us : List Token} {o o' : Outcome Expr} {e f : Expr}
  {es args : List Expr}

lemma operand_eq : operand = Value.inArithmetic := by
  funext v
  cases v with
  | text s =>
    rw [operand, Value.inArithmetic]
    cases Number.ofText? s <;> rfl
  | _ => rfl

lemma member_eq : member = Value.inAggregate := by
  funext v
  cases v <;> rfl

lemma members_eq : members lookup = Rectangle.inAggregate lookup := by
  funext r
  cases hc : r.cells? <;> simp [members, Rectangle.inAggregate, member_eq, hc]

def ReducesTo (lookup : Lookup) (ts : List Token) (o : Outcome Expr) : Prop :=
  ∀ rest, arithmetic lookup (ts ++ rest) = (do
    let e ← o
    return e.tokens ++ (← arithmetic lookup rest))

section ReducesTo

lemma ReducesTo.arithmetic_eq (h : ReducesTo lookup ts o) :
    arithmetic lookup ts = (do return (← o).tokens) := by
  have hn := h []
  rw [List.append_nil, arithmetic_nil] at hn
  rw [hn]
  cases o with
  | error code => rfl
  | ok e => exact congrArg Except.ok (List.append_nil _)

lemma ReducesTo.argument_eq (h : ReducesTo lookup ts o) (hi : Arguments.inner? ts = none)
    (hr : ∀ r, ts ≠ [.range r]) (hc : ∀ id, ts ≠ [.cell id]) :
    argument lookup ts = (Expr.Reading.evaluated o).argument := by
  rw [argument, Arguments.strip_eq_self hi]
  split
  · exact absurd rfl (hr _)
  · exact absurd rfl (hc _)
  · rw [h.arithmetic_eq, Expr.Reading.evaluated]
    cases o <;> rfl

lemma reducesTo_number (x : Float) : ReducesTo lookup [.number x] (.ok (.number x)) := by
  intro rest
  rw [List.singleton_append, arithmetic_plain (by simp) (by simp) (by simp)]
  rfl

lemma reducesTo_cell (id : Cell) :
    ReducesTo lookup [.cell id] (do return .number (← (lookup id).inArithmetic)) := by
  intro rest
  rw [List.singleton_append, arithmetic_cell, operand_eq]
  cases (lookup id).inArithmetic <;> rfl

lemma reducesTo_range (r : Rectangle) : ReducesTo lookup [.range r] (.error .malformed) := by
  intro rest
  rw [List.singleton_append, arithmetic_range]
  rfl

lemma ReducesTo.sign {op : Operator} {sign : Expr → Expr} (h : ReducesTo lookup ts o)
    (hs : ∀ e, (sign e).tokens = .operator op :: e.tokens) :
    ReducesTo lookup (.operator op :: ts) (do return sign (← o)) := by
  intro rest
  rw [List.cons_append, arithmetic_plain (by simp) (by simp) (by simp), h rest]
  cases o with
  | error code => rfl
  | ok e =>
    change _ = (do return (sign e).tokens ++ (← arithmetic lookup rest))
    rw [hs]
    cases arithmetic lookup rest <;> rfl

lemma ReducesTo.binary (op : Operator) (h : ReducesTo lookup ts o) (h' : ReducesTo lookup us o') :
    ReducesTo lookup (ts ++ .operator op :: us) (do return .binary op (← o) (← o')) := by
  intro rest
  rw [List.append_assoc, h, List.cons_append, arithmetic_plain (by simp) (by simp) (by simp), h']
  cases o <;> cases o' <;> cases arithmetic lookup rest <;>
    simp [bind, Except.bind, pure, Except.pure, Expr.tokens]

lemma ReducesTo.parens (h : ReducesTo lookup ts o) :
    ReducesTo lookup (.openParen :: (ts ++ [.closeParen])) (do return .parens (← o)) := by
  intro rest
  rw [List.cons_append, List.append_assoc, arithmetic_plain (by simp) (by simp) (by simp), h,
    List.singleton_append, arithmetic_plain (by simp) (by simp) (by simp)]
  cases o <;> cases arithmetic lookup rest <;>
    simp [bind, Except.bind, pure, Except.pure, Expr.tokens]

lemma reducesTo_call (f : Aggregate) {values : Outcome (List Float)}
    (h : (do return (← (Expr.pieces args).mapM (argument lookup)).flatten) = values) :
    ReducesTo lookup (Expr.call f args).tokens (do return .number (← f.apply (← values))) := by
  intro rest
  rw [Expr.tokens, List.cons_append, List.cons_append, List.append_assoc, List.singleton_append,
    arithmetic_call, Expr.split_pieces, ← h]
  change (do
    let x ← f.apply (← (Expr.pieces args).mapM (argument lookup)).flatten
    return Token.number x :: (← arithmetic lookup rest)) = _
  cases (Expr.pieces args).mapM (argument lookup) with
  | error code => rfl
  | ok values =>
    change (f.apply values.flatten >>= fun x => _) = (f.apply values.flatten >>= _) >>= _
    cases f.apply values.flatten <;> rfl

end ReducesTo

structure FollowsReading (lookup : Lookup) (e : Expr) : Prop where
  operand : ReducesTo lookup e.tokens (e.reading lookup).operand
  argument : argument lookup e.tokens = (e.reading lookup).argument

lemma mapM_argument_pieces (h : ∀ e ∈ es, FollowsReading lookup e) :
    (do return (← (Expr.pieces es).mapM (argument lookup)).flatten) = Expr.contributions lookup es := by
  induction es with
  | nil => rfl
  | cons e es ih =>
    obtain ⟨he, hes⟩ := List.forall_mem_cons.mp h
    rw [Expr.pieces, List.mapM_cons, he.argument, Expr.contributions, ← ih hes]
    cases (e.reading lookup).argument <;> cases (Expr.pieces es).mapM (argument lookup) <;> rfl

lemma followsReading (lookup : Lookup) (e : Expr) : FollowsReading lookup e := by
  induction e using Expr.induction with
  | number x =>
    have h : ReducesTo lookup (Expr.number x).tokens _ := reducesTo_number x
    exact ⟨h, h.argument_eq rfl (by simp [Expr.tokens]) (by simp [Expr.tokens])⟩
  | cell id =>
    refine ⟨reducesTo_cell id, ?_⟩
    rw [Expr.tokens, argument, Arguments.strip_eq_self rfl, Expr.reading, member_eq]
  | range r =>
    refine ⟨reducesTo_range r, ?_⟩
    rw [Expr.tokens, argument, Arguments.strip_eq_self rfl, Expr.reading, members_eq]
  | plus e ih =>
    have h : ReducesTo lookup (Expr.plus e).tokens (e.plus.reading lookup).operand :=
      ih.operand.sign fun _ => rfl
    exact ⟨h, h.argument_eq rfl (by simp [Expr.tokens]) (by simp [Expr.tokens])⟩
  | minus e ih =>
    have h : ReducesTo lookup (Expr.minus e).tokens (e.minus.reading lookup).operand :=
      ih.operand.sign fun _ => rfl
    exact ⟨h, h.argument_eq rfl (by simp [Expr.tokens]) (by simp [Expr.tokens])⟩
  | binary op e f ih ih' =>
    have h : ReducesTo lookup (Expr.binary op e f).tokens _ := ih.operand.binary op ih'.operand
    have hi : Arguments.inner? (Expr.binary op e f).tokens = none :=
      Arguments.inner?_append (Expr.nested_tokens e) Expr.tokens_ne_nil (List.cons_ne_nil _ _)
    exact ⟨h, h.argument_eq hi (fun _ => Expr.tokens_binary_ne _) fun _ => Expr.tokens_binary_ne _⟩
  | parens e ih =>
    refine ⟨ih.operand.parens, ?_⟩
    rw [Expr.tokens, argument, Arguments.strip_parens (Expr.nested_tokens e), Expr.reading, ← ih.argument,
      argument]
  | call f args ih =>
    have h : ReducesTo lookup (Expr.call f args).tokens _ := reducesTo_call f (mapM_argument_pieces ih)
    exact ⟨h, h.argument_eq rfl (by simp [Expr.tokens]) (by simp [Expr.tokens])⟩

end Reduction

namespace Formula

theorem reduce_tokens (lookup : Lookup) (e : Expr) (h : ∀ id, e.tokens ≠ [.cell id]) :
    reduce lookup e.tokens = (do return .arithmetic (← (e.reading lookup).operand).tokens) := by
  rw [reduce, (Reduction.followsReading lookup e).operand.arithmetic_eq]
  · cases (e.reading lookup).operand <;> rfl
  · exact h

theorem reduce_tokens_of_nested_calls :
    let lookup : Lookup := fun id =>
      if id = c1 then .text "x" else if id = d1 then .text "5" else if id.col = 1 then .number 2
      else .empty
    let average : Expr := .call .average [.binary .add (.cell d1) (.number 1), .number 4]
    let sum : Expr := .call .sum
      [.parens (.range ⟨b2, a1⟩), .parens (.parens (.cell c1)), .binary .mul average (.number 2)]
    let e : Expr := .binary .sub sum (.cell d1)
    (∀ id, e.tokens ≠ [.cell id]) ∧
      reduce lookup e.tokens = .ok (.arithmetic [.number 14, .operator .sub, .number 5]) := by
  intro lookup average sum e
  have hne : ∀ id, e.tokens ≠ [.cell id] := fun _ => Expr.tokens_binary_ne _
  have he : (e.reading lookup).operand.map Expr.tokens =
      .ok [.number 14, .operator .sub, .number 5] := by decide +kernel
  refine ⟨hne, (reduce_tokens lookup e hne).trans ?_⟩
  cases ho : (e.reading lookup).operand with
  | error code =>
    rw [ho] at he
    cases he
  | ok e' =>
    rw [ho] at he
    exact congrArg (Except.ok ∘ Reduced.arithmetic) (Except.ok.inj he)

end Formula

end Spreadsheet
