import Spreadsheet.Formula.Evaluation
import Spreadsheet.Proofs.Formula.Mentions
import Spreadsheet.Proofs.Outcome

namespace Spreadsheet

def Value.SameUpTo (allowed : CellError → Prop) (v w : Value) : Prop :=
  w = v ∨ ∃ code, allowed code ∧ w = .error code

def namedCells (ts : List Token) : List Cell :=
  ts.flatMap Token.cells

section NamedCells

variable {t : Token} {ts us : List Token}

@[simp] lemma namedCells_nil : namedCells [] = [] := rfl

@[simp] lemma namedCells_cons : namedCells (t :: ts) = t.cells ++ namedCells ts := rfl

@[simp] lemma namedCells_append : namedCells (ts ++ us) = namedCells ts ++ namedCells us :=
  List.flatMap_append

@[simp] lemma cells_openParen : Token.openParen.cells = [] := rfl

@[simp] lemma cells_closeParen : Token.closeParen.cells = [] := rfl

@[simp] lemma cells_comma : Token.comma.cells = [] := rfl

@[simp] lemma mem_namedCells_reverse {c : Cell} :
    c ∈ namedCells ts.reverse ↔ c ∈ namedCells ts := by
  simp [namedCells]

end NamedCells

namespace Arguments

lemma mem_namedCells_cut {ts : List Token} {depth : ℕ} {piece : List Token}
    {args : List (List Token)} {a : Arguments} (h : cut depth piece args ts = .ok a) (c : Cell) :
    (c ∈ namedCells a.args.flatten ∨ c ∈ namedCells a.rest) ↔
      c ∈ namedCells args.reverse.flatten ∨ c ∈ namedCells piece ∨ c ∈ namedCells ts := by
  fun_induction cut depth piece args ts with
  | case1 | case5 | case8 => contradiction
  | case4 => cases h; simp
  | case6 => cases h; simp; grind
  | case2 _ _ _ _ ih | case3 _ _ _ _ ih | case7 _ _ _ _ ih => simp [ih h]
  | case9 _ _ _ _ ih => simp [ih h]; grind
  | case10 _ _ _ _ _ _ _ _ ih => simp [ih h]; grind

lemma mem_namedCells_split {ts : List Token} {a : Arguments} (h : split ts = .ok a) (c : Cell) :
    c ∈ namedCells ts ↔ c ∈ namedCells a.args.flatten ∨ c ∈ namedCells a.rest := by
  simpa using (mem_namedCells_cut h c).symm

lemma namedCells_inner? {ts us : List Token} (h : inner? ts = some us) :
    namedCells us = namedCells ts := by
  simp only [inner?] at h
  split at h
  · rename_i ts
    simp only [Option.ite_none_right_eq_some, Option.some.injEq] at h
    obtain ⟨⟨hl, _⟩, rfl⟩ := h
    have hs : ts.dropLast ++ [.closeParen] = ts := List.dropLast_append_getLast? _ hl
    rw [namedCells_cons, ← hs]
    simp
  · contradiction

lemma namedCells_strip (ts : List Token) : namedCells (strip ts) = namedCells ts := by
  fun_induction strip ts with
  | case1 ts us h ih => exact ih.trans (namedCells_inner? h)
  | case2 => rfl

lemma mem_namedCells_of_arg {ts arg : List Token} {a : Arguments} (h : split ts = .ok a)
    (hm : arg ∈ a.args) {c : Cell} (hc : c ∈ namedCells (strip arg)) : c ∈ namedCells ts := by
  rw [namedCells_strip] at hc
  obtain ⟨t, ht, hc⟩ := List.mem_flatMap.mp hc
  refine (mem_namedCells_split h c).mpr (Or.inl ?_)
  exact List.mem_flatMap.mpr ⟨t, List.mem_flatten_of_mem hm ht, hc⟩

end Arguments

namespace Reduction

def argument (lookup : Lookup) (arg : List Token) : Outcome (List Float) :=
  match Arguments.strip arg with
  | [.range r] => members lookup r
  | [.cell id] => do return [← member (lookup id)]
  | inner => do return [← Arithmetic.value (← arithmetic lookup inner)]

section Equations

variable {lookup : Lookup} {t : Token} {ts : List Token}

lemma arithmetic_nil : arithmetic lookup [] = .ok [] := by
  rw [arithmetic]

lemma arithmetic_call (f : Aggregate) : arithmetic lookup (.call f :: .openParen :: ts) = (do
    let a ← Arguments.split ts
    let x ← f.apply (← a.args.mapM (argument lookup)).flatten
    return .number x :: (← arithmetic lookup a.rest)) := by
  rw [arithmetic]
  cases h : Arguments.split ts with
  | error code => rfl
  | ok a =>
    dsimp only
    rw [List.mapM_subtype (g := argument lookup), List.unattach_attach]
    · rfl
    · intro arg _
      rw [argument]
      split <;> simp_all

lemma arithmetic_bare_call {f : Aggregate} (h : ∀ us, ts ≠ .openParen :: us) :
    arithmetic lookup (.call f :: ts) = .error .malformed := by
  rw [arithmetic]
  exact h

lemma arithmetic_cell (id : Cell) : arithmetic lookup (.cell id :: ts) = (do
    let x ← operand (lookup id)
    return .number x :: (← arithmetic lookup ts)) := by
  rw [arithmetic]

lemma arithmetic_range (r : Rectangle) :
    arithmetic lookup (.range r :: ts) = .error .malformed := by
  rw [arithmetic]

lemma arithmetic_plain (hf : ∀ f, t ≠ .call f) (hc : ∀ id, t ≠ .cell id) (hr : ∀ r, t ≠ .range r) :
    arithmetic lookup (t :: ts) = (do return t :: (← arithmetic lookup ts)) := by
  rw [arithmetic]
  · intro f _ h
    exact absurd h (hf f)
  · exact hf
  · exact hc
  · exact hr

end Equations

lemma induction {motive : List Token → Prop} (nil : motive [])
    (call : ∀ f ts, (∀ a, Arguments.split ts = .ok a →
      (∀ arg ∈ a.args, motive (Arguments.strip arg)) ∧ motive a.rest) →
        motive (.call f :: .openParen :: ts))
    (cons : ∀ t ts, (∀ f us, t = .call f → ts ≠ .openParen :: us) → motive ts → motive (t :: ts))
    (ts : List Token) : motive ts := by
  induction hn : ts.length using Nat.strong_induction_on generalizing ts with
  | _ n ih =>
    subst hn
    cases ts with
    | nil => exact nil
    | cons t ts =>
      by_cases hc : ∃ f us, t = .call f ∧ ts = .openParen :: us
      · obtain ⟨f, us, rfl, rfl⟩ := hc
        refine call f us fun a ha => ⟨fun arg hm => ih _ ?_ _ rfl, ih _ ?_ _ rfl⟩
        · have hl := Arguments.length_strip_le arg
          have hm := Arguments.length_of_mem ha hm
          simp only [List.length_cons]
          omega
        · have hr := Arguments.length_rest ha
          simp only [List.length_cons]
          omega
      · refine cons t ts (fun f us ht hu => hc ⟨f, us, ht, hu⟩) (ih _ ?_ _ rfl)
        simp

section SameUpTo

variable {allowed : CellError → Prop} {l₁ l₂ : Lookup}

lemma operand_sameUpTo {v w : Value} (h : v.SameUpTo allowed w) :
    Outcome.SameUpTo allowed (operand v) (operand w) := by
  rcases h with rfl | ⟨code, hc, rfl⟩
  · exact .refl _
  · exact Or.inr ⟨code, hc, rfl⟩

lemma member_sameUpTo {v w : Value} (h : v.SameUpTo allowed w) :
    Outcome.SameUpTo allowed (member v) (member w) := by
  rcases h with rfl | ⟨code, hc, rfl⟩
  · exact .refl _
  · exact Or.inr ⟨code, hc, rfl⟩

lemma members_sameUpTo {r : Rectangle}
    (h : ∀ c ∈ r.cells?.getD [], (l₁ c).SameUpTo allowed (l₂ c)) :
    Outcome.SameUpTo allowed (members l₁ r) (members l₂ r) := by
  simp only [members]
  cases hc : r.cells? with
  | none => exact .refl _
  | some ids => exact .mapM fun c hm => member_sameUpTo (h c (by simpa [hc] using hm))

lemma argument_sameUpTo {arg : List Token}
    (h : ∀ c ∈ namedCells (Arguments.strip arg), (l₁ c).SameUpTo allowed (l₂ c))
    (hi : Outcome.SameUpTo allowed (arithmetic l₁ (Arguments.strip arg))
      (arithmetic l₂ (Arguments.strip arg))) :
    Outcome.SameUpTo allowed (argument l₁ arg) (argument l₂ arg) := by
  simp only [argument]
  split
  · rename_i r hs
    exact members_sameUpTo (by simpa [hs, Token.cells] using h)
  · rename_i id hs
    exact (member_sameUpTo (h id (by simp [hs, Token.cells]))).bind fun x _ => .refl _
  · exact hi.bind fun us _ => .refl _

lemma arithmetic_sameUpTo {ts : List Token}
    (h : ∀ c ∈ namedCells ts, (l₁ c).SameUpTo allowed (l₂ c)) :
    Outcome.SameUpTo allowed (arithmetic l₁ ts) (arithmetic l₂ ts) := by
  induction ts using induction with
  | nil =>
    rw [arithmetic, arithmetic]
    exact .refl _
  | call f ts ih =>
    rw [arithmetic_call, arithmetic_call]
    refine Outcome.SameUpTo.bind (.refl _) fun a ha => ?_
    obtain ⟨hargs, hrest⟩ := ih a ha
    have hm : Outcome.SameUpTo allowed (a.args.mapM (argument l₁)) (a.args.mapM (argument l₂)) := by
      refine .mapM fun arg hm => ?_
      have harg : ∀ c ∈ namedCells (Arguments.strip arg), (l₁ c).SameUpTo allowed (l₂ c) :=
        fun c hc => h c (Arguments.mem_namedCells_of_arg ha hm hc)
      exact argument_sameUpTo harg (hargs arg hm harg)
    refine hm.bind fun values _ => Outcome.SameUpTo.bind (.refl _) fun x _ => ?_
    refine (hrest fun c hc => h c ?_).bind fun us _ => .refl _
    exact (Arguments.mem_namedCells_split ha c).mpr (Or.inr hc)
  | cons t ts hc ih =>
    have hts : Outcome.SameUpTo allowed (arithmetic l₁ ts) (arithmetic l₂ ts) := by
      refine ih fun c hm => h c ?_
      simp [hm]
    cases t with
    | cell id =>
      rw [arithmetic_cell, arithmetic_cell]
      refine (operand_sameUpTo (h id (by simp [Token.cells]))).bind fun x _ => ?_
      exact hts.bind fun us _ => .refl _
    | range r =>
      rw [arithmetic_range, arithmetic_range]
      exact .refl _
    | call f =>
      rw [arithmetic_bare_call fun us => hc f us rfl, arithmetic_bare_call fun us => hc f us rfl]
      exact .refl _
    | _ =>
      rw [arithmetic_plain (by simp) (by simp) (by simp),
        arithmetic_plain (by simp) (by simp) (by simp)]
      exact hts.bind fun us _ => .refl _

end SameUpTo

def ErrorFree (lookup : Lookup) (cells : List Cell) : Prop :=
  ∀ c ∈ cells, ∀ code, lookup c ≠ .error code

lemma value_ne_of_operand {v : Value} {x : Float} (h : operand v = .ok x) (code : CellError) :
    v ≠ .error code := by
  rintro rfl
  simp [operand] at h

lemma value_ne_of_member {v : Value} {x : Float} (h : member v = .ok x) (code : CellError) :
    v ≠ .error code := by
  rintro rfl
  simp [member] at h

lemma errorFree_of_members {lookup : Lookup} {r : Rectangle} {xs : List Float}
    (h : members lookup r = .ok xs) : ErrorFree lookup (r.cells?.getD []) := by
  rw [members] at h
  cases hc : r.cells? with
  | none => simp [hc] at h
  | some ids =>
    simp only [hc] at h
    intro c hm code
    obtain ⟨x, hx⟩ := Outcome.of_mapM_eq_ok h c hm
    exact value_ne_of_member hx code

lemma errorFree_of_argument {lookup : Lookup} {arg : List Token} {xs : List Float}
    (h : argument lookup arg = .ok xs)
    (hi : ∀ us, arithmetic lookup (Arguments.strip arg) = .ok us →
      ErrorFree lookup (namedCells (Arguments.strip arg))) :
    ErrorFree lookup (namedCells (Arguments.strip arg)) := by
  rw [argument] at h
  split at h
  · rename_i r hs
    simpa [hs, Token.cells] using errorFree_of_members h
  · rename_i id hs
    obtain ⟨x, hx, _⟩ := Outcome.bind_eq_ok.mp h
    intro c hc code
    obtain rfl : c = id := by simpa [hs, Token.cells] using hc
    exact value_ne_of_member hx code
  · obtain ⟨us, hu, _⟩ := Outcome.bind_eq_ok.mp h
    exact hi us hu

lemma errorFree_of_arithmetic {lookup : Lookup} {ts us : List Token}
    (h : arithmetic lookup ts = .ok us) : ErrorFree lookup (namedCells ts) := by
  induction ts using induction generalizing us with
  | nil => simp [ErrorFree]
  | call f ts ih =>
    rw [arithmetic_call] at h
    obtain ⟨a, ha, h⟩ := Outcome.bind_eq_ok.mp h
    obtain ⟨values, hv, h⟩ := Outcome.bind_eq_ok.mp h
    obtain ⟨x, _, h⟩ := Outcome.bind_eq_ok.mp h
    obtain ⟨rest, hr, _⟩ := Outcome.bind_eq_ok.mp h
    obtain ⟨hargs, hrest⟩ := ih a ha
    intro c hc code
    have hc : c ∈ namedCells ts := by simpa [Token.cells] using hc
    rcases (Arguments.mem_namedCells_split ha c).mp hc with hc | hc
    · obtain ⟨t, ht, hc⟩ := List.mem_flatMap.mp hc
      obtain ⟨arg, hm, ht⟩ := List.mem_flatten.mp ht
      obtain ⟨xs, hx⟩ := Outcome.of_mapM_eq_ok hv arg hm
      refine errorFree_of_argument hx (fun us => hargs arg hm) c ?_ code
      rw [Arguments.namedCells_strip]
      exact List.mem_flatMap.mpr ⟨t, ht, hc⟩
    · exact hrest hr c hc code
  | cons t ts hc ih =>
    have step : ∀ vs, arithmetic lookup ts = .ok vs → ErrorFree lookup t.cells →
        ErrorFree lookup (namedCells (t :: ts)) := by
      intro vs hv ht c hm
      rcases List.mem_append.mp hm with hm | hm
      · exact ht c hm
      · exact ih hv c hm
    cases t with
    | cell id =>
      rw [arithmetic_cell] at h
      obtain ⟨x, hx, h⟩ := Outcome.bind_eq_ok.mp h
      obtain ⟨vs, hv, _⟩ := Outcome.bind_eq_ok.mp h
      refine step vs hv fun c hm => ?_
      obtain rfl : c = id := by simpa [Token.cells] using hm
      exact value_ne_of_operand hx
    | range r => simp [arithmetic_range] at h
    | call f => simp [arithmetic_bare_call fun us => hc f us rfl] at h
    | _ =>
      rw [arithmetic_plain (by simp) (by simp) (by simp)] at h
      obtain ⟨vs, hv, _⟩ := Outcome.bind_eq_ok.mp h
      exact step vs hv fun c hm => absurd hm List.not_mem_nil

end Reduction

namespace Formula

open Reduction

lemma errorFree_of_reduce {lookup : Lookup} {ts : List Token} {reduced : Reduced}
    (h : reduce lookup ts = .ok reduced) : ErrorFree lookup (namedCells ts) := by
  simp only [reduce] at h
  split at h
  · rename_i id
    intro c hc code hl
    obtain rfl : c = id := by simpa [Token.cells] using hc
    simp [hl] at h
  · obtain ⟨us, hu, _⟩ := Outcome.bind_eq_ok.mp h
    exact errorFree_of_arithmetic hu

section SameUpTo

variable {allowed : CellError → Prop} {l₁ l₂ : Lookup}

lemma reduce_sameUpTo {ts : List Token} (h : ∀ c ∈ namedCells ts, (l₁ c).SameUpTo allowed (l₂ c)) :
    Outcome.SameUpTo allowed (reduce l₁ ts) (reduce l₂ ts) := by
  simp only [reduce]
  split
  · rename_i id
    rcases h id (by simp [Token.cells]) with he | ⟨code, hc, he⟩
    · rw [he]
      exact .refl _
    · rw [he]
      exact Or.inr ⟨code, hc, rfl⟩
  · exact (arithmetic_sameUpTo h).bind fun us _ => .refl _

lemma value_sameUpTo {policy : Policy} {formula : List Char}
    (h : ∀ c ∈ References.ofFormula formula, (l₁ c).SameUpTo allowed (l₂ c)) :
    Outcome.SameUpTo allowed (value policy l₁ formula) (value policy l₂ formula) := by
  rw [value]
  refine Outcome.SameUpTo.bind (.refl _) fun ts ht => ?_
  refine (reduce_sameUpTo fun c hc => h c ?_).bind fun reduced _ => .refl _
  exact (References.mem_ofFormula ht).mpr hc

end SameUpTo

end Formula

namespace Raw

variable {policy : Policy} {raw : String}

lemma evaluate_sameUpTo {allowed : CellError → Prop} {l₁ l₂ : Lookup}
    (h : ∀ c ∈ references raw, (l₁ c).SameUpTo allowed (l₂ c)) :
    Outcome.SameUpTo allowed (evaluate policy l₁ raw) (evaluate policy l₂ raw) := by
  simp only [evaluate]
  cases hf : formula? raw with
  | none => exact .refl _
  | some formula => exact Formula.value_sameUpTo (references_of_formula? hf ▸ h)

theorem evaluate_eq_of_references (policy : Policy) (raw : String) (l₁ l₂ : Lookup)
    (h : ∀ c ∈ references raw, l₁ c = l₂ c) : evaluate policy l₁ raw = evaluate policy l₂ raw := by
  have hs : Outcome.SameUpTo (fun _ => False) (evaluate policy l₁ raw) (evaluate policy l₂ raw) :=
    evaluate_sameUpTo fun c hc => Or.inl (h c hc).symm
  rcases hs with hs | ⟨_, hf, -⟩
  · exact hs.symm
  · exact hf.elim

theorem evaluate_eq_of_references_range :
    evaluate .strict (fun _ => .text "2") "=SUM(A1:B2)+C3" =
      evaluate .strict (fun c => if c.col ≤ 3 then .text "2" else .error .cycle)
        "=SUM(A1:B2)+C3" := by
  have hcol : ∀ c ∈ (references "=SUM(A1:B2)+C3").toList, c.col ≤ 3 := by decide +kernel
  refine evaluate_eq_of_references _ _ _ _ fun c hc => ?_
  rw [if_pos (hcol c (Std.ExtTreeSet.mem_toList.mpr hc))]

lemma evaluate_ne_ok {lookup : Lookup} {c : Cell} {code : CellError} (hc : c ∈ references raw)
    (he : lookup c = .error code) (v : Value) : evaluate policy lookup raw ≠ .ok v := by
  intro h
  rw [evaluate] at h
  cases hf : formula? raw with
  | none => simp [references, hf] at hc
  | some formula =>
    simp only [hf, Formula.value] at h
    obtain ⟨ts, ht, h⟩ := Outcome.bind_eq_ok.mp h
    obtain ⟨reduced, hr, _⟩ := Outcome.bind_eq_ok.mp h
    rw [references_of_formula? hf] at hc
    exact Formula.errorFree_of_reduce hr c ((References.mem_ofFormula ht).mp hc) code he

end Raw

end Spreadsheet
