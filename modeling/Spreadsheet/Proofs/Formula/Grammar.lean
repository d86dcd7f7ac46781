import Mathlib.Data.List.Basic
import Mathlib.Data.List.Chain
import Spreadsheet.Formula.Token

/-! Sums of products of factors. A factor is a number, a signed factor or a sum in parentheses. -/

namespace Spreadsheet

namespace Arithmetic

inductive Expr
  | number (x : Float)
  | plus (e : Expr)
  | minus (e : Expr)
  | binary (op : Operator) (e f : Expr)

inductive Category
  | sum
  | product
  | factor

inductive Renders : Category → Expr → List Token → Prop
  | number (x : Float) : Renders .factor (.number x) [.number x]
  | plus {e ts} (h : Renders .factor e ts) : Renders .factor (.plus e) (.operator .add :: ts)
  | minus {e ts} (h : Renders .factor e ts) : Renders .factor (.minus e) (.operator .sub :: ts)
  | parens {e ts} (h : Renders .sum e ts) :
    Renders .factor e (.openParen :: (ts ++ [.closeParen]))
  | factor {e ts} (h : Renders .factor e ts) : Renders .product e ts
  | product {op e f ts us} (hop : op = .mul ∨ op = .div) (h : Renders .product e ts)
    (h' : Renders .factor f us) : Renders .product (.binary op e f) (ts ++ .operator op :: us)
  | single {e ts} (h : Renders .product e ts) : Renders .sum e ts
  | sum {op e f ts us} (hop : op = .add ∨ op = .sub) (h : Renders .sum e ts)
    (h' : Renders .product f us) : Renders .sum (.binary op e f) (ts ++ .operator op :: us)

def Sentence (ts : List Token) : Prop :=
  ∃ e, Renders .sum e ts

def IsFactor (ts : List Token) : Prop :=
  ∃ e, Renders .factor e ts

variable {n : ℕ} {b : Bool} {ts us : List Token} {op : Operator}

lemma IsFactor.sentence (h : IsFactor ts) : Sentence ts := by
  obtain ⟨e, he⟩ := h
  exact ⟨e, .single (.factor he)⟩

lemma IsFactor.parens (h : Sentence ts) : IsFactor (.openParen :: (ts ++ [.closeParen])) := by
  obtain ⟨e, he⟩ := h
  exact ⟨e, .parens he⟩

lemma Sentence.operator (op : Operator) (h : Sentence ts) (h' : IsFactor us) :
    Sentence (ts ++ .operator op :: us) := by
  obtain ⟨e, he⟩ := h
  obtain ⟨f, hf⟩ := h'
  have hsum : op = .add ∨ op = .sub → Sentence (ts ++ .operator op :: us) := fun hop =>
    ⟨_, .sum hop he (.factor hf)⟩
  have hproduct : op = .mul ∨ op = .div → Sentence (ts ++ .operator op :: us) := by
    intro hop
    cases he with
    | single he => exact ⟨_, .single (.product hop he hf)⟩
    | sum hop' h he =>
      rw [List.append_assoc, List.cons_append]
      exact ⟨_, .sum hop' h (.product hop he hf)⟩
  cases op with
  | add => exact hsum (Or.inl rfl)
  | sub => exact hsum (Or.inr rfl)
  | mul => exact hproduct (Or.inl rfl)
  | div => exact hproduct (Or.inr rfl)

section Separated

def StartsOperand : Token → Prop
  | .number _ | .openParen => True
  | _ => False

def EndsOperand : Token → Prop
  | .number _ | .closeParen => True
  | _ => False

def Separated (ts : List Token) : Prop :=
  ts.IsChain fun t u => EndsOperand t → ¬ StartsOperand u

lemma Separated.operator (h : Separated ts) (h' : Separated us) :
    Separated (ts ++ .operator op :: us) := by
  refine List.isChain_append.mpr ⟨h, List.isChain_cons.mpr ⟨?_, h'⟩, ?_⟩
  · intro u _ ht
    exact ht.elim
  · intro t _ u hu _ hs
    simp only [List.head?_cons, Option.mem_some_iff] at hu
    subst hu
    exact hs

lemma Renders.separated {category : Category} {e : Expr} (h : Renders category e ts) :
    Separated ts := by
  induction h with
  | number x => exact List.isChain_singleton _
  | plus _ ih | minus _ ih =>
    refine List.isChain_cons.mpr ⟨?_, ih⟩
    intro u _ ht
    exact ht.elim
  | parens _ ih =>
    refine List.isChain_cons.mpr ⟨?_, List.isChain_append.mpr ⟨ih, List.isChain_singleton _, ?_⟩⟩
    · intro u _ ht
      exact ht.elim
    · intro t _ u hu _ hs
      simp only [List.head?_cons, Option.mem_some_iff] at hu
      subst hu
      exact hs
  | factor _ ih | single _ ih => exact ih
  | product _ _ _ ih ih' | sum _ _ _ ih ih' => exact ih.operator ih'

lemma Sentence.separated (h : Sentence ts) : Separated ts := by
  obtain ⟨e, he⟩ := h
  exact he.separated

end Separated

section Prefix

def Awaits (ts : List Token) : Prop :=
  ∀ us, IsFactor us → Sentence (ts ++ us)

/-- The beginning of a sentence, with the number of its open parentheses and with whether an operand
comes next. -/
inductive Prefix : ℕ → Bool → List Token → Prop
  | awaits {ts : List Token} (h : Awaits ts) : Prefix 0 true ts
  | complete {ts : List Token} (h : Sentence ts) : Prefix 0 false ts
  | nested {n : ℕ} {b : Bool} {ts us : List Token} (h : Prefix n true ts) (h' : Prefix 0 b us) :
    Prefix (n + 1) b (ts ++ .openParen :: us)

lemma Prefix.factor (h : Prefix n true ts) (h' : IsFactor us) : Prefix n false (ts ++ us) := by
  cases h with
  | awaits h => exact .complete (h us h')
  | nested h hts =>
    cases hts with
    | awaits hts =>
      rw [List.append_assoc, List.cons_append]
      exact .nested h (.complete (hts us h'))

lemma prefix_nil : Prefix 0 true [] :=
  .awaits fun _ hus => hus.sentence

lemma Prefix.openParen (h : Prefix n true ts) : Prefix (n + 1) true (ts ++ [.openParen]) :=
  .nested h prefix_nil

lemma Prefix.closeParen (h : Prefix (n + 1) false ts) : Prefix n false (ts ++ [.closeParen]) := by
  cases h with
  | nested h hts =>
    cases hts with
    | complete hts =>
      rw [List.append_assoc, List.cons_append]
      exact h.factor (.parens hts)

lemma Prefix.extend {b' : Bool} (h : Prefix n b ts)
    (hts : ∀ vs, Prefix 0 b vs → Prefix 0 b' (vs ++ us)) : Prefix n b' (ts ++ us) := by
  cases h with
  | awaits h => exact hts _ (.awaits h)
  | complete h => exact hts _ (.complete h)
  | nested h h' =>
    rw [List.append_assoc, List.cons_append]
    exact .nested h (hts _ h')

lemma Prefix.sign (h : Prefix n true ts) (hop : op = .add ∨ op = .sub) :
    Prefix n true (ts ++ [.operator op]) := by
  refine h.extend fun vs hvs => ?_
  cases hvs with
  | awaits hvs =>
    refine .awaits fun us hus => ?_
    obtain ⟨e, he⟩ := hus
    rw [List.append_assoc]
    rcases hop with rfl | rfl
    · exact hvs _ ⟨_, .plus he⟩
    · exact hvs _ ⟨_, .minus he⟩

lemma Prefix.operator (h : Prefix n false ts) (op : Operator) :
    Prefix n true (ts ++ [.operator op]) := by
  refine h.extend fun vs hvs => ?_
  cases hvs with
  | complete hvs =>
    refine .awaits fun us hus => ?_
    rw [List.append_assoc]
    exact hvs.operator op hus

lemma Prefix.sentence (h : Prefix 0 false ts) : Sentence ts := by
  cases h with
  | complete h => exact h

end Prefix

end Arithmetic

end Spreadsheet
