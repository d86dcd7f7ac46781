import Mathlib.Data.List.Basic
import Spreadsheet.Formula.Arguments

namespace Spreadsheet

open Arguments

def Token.IsPlain : Token → Prop
  | openParen | closeParen | comma => False
  | _ => True

/-- Commas stand inside of parentheses, and outside only where `commas` allows them. -/
inductive Nested : Bool → List Token → Prop
  | nil {commas} : Nested commas []
  | plain {commas t ts} (ht : t.IsPlain) (h : Nested commas ts) : Nested commas (t :: ts)
  | comma {ts} (h : Nested true ts) : Nested true (.comma :: ts)
  | parens {commas ts us} (h : Nested true ts) (h' : Nested commas us) :
    Nested commas (.openParen :: (ts ++ .closeParen :: us))

variable {commas : Bool} {t : Token} {ts us rest piece : List Token}
  {pieces args : List (List Token)} {depth : ℕ}

namespace Nested

lemma single (ht : t.IsPlain) : Nested commas [t] :=
  .plain ht .nil

lemma append (h : Nested commas ts) (h' : Nested commas us) : Nested commas (ts ++ us) := by
  induction h with
  | nil => exact h'
  | plain ht _ ih => exact .plain ht (ih h')
  | comma _ ih => exact .comma (ih h')
  | parens h _ _ ih =>
    rw [List.cons_append, List.append_assoc, List.cons_append]
    exact .parens h (ih h')

lemma mono (h : Nested false ts) : Nested commas ts := by
  generalize hb : false = b at h
  induction h with
  | nil => exact .nil
  | plain ht _ ih => exact .plain ht (ih hb)
  | comma => cases hb
  | parens h _ _ ih => exact .parens h (ih hb)

lemma intercalate (h : ∀ p ∈ pieces, Nested false p) :
    Nested true (List.intercalate [.comma] pieces) := by
  induction pieces with
  | nil => exact .nil
  | cons p pieces ih =>
    have hp : Nested true p := (h p List.mem_cons_self).mono
    have hr : Nested true (List.intercalate [.comma] pieces) :=
      ih fun q hq => h q (List.mem_cons_of_mem _ hq)
    cases pieces with
    | nil => simpa using hp
    | cons q pieces =>
      rw [List.intercalate_cons_cons, List.append_assoc]
      exact hp.append (.comma hr)

end Nested

namespace Arguments

lemma cut_plain (ht : t.IsPlain) : cut depth piece args (t :: ts) = cut depth (t :: piece) args ts := by
  cases t <;> first | rfl | exact ht.elim

lemma balanced_plain (ht : t.IsPlain) : balanced depth (t :: ts) = balanced depth ts := by
  cases t <;> first | rfl | exact ht.elim

lemma cut_nested (h : Nested commas ts) (hd : commas = true → depth ≠ 0) :
    cut depth piece args (ts ++ rest) = cut depth (ts.reverse ++ piece) args rest := by
  induction h generalizing depth piece rest with
  | nil => rfl
  | plain ht _ ih =>
    rw [List.cons_append, cut_plain ht, ih hd]
    simp
  | comma _ ih =>
    obtain ⟨n, rfl⟩ := Nat.exists_eq_succ_of_ne_zero (hd rfl)
    rw [List.cons_append, cut, ih hd]
    simp
  | parens _ _ ih ih' =>
    rw [List.cons_append, cut, List.append_assoc, ih fun _ => Nat.succ_ne_zero _, List.cons_append,
      cut, ih' hd]
    simp

lemma balanced_nested (h : Nested commas ts) :
    balanced depth (ts ++ rest) = balanced depth rest := by
  induction h generalizing depth rest with
  | nil => rfl
  | plain ht _ ih => rw [List.cons_append, balanced_plain ht, ih]
  | comma _ ih => exact ih
  | parens _ _ ih ih' =>
    rw [List.cons_append, balanced, List.append_assoc, ih, List.cons_append, balanced, ih']

lemma cut_closeParen (hp : piece ≠ []) :
    cut 0 piece args (.closeParen :: ts) = .ok ⟨args.reverse ++ [piece.reverse], ts⟩ := by
  cases piece with
  | nil => exact absurd rfl hp
  | cons t piece => simp [cut]

lemma cut_comma (hp : piece ≠ []) :
    cut 0 piece args (.comma :: ts) = cut 0 [] (piece.reverse :: args) ts := by
  cases piece with
  | nil => exact absurd rfl hp
  | cons t piece => rw [cut]

lemma cut_intercalate {p : List Token} (h : ∀ q ∈ p :: pieces, Nested false q ∧ q ≠ []) :
    cut 0 [] args (List.intercalate [.comma] (p :: pieces) ++ .closeParen :: rest) =
      .ok ⟨args.reverse ++ p :: pieces, rest⟩ := by
  induction pieces generalizing p args with
  | nil =>
    obtain ⟨hn, hp⟩ := h p List.mem_cons_self
    rw [List.intercalate_singleton, cut_nested hn (by simp), List.append_nil,
      cut_closeParen (by simpa using hp), List.reverse_reverse]
  | cons q pieces ih =>
    obtain ⟨hn, hp⟩ := h p List.mem_cons_self
    rw [List.intercalate_cons_cons, List.append_assoc, List.append_assoc, List.singleton_append,
      cut_nested hn (by simp), List.append_nil, cut_comma (by simpa using hp),
      ih fun r hr => h r (List.mem_cons_of_mem _ hr)]
    simp

lemma split_intercalate (h : ∀ p ∈ pieces, Nested false p ∧ p ≠ []) :
    split (List.intercalate [.comma] pieces ++ .closeParen :: rest) = .ok ⟨pieces, rest⟩ := by
  cases pieces with
  | nil => rfl
  | cons p pieces => exact cut_intercalate h

lemma inner?_eq_none (h : ts.head? ≠ some .openParen) : inner? ts = none := by
  rw [inner?]
  rintro us rfl
  exact h rfl

lemma inner?_append (h : Nested false ts) (ht : ts ≠ []) (hu : us ≠ []) :
    inner? (ts ++ us) = none := by
  cases h with
  | nil => exact absurd rfl ht
  | @plain _ t ts hp =>
    refine inner?_eq_none ?_
    rintro ⟨⟩
    exact hp
  | @parens _ ts vs h =>
    -- At depth zero the scan meets the parenthesis that closes `ts`, and more is left.
    have hl : (ts ++ .closeParen :: (vs ++ us)).dropLast =
        ts ++ .closeParen :: (vs ++ us).dropLast := by
      rw [List.dropLast_append_of_ne_nil (by simp), List.dropLast_cons_of_ne_nil (by simp [hu])]
    rw [List.cons_append, List.append_assoc, List.cons_append, inner?, hl, balanced_nested h,
      balanced]
    simp

lemma strip_eq_self (h : inner? ts = none) : strip ts = ts := by
  rw [strip]
  split <;> simp_all

lemma strip_parens (h : Nested commas ts) :
    strip (.openParen :: (ts ++ [.closeParen])) = strip ts := by
  have hb : balanced 0 ts = true := by
    have hn : balanced 0 (ts ++ []) = balanced 0 [] := balanced_nested h
    rwa [List.append_nil] at hn
  have hi : inner? (.openParen :: (ts ++ [.closeParen])) = some ts := by simp [inner?, hb]
  rw [strip]
  split <;> simp_all

end Arguments

end Spreadsheet
