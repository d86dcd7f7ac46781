import Mathlib.Order.Lattice.Nat
import Spreadsheet.Proofs.Formula.Acceptance
import Spreadsheet.Proofs.Formula.Nesting

/-! The depth of the scan is the number of open parentheses. The pieces collected so far with their
commas and the current piece are all tokens that were read. -/

namespace Spreadsheet

namespace Arguments

open Arithmetic (depth opening depth_append_singleton)

/-- The positions from `start` on at which a token stands outside of parentheses opened since. -/
def outer (ts : List Token) (start : ℕ) (t : Token) : Set ℕ :=
  {p | start ≤ p ∧ ts[p]? = some t ∧ depth (ts.extract start p) = 0}

def Begins (ts : List Token) (start p : ℕ) : Prop :=
  p = start ∨ ∃ q ∈ outer ts start .comma, p = q + 1

def EndsEmpty (ts : List Token) (start p : ℕ) : Prop :=
  Begins ts start p ∧ (p ∈ outer ts start .comma ∨ p ∈ outer ts start .closeParen ∧ p ≠ start)

def GetsTo (ts : List Token) (start p : ℕ) : Prop :=
  ∀ q, q ∈ outer ts start .closeParen ∨ EndsEmpty ts start q → p ≤ q

structure Unbroken (ts : List Token) : Prop where
  nonneg : ∀ us, us <+: ts → 0 ≤ depth us
  comma : ∀ us, us ++ [.comma] <+: ts → depth us ≠ 0

structure IsPiece (ts : List Token) : Prop extends Unbroken ts where
  ne_nil : ts ≠ []
  balanced : depth ts = 0

structure Pieces (us : List Token) (pieces : List (List Token)) (piece : List Token) : Prop where
  eq : us = pieces.flatMap (· ++ [.comma]) ++ piece
  ended : ∀ p ∈ pieces, IsPiece p
  current : Unbroken piece

def Splits (ts : List Token) (start last : ℕ) (args : List (List Token)) : Prop :=
  args = [] ∧ last = start ∨
    args ≠ [] ∧ List.intercalate [.comma] args = ts.extract start last ∧ ∀ arg ∈ args, IsPiece arg

inductive Division (ts : List Token) (start : ℕ) : Outcome Arguments → Prop
  | closed {last args} (hl : IsLeast (outer ts start .closeParen) last)
    (hs : Splits ts start last args) : Division ts start (.ok ⟨args, ts.drop (last + 1)⟩)
  | emptyPiece {p} (he : EndsEmpty ts start p) (hp : ∀ q ∈ outer ts start .closeParen, p ≤ q) :
    Division ts start (.error .malformed)
  | unclosed (hc : outer ts start .closeParen = ∅) (he : ∀ p, ¬ EndsEmpty ts start p) :
    Division ts start (.error .badValue)

variable {t : Token} {ts us rest piece : List Token} {pieces args : List (List Token)}
  {start last p n : ℕ}

section Depth

lemma depth_append : depth (ts ++ us) = depth ts + depth us := by
  simp [depth]

lemma depth_flatMap (h : ∀ p ∈ pieces, IsPiece p) : depth (pieces.flatMap (· ++ [.comma])) = 0 := by
  induction pieces with
  | nil => rfl
  | cons p pieces ih =>
    have hp : depth p = 0 := (h p List.mem_cons_self).balanced
    rw [List.flatMap_cons, depth_append, ih fun q hq => h q (List.mem_cons_of_mem _ hq),
      depth_append_singleton, hp]
    rfl

lemma unbroken_nil : Unbroken [] where
  nonneg us h := by
    rw [List.prefix_nil.mp h]
    exact le_refl 0
  comma us h := by simp at h

lemma Unbroken.init (h : Unbroken (ts ++ [t])) : Unbroken ts where
  nonneg us hu := h.nonneg us (hu.trans (List.prefix_append _ _))
  comma us hu := h.comma us (hu.trans (List.prefix_append _ _))

lemma Unbroken.concat (h : Unbroken ts) (hn : t = .closeParen ∨ t = .comma → depth ts ≠ 0) :
    Unbroken (ts ++ [t]) where
  nonneg us hu := by
    rcases List.prefix_concat_iff.mp hu with rfl | hu
    · have hts : 0 ≤ depth ts := h.nonneg ts List.prefix_rfl
      rw [depth_append_singleton]
      cases t with
      | closeParen =>
        have hd : depth ts ≠ 0 := hn (Or.inl rfl)
        simp only [opening]
        omega
      | _ =>
        simp only [opening]
        omega
    · exact h.nonneg us hu
  comma us hu := by
    rcases List.prefix_concat_iff.mp hu with hu | hu
    · obtain ⟨rfl, ht⟩ := List.append_inj' hu rfl
      cases ht
      exact hn (Or.inr rfl)
    · exact h.comma us hu

end Depth

section Scan

lemma cut_cons (h : t = .closeParen ∨ t = .comma → n ≠ 0) :
    cut n piece args (t :: rest) = cut (n + opening t).toNat (t :: piece) args rest := by
  cases t with
  | closeParen =>
    obtain ⟨m, rfl⟩ := Nat.exists_eq_succ_of_ne_zero (h (Or.inl rfl))
    simp [cut, opening]
  | comma =>
    obtain ⟨m, rfl⟩ := Nat.exists_eq_succ_of_ne_zero (h (Or.inr rfl))
    simp [cut, opening]
  | _ => simp [cut, opening]

lemma Unbroken.cut_append (h : Unbroken us) :
    cut 0 [] args (us ++ rest) = cut (depth us).toNat us.reverse args rest := by
  induction us using List.reverseRecOn generalizing rest with
  | nil => rfl
  | append_singleton us t ih =>
    have hu : 0 ≤ depth us := h.init.nonneg us List.prefix_rfl
    have hn : t = .closeParen ∨ t = .comma → (depth us).toNat ≠ 0 := by
      rintro (rfl | rfl)
      · have hd : 0 ≤ depth (us ++ [.closeParen]) := h.nonneg _ List.prefix_rfl
        rw [depth_append_singleton] at hd
        simp only [opening] at hd
        omega
      · have hd : depth us ≠ 0 := h.comma us List.prefix_rfl
        omega
    rw [List.append_assoc, List.singleton_append, ih h.init, cut_cons hn, Int.toNat_of_nonneg hu,
      depth_append_singleton, List.reverse_concat]

lemma cut_flatMap (h : ∀ p ∈ pieces, IsPiece p) :
    cut 0 [] args (pieces.flatMap (· ++ [.comma]) ++ rest) =
      cut 0 [] (pieces.reverse ++ args) rest := by
  induction pieces generalizing args with
  | nil => rfl
  | cons p pieces ih =>
    have hp : IsPiece p := h p List.mem_cons_self
    rw [List.flatMap_cons, List.append_assoc, List.append_assoc, List.singleton_append,
      hp.cut_append, hp.balanced, Int.toNat_zero, cut_comma (by simpa using hp.ne_nil),
      ih fun q hq => h q (List.mem_cons_of_mem _ hq)]
    simp

lemma Pieces.depth_eq (h : Pieces us pieces piece) : depth us = depth piece := by
  rw [h.eq, depth_append, depth_flatMap h.ended, zero_add]

lemma Pieces.split_append (h : Pieces us pieces piece) :
    split (us ++ rest) = cut (depth us).toNat piece.reverse pieces.reverse rest := by
  rw [h.depth_eq, h.eq, split, List.append_assoc, cut_flatMap h.ended, h.current.cut_append,
    List.append_nil]

lemma Pieces.split_comma (h : Pieces us pieces []) :
    split (us ++ .comma :: rest) = .error .malformed := by
  rw [h.split_append, h.depth_eq]
  rfl

lemma Pieces.split_closeParen (h : Pieces us pieces piece) (hd : depth us = 0) (hp : piece ≠ []) :
    split (us ++ .closeParen :: rest) = .ok ⟨pieces ++ [piece], rest⟩ := by
  rw [h.split_append, hd, Int.toNat_zero, cut_closeParen (by simpa using hp)]
  simp

end Scan

section Pieces

lemma pieces_nil : Pieces [] [] [] :=
  ⟨rfl, by simp, unbroken_nil⟩

lemma Pieces.concat (h : Pieces us pieces piece)
    (hn : t = .closeParen ∨ t = .comma → depth us ≠ 0) :
    Pieces (us ++ [t]) pieces (piece ++ [t]) where
  eq := by rw [h.eq, List.append_assoc]
  ended := h.ended
  current := h.current.concat (h.depth_eq ▸ hn)

lemma Pieces.comma (h : Pieces us pieces piece) (hd : depth us = 0) (hp : piece ≠ []) :
    Pieces (us ++ [.comma]) (pieces ++ [piece]) [] where
  eq := by simp [h.eq]
  ended := by
    intro q hq
    rcases List.mem_append.mp hq with hq | hq
    · exact h.ended q hq
    · obtain rfl := List.mem_singleton.mp hq
      exact ⟨h.current, hp, h.depth_eq ▸ hd⟩
  current := unbroken_nil

lemma intercalate_concat :
    List.intercalate [.comma] (pieces ++ [piece]) = pieces.flatMap (· ++ [.comma]) ++ piece := by
  induction pieces with
  | nil => simp
  | cons p pieces ih =>
    obtain ⟨q, qs, hq⟩ := List.exists_cons_of_ne_nil (List.concat_ne_nil piece pieces)
    rw [List.cons_append, hq, List.intercalate_cons_cons, ← hq, ih, List.flatMap_cons]
    simp

end Pieces

section Positions

lemma extract_self : ts.extract start start = [] := by
  rw [List.extract, Nat.sub_self, List.take_zero]

lemma extract_succ (hs : start ≤ p) (ht : ts[p]? = some t) :
    ts.extract start (p + 1) = ts.extract start p ++ [t] := by
  have hd : (ts.drop start)[p - start]? = some t := by
    rw [List.getElem?_drop, Nat.add_sub_cancel' hs, ht]
  rw [List.extract, List.extract, Nat.sub_add_comm hs, List.take_add_one, hd]
  rfl

lemma drop_eq_extract_append (hs : start ≤ p) :
    ts.drop start = ts.extract start p ++ ts.drop p := by
  have hd : ts.drop p = (ts.drop start).drop (p - start) := by
    rw [List.drop_drop, Nat.add_sub_cancel' hs]
  rw [List.extract, hd, List.take_append_drop]

lemma drop_eq_cons (ht : ts[p]? = some t) : ts.drop p = t :: ts.drop (p + 1) := by
  obtain ⟨hp, rfl⟩ := List.getElem?_eq_some_iff.mp ht
  exact List.drop_eq_getElem_cons hp

lemma drop_eq_of_outer (hp : p ∈ outer ts start t) :
    ts.drop start = ts.extract start p ++ t :: ts.drop (p + 1) := by
  rw [drop_eq_extract_append hp.1, drop_eq_cons hp.2.1]

lemma Pieces.begins (h : Pieces (ts.extract start p) pieces []) (hs : start ≤ p)
    (hp : p ≤ ts.length) : Begins ts start p := by
  rcases hs.eq_or_lt with rfl | hlt
  · exact Or.inl rfl
  obtain ⟨q, rfl⟩ := Nat.exists_eq_succ_of_ne_zero (Nat.ne_zero_of_lt hlt)
  have hq : start ≤ q := Nat.lt_succ_iff.mp hlt
  have ht : ts[q]? = some ts[q] := List.getElem?_eq_getElem hp
  have he := h.eq
  rw [Nat.succ_eq_add_one, extract_succ hq ht, List.append_nil] at he
  refine Or.inr ⟨q, ?_, rfl⟩
  -- The piece before the current one ended with the last token that was read.
  cases pieces using List.reverseRecOn with
  | nil => simp at he
  | append_singleton pieces piece =>
    have hpiece : IsPiece piece := h.ended piece (by simp)
    rw [List.flatMap_append, List.flatMap_singleton, ← List.append_assoc] at he
    obtain ⟨he, hc⟩ := List.append_inj' he rfl
    refine ⟨hq, by simpa [ht] using hc, ?_⟩
    rw [he, depth_append, depth_flatMap fun r hr => h.ended r (by simp [hr]), hpiece.balanced]
    rfl

lemma Pieces.eq_nil_of_begins (h : Pieces (ts.extract start p) pieces piece)
    (hb : Begins ts start p) : piece = [] := by
  rcases hb with rfl | ⟨q, hq, rfl⟩
  · have he := h.eq
    rw [extract_self] at he
    exact (List.append_eq_nil_iff.mp he.symm).2
  · have he := h.eq
    rw [extract_succ hq.1 hq.2.1] at he
    cases piece using List.reverseRecOn with
    | nil => rfl
    | append_singleton piece t =>
      rw [← List.append_assoc] at he
      obtain ⟨hread, ht⟩ := List.append_inj' he rfl
      cases ht
      have hd : depth piece = 0 := by
        rw [← hq.2.2, hread, depth_append, depth_flatMap h.ended, zero_add]
      exact absurd hd (h.current.comma piece List.prefix_rfl)

lemma exists_pieces (hs : start ≤ p) (hp : p ≤ ts.length) (h : GetsTo ts start p) :
    ∃ pieces piece, Pieces (ts.extract start p) pieces piece := by
  induction p, hs using Nat.le_induction with
  | base => exact ⟨[], [], extract_self ▸ pieces_nil⟩
  | succ p hs ih =>
    obtain ⟨pieces, piece, hps⟩ := ih (Nat.le_of_succ_le hp) fun q hq => Nat.le_of_succ_le (h q hq)
    have ht : ts[p]? = some ts[p] := List.getElem?_eq_getElem hp
    rw [extract_succ hs ht]
    generalize ts[p] = t at ht
    by_cases hd : depth (ts.extract start p) = 0
    · by_cases hc : t = .comma
      · subst hc
        have hne : piece ≠ [] := by
          rintro rfl
          have he : EndsEmpty ts start p := ⟨hps.begins hs (Nat.le_of_succ_le hp), Or.inl ⟨hs, ht, hd⟩⟩
          exact absurd (h p (Or.inr he)) (Nat.not_succ_le_self p)
        exact ⟨pieces ++ [piece], [], hps.comma hd hne⟩
      · refine ⟨pieces, piece ++ [t], hps.concat ?_⟩
        rintro (rfl | rfl)
        · exact absurd (h p (Or.inl ⟨hs, ht, hd⟩)) (Nat.not_succ_le_self p)
        · exact absurd rfl hc
    · exact ⟨pieces, piece ++ [t], hps.concat fun _ => hd⟩

end Positions

section Results

lemma lt_length_of_outer (hp : p ∈ outer ts start t) : p < ts.length :=
  (List.getElem?_eq_some_iff.mp hp.2.1).1

lemma split_of_splits (hl : IsLeast (outer ts start .closeParen) last)
    (h : Splits ts start last args) :
    split (ts.drop start) = .ok ⟨args, ts.drop (last + 1)⟩ := by
  rw [drop_eq_of_outer hl.1]
  rcases h with ⟨rfl, rfl⟩ | ⟨hne, he, hpieces⟩
  · rw [extract_self]
    rfl
  · cases args using List.reverseRecOn with
    | nil => exact absurd rfl hne
    | append_singleton pieces piece =>
      have hpiece : IsPiece piece := hpieces piece (by simp)
      have hp : Pieces (ts.extract start last) pieces piece :=
        ⟨by rw [← he, intercalate_concat], fun p hp => hpieces p (by simp [hp]), hpiece.toUnbroken⟩
      exact hp.split_closeParen hl.1.2.2 hpiece.ne_nil

lemma split_of_endsEmpty (he : EndsEmpty ts start p)
    (hp : ∀ q ∈ outer ts start .closeParen, p ≤ q) :
    split (ts.drop start) = .error .malformed := by
  have hne : {q | EndsEmpty ts start q}.Nonempty := ⟨p, he⟩
  have hfirst := isLeast_csInf hne
  generalize sInf {q | EndsEmpty ts start q} = p' at hfirst
  obtain ⟨⟨hb, hend⟩, hleast⟩ := hfirst
  have hg : GetsTo ts start p' := by
    rintro q (hq | hq)
    · exact (hleast he).trans (hp q hq)
    · exact hleast hq
  obtain ⟨t, ht⟩ : ∃ t, p' ∈ outer ts start t :=
    hend.elim (fun h => ⟨_, h⟩) fun h => ⟨_, h.1⟩
  obtain ⟨pieces, piece, hps⟩ := exists_pieces ht.1 (lt_length_of_outer ht).le hg
  obtain rfl := hps.eq_nil_of_begins hb
  rcases hend with hcomma | ⟨hclose, hne⟩
  · rw [drop_eq_of_outer hcomma, hps.split_comma]
  · rw [drop_eq_of_outer hclose, hps.split_append, hps.depth_eq]
    cases pieces using List.reverseRecOn with
    | nil =>
      -- Without a comma the empty piece is the whole, and the call would close at once.
      have hlength : (ts.extract start p').length = 0 := by simp [hps.eq]
      have hlt : p' < ts.length := lt_length_of_outer hclose
      have hle : start ≤ p' := hclose.1
      rw [List.extract, List.length_take, List.length_drop] at hlength
      omega
    | append_singleton pieces piece =>
      rw [List.reverse_concat]
      rfl

lemma split_of_unended (hc : outer ts start .closeParen = ∅) (he : ∀ p, ¬ EndsEmpty ts start p) :
    split (ts.drop start) = .error .badValue := by
  by_cases hs : start ≤ ts.length
  · have hg : GetsTo ts start ts.length := by
      rintro q (hq | hq)
      · simp [hc] at hq
      · exact absurd hq (he q)
    obtain ⟨pieces, piece, hps⟩ := exists_pieces hs (le_refl _) hg
    rw [drop_eq_extract_append hs, hps.split_append, List.drop_length, cut]
  · rw [List.drop_eq_nil_of_le (Nat.le_of_not_le hs)]
    rfl

lemma Division.split_eq {r : Outcome Arguments} (h : Division ts start r) :
    split (ts.drop start) = r := by
  cases h with
  | closed hl hs => exact split_of_splits hl hs
  | emptyPiece he hp => exact split_of_endsEmpty he hp
  | unclosed hc he => exact split_of_unended hc he

lemma exists_division (ts : List Token) (start : ℕ) : ∃ r, Division ts start r := by
  by_cases he : ∃ p, EndsEmpty ts start p ∧ ∀ q ∈ outer ts start .closeParen, p ≤ q
  · obtain ⟨p, he, hp⟩ := he
    exact ⟨_, .emptyPiece he hp⟩
  rcases (outer ts start .closeParen).eq_empty_or_nonempty with hc | hc
  · refine ⟨_, .unclosed hc fun p hp => he ⟨p, hp, ?_⟩⟩
    simp [hc]
  · have hl := isLeast_csInf hc
    generalize sInf (outer ts start .closeParen) = last at hl
    have hlater : ∀ q, EndsEmpty ts start q → last < q := by
      intro q hq
      by_contra hle
      exact he ⟨q, hq, fun r hr => (Nat.le_of_not_lt hle).trans (hl.2 hr)⟩
    have hg : GetsTo ts start last := by
      rintro q (hq | hq)
      · exact hl.2 hq
      · exact (hlater q hq).le
    have hlen : last ≤ ts.length := (lt_length_of_outer hl.1).le
    obtain ⟨pieces, piece, hps⟩ := exists_pieces hl.1.1 hlen hg
    by_cases hp : piece = []
    · subst hp
      have hs : last = start := by
        by_contra hne
        exact absurd (hlater last ⟨hps.begins hl.1.1 hlen, Or.inr ⟨hl.1, hne⟩⟩) (lt_irrefl last)
      exact ⟨_, .closed hl (Or.inl ⟨rfl, hs⟩)⟩
    · have hpieces : ∀ q ∈ pieces ++ [piece], IsPiece q := by
        intro q hq
        rcases List.mem_append.mp hq with hq | hq
        · exact hps.ended q hq
        · obtain rfl := List.mem_singleton.mp hq
          exact ⟨hps.current, hp, hps.depth_eq ▸ hl.1.2.2⟩
      refine ⟨_, .closed hl (Or.inr ⟨List.concat_ne_nil piece pieces, ?_, hpieces⟩)⟩
      rw [intercalate_concat, hps.eq]

lemma split_eq_iff {r : Outcome Arguments} : split (ts.drop start) = r ↔ Division ts start r := by
  refine ⟨fun h => ?_, Division.split_eq⟩
  obtain ⟨r', hr⟩ := exists_division ts start
  rwa [← h, hr.split_eq]

end Results

/-- Arguments are found exactly if the call closes at once or behind nonempty balanced pieces that
the outer commas join. Otherwise an empty piece ends first, or nothing closes the call. As far as
the scan gets, its depth is the number of open parentheses. -/
theorem split_cuts_at_outer_commas (ts : List Token) (start : ℕ) :
    (∀ args rest, split (ts.drop start) = .ok ⟨args, rest⟩ ↔
      ∃ last, IsLeast (outer ts start .closeParen) last ∧ rest = ts.drop (last + 1) ∧
        Splits ts start last args) ∧
    (split (ts.drop start) = .error .malformed ↔
      ∃ p, EndsEmpty ts start p ∧ ∀ q ∈ outer ts start .closeParen, p ≤ q) ∧
    (split (ts.drop start) = .error .badValue ↔
      outer ts start .closeParen = ∅ ∧ ∀ p, ¬ EndsEmpty ts start p) ∧
    ∀ p, start ≤ p → p ≤ ts.length → GetsTo ts start p →
      0 ≤ depth (ts.extract start p) ∧
        ∃ pieces piece, Pieces (ts.extract start p) pieces piece ∧
          ∀ rest, split (ts.extract start p ++ rest) =
            cut (depth (ts.extract start p)).toNat piece.reverse pieces.reverse rest := by
  refine ⟨fun args rest => ?_, ?_, ?_, fun p hs hp hg => ?_⟩
  · rw [split_eq_iff]
    constructor
    · rintro (⟨hl, hs⟩)
      exact ⟨_, hl, rfl, hs⟩
    · rintro ⟨last, hl, rfl, hs⟩
      exact .closed hl hs
  · rw [split_eq_iff]
    constructor
    · rintro (_ | ⟨he, hp⟩)
      exact ⟨_, he, hp⟩
    · rintro ⟨p, he, hp⟩
      exact .emptyPiece he hp
  · rw [split_eq_iff]
    constructor
    · rintro (_ | _ | ⟨hc, he⟩)
      exact ⟨hc, he⟩
    · rintro ⟨hc, he⟩
      exact .unclosed hc he
  · obtain ⟨pieces, piece, hps⟩ := exists_pieces hs hp hg
    refine ⟨?_, pieces, piece, hps, fun rest => hps.split_append⟩
    rw [hps.depth_eq]
    exact hps.current.nonneg piece List.prefix_rfl

theorem split_cuts_at_outer_commas_nested :
    let ts : List Token := [.call .sum, .openParen, .number 1, .comma, .openParen, .number 2,
      .comma, .number 3, .closeParen, .closeParen]
    let args : List (List Token) :=
      [[.number 1], [.openParen, .number 2, .comma, .number 3, .closeParen]]
    split (ts.drop 2) = .ok ⟨args, []⟩ ∧
      ∃ last, IsLeast (outer ts 2 .closeParen) last ∧ [] = ts.drop (last + 1) ∧
        Splits ts 2 last args := by
  intro ts args
  have h : split (ts.drop 2) = .ok ⟨args, []⟩ := rfl
  exact ⟨h, ((split_cuts_at_outer_commas ts 2).1 args []).mp h⟩

end Arguments

end Spreadsheet
