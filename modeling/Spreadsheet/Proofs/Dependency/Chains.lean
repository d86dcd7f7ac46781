import Mathlib.Data.List.Chain
import Mathlib.Order.Lattice.Nat
import Mathlib.Logic.Relation

/-! Chains of a relation without cycles, weighed by how many of their members are marked. -/

namespace Spreadsheet

open Relation

section Chains

variable {α : Type} {r : α → α → Prop} {p : α → Bool} {a b : α} {as marked : List α}

def chainWeights (r : α → α → Prop) (p : α → Bool) : Set ℕ :=
  {n | ∃ as : List α, as.IsChain r ∧ as.countP p = n}

def chainWeightsFrom (r : α → α → Prop) (p : α → Bool) (a : α) : Set ℕ :=
  {n | ∃ as : List α, (a :: as).IsChain r ∧ (a :: as).countP p = n}

noncomputable def chainDepth (r : α → α → Prop) (p : α → Bool) (a : α) : ℕ :=
  sSup (chainWeightsFrom r p a)

lemma nodup_of_isChain (hr : ∀ a, ¬ TransGen r a a) (h : as.IsChain r) : as.Nodup := by
  have hp : as.Pairwise (TransGen r) := (h.imp fun _ _ => TransGen.single).pairwise
  refine hp.imp fun hab he => ?_
  subst he
  exact hr _ hab

lemma chainWeightsFrom_subset : chainWeightsFrom r p a ⊆ chainWeights r p := by
  rintro n ⟨as, h, rfl⟩
  exact ⟨a :: as, h, rfl⟩

section Finite

variable (hr : ∀ a, ¬ TransGen r a a) (hm : ∀ a, p a → a ∈ marked)
include hr hm

lemma countP_le_of_isChain (h : as.IsChain r) : as.countP p ≤ marked.length := by
  have hs : as.filter p ⊆ marked := fun a ha => hm a (List.mem_filter.mp ha).2
  rw [List.countP_eq_length_filter]
  exact (List.subperm_of_subset ((nodup_of_isChain hr h).filter p) hs).length_le

lemma bddAbove_chainWeights : BddAbove (chainWeights r p) := by
  refine ⟨marked.length, ?_⟩
  rintro n ⟨as, h, rfl⟩
  exact countP_le_of_isChain hr hm h

lemma isGreatest_chainWeights : IsGreatest (chainWeights r p) (sSup (chainWeights r p)) := by
  have hb : BddAbove (chainWeights r p) := bddAbove_chainWeights hr hm
  exact ⟨Nat.sSup_mem ⟨0, [], .nil, rfl⟩ hb, fun _ => le_csSup hb⟩

lemma isGreatest_chainDepth : IsGreatest (chainWeightsFrom r p a) (chainDepth r p a) := by
  have hb : BddAbove (chainWeightsFrom r p a) :=
    (bddAbove_chainWeights hr hm).mono chainWeightsFrom_subset
  exact ⟨Nat.sSup_mem ⟨_, [], .singleton a, rfl⟩ hb, fun _ => le_csSup hb⟩

lemma chainDepth_lt_chainDepth (hab : r a b) (ha : p a) : chainDepth r p b < chainDepth r p a := by
  -- The heaviest chain from `b` goes on from `a`.
  obtain ⟨as, h, hw⟩ := (isGreatest_chainDepth hr hm (a := b)).1
  have hle : (a :: b :: as).countP p ≤ chainDepth r p a :=
    (isGreatest_chainDepth hr hm).2 ⟨b :: as, h.cons_cons hab, rfl⟩
  rw [List.countP_cons_of_pos ha, hw] at hle
  exact hle

lemma chainDepth_pos (ha : p a) : 0 < chainDepth r p a := by
  have hle : [a].countP p ≤ chainDepth r p a :=
    (isGreatest_chainDepth hr hm).2 ⟨[], .singleton a, rfl⟩
  rwa [List.countP_cons_of_pos ha] at hle

lemma chainDepth_le {n : ℕ} (hn : IsGreatest (chainWeights r p) n) : chainDepth r p a ≤ n :=
  hn.2 (chainWeightsFrom_subset (isGreatest_chainDepth hr hm).1)

end Finite

end Chains

end Spreadsheet
