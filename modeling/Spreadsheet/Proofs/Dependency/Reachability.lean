import Mathlib.Logic.Relation
import Mathlib.Data.Finset.Card
import Spreadsheet.Dependency.Closure

namespace Spreadsheet

open Relation

section Cycles

variable {α : Type} {r s : α → α → Prop} {c d : α}

def LeadsToCycle (r : α → α → Prop) (c : α) : Prop :=
  ∃ d, ReflTransGen r c d ∧ TransGen r d d

lemma LeadsToCycle.of_reach (h : ReflTransGen r c d) (hd : LeadsToCycle r d) :
    LeadsToCycle r c := by
  obtain ⟨e, hde, he⟩ := hd
  exact ⟨e, h.trans hde, he⟩

lemma leadsToCycle_iff_step : LeadsToCycle r c ↔ ∃ d, r c d ∧ LeadsToCycle r d := by
  constructor
  · rintro ⟨e, hce, he⟩
    rcases hce.cases_head with rfl | ⟨d, hcd, hde⟩
    · obtain ⟨d, hcd, hdc⟩ := TransGen.head'_iff.mp he
      exact ⟨d, hcd, c, hdc, he⟩
    · exact ⟨d, hcd, e, hde, he⟩
  · rintro ⟨d, hcd, hd⟩
    exact hd.of_reach (ReflTransGen.single hcd)

lemma reflTransGen_congr (h : ∀ d, ReflTransGen r c d → ∀ e, r d e ↔ s d e)
    (hd : ReflTransGen r c d) : ReflTransGen s c d := by
  induction hd with
  | refl => exact .refl
  | tail hcd hde ih => exact ih.tail ((h _ hcd _).mp hde)

lemma transGen_congr (h : ∀ d, ReflTransGen r c d → ∀ e, r d e ↔ s d e) (hd : TransGen r c d) :
    TransGen s c d := by
  obtain ⟨e, hce, hed⟩ := TransGen.tail'_iff.mp hd
  exact TransGen.tail' (reflTransGen_congr h hce) ((h e hce d).mp hed)

lemma leadsToCycle_congr (h : ∀ d, ReflTransGen r c d → ∀ e, r d e ↔ s d e) :
    LeadsToCycle r c ↔ LeadsToCycle s c := by
  have transfer : ∀ {r s : α → α → Prop}, (∀ d, ReflTransGen r c d → ∀ e, r d e ↔ s d e) →
      LeadsToCycle r c → LeadsToCycle s c := by
    rintro r s h ⟨d, hcd, hd⟩
    exact ⟨d, reflTransGen_congr h hcd,
      transGen_congr (fun e hde => h e (hcd.trans hde)) hd⟩
  refine ⟨transfer h, transfer fun d hd e => ?_⟩
  -- A path of `s` stays a path of `r`, by induction from its start.
  have hr : ReflTransGen r c d := by
    induction hd with
    | refl => exact .refl
    | tail _ hde ih => exact ih.tail ((h _ ih _).mpr hde)
  exact (h d hr e).symm

lemma leadsToCycle_of_continued (h : ∀ {d e f}, r d e → r e f → s d e) (hc : LeadsToCycle r c) :
    LeadsToCycle s c := by
  obtain ⟨d, hcd, hd⟩ := hc
  obtain ⟨e, hde, -⟩ := TransGen.head'_iff.mp hd
  have path : ∀ {a}, TransGen r a d → TransGen s a d := by
    intro a ha
    induction ha using TransGen.head_induction_on with
    | single had => exact .single (h had hde)
    | @head a b hab hbd ih =>
      obtain ⟨b', hb, -⟩ := TransGen.head'_iff.mp hbd
      exact ih.head (h hab hb)
  refine ⟨d, ?_, path hd⟩
  rcases reflTransGen_iff_eq_or_transGen.mp hcd with rfl | hcd
  · exact .refl
  · exact (path hcd).to_reflTransGen

lemma exists_step_into {p : α → Prop} (h : TransGen r c d) (hc : ¬ p c) (hd : p d) :
    ∃ a b, ReflTransGen (fun x y => ¬ p x ∧ ¬ p y ∧ r x y) c a ∧ ¬ p a ∧ r a b ∧ p b := by
  induction h using TransGen.head_induction_on with
  | @single c hcd => exact ⟨c, d, .refl, hc, hcd, hd⟩
  | @head c e hce _ ih =>
    by_cases he : p e
    · exact ⟨c, e, .refl, hc, hce, he⟩
    · obtain ⟨a, b, hea, ha, hab, hb⟩ := ih he
      exact ⟨a, b, hea.head ⟨hc, he, hce⟩, ha, hab, hb⟩

end Cycles

section Rank

variable {r : Cell → Cell → Prop} {c d : Cell}

open Classical in
/-- How many of the listed cells are reached from `c`. -/
noncomputable def rank (r : Cell → Cell → Prop) (cells : List Cell) (c : Cell) : ℕ :=
  (cells.toFinset.filter (TransGen r c)).card

lemma rank_lt_rank {cells : List Cell} (hcd : r c d) (hd : d ∈ cells) (h : ¬ TransGen r d d) :
    rank r cells d < rank r cells c := by
  classical
  apply Finset.card_lt_card
  refine Finset.ssubset_iff_of_subset ?_ |>.mpr ⟨d, ?_, ?_⟩
  · intro e he
    simp only [Finset.mem_filter] at he ⊢
    exact ⟨he.1, he.2.head hcd⟩
  · simp [hd, TransGen.single hcd]
  · simp [h]

lemma rank_lt_length {cells : List Cell} (hc : c ∈ cells) (h : ¬ TransGen r c c) :
    rank r cells c < cells.length := by
  classical
  refine lt_of_lt_of_le (Finset.card_lt_card ?_) (List.toFinset_card_le cells)
  refine Finset.ssubset_iff_of_subset (Finset.filter_subset _ _) |>.mpr ⟨c, ?_, ?_⟩
  · simpa using hc
  · simp [h]

end Rank

namespace Adjacency

def Edge (a : Adjacency) (c d : Cell) : Prop :=
  d ∈ a.of c

lemma edge_clear {a : Adjacency} {c d e : Cell} : (a.clear c).Edge d e ↔ d ≠ c ∧ a.Edge d e := by
  simp only [Edge, clear]
  rw [of_set]
  split
  · simp_all
  · rename_i h
    simp [Ne.symm h]

lemma transGen_clear {a : Adjacency} (c : Cell) {d e : Cell} (h : TransGen a.Edge d e) :
    TransGen (a.clear c).Edge d e ∨ ∃ f, a.Edge c f ∧ ReflTransGen (a.clear c).Edge f e := by
  induction h with
  | @single e hde =>
    by_cases hd : d = c
    · subst hd
      exact Or.inr ⟨e, hde, .refl⟩
    · exact Or.inl (.single (edge_clear.mpr ⟨hd, hde⟩))
  | @tail e e' _ he ih =>
    by_cases hc : e = c
    · subst hc
      exact Or.inr ⟨e', he, .refl⟩
    · have hs : (a.clear c).Edge e e' := edge_clear.mpr ⟨hc, he⟩
      rcases ih with ih | ⟨f, hf, ih⟩
      · exact Or.inl (ih.tail hs)
      · exact Or.inr ⟨f, hf, ih.tail hs⟩

lemma transGen_of_clear {a : Adjacency} {c d e : Cell} (h : TransGen (a.clear c).Edge d e) :
    TransGen a.Edge d e := by
  refine TransGen.mono ?_ d e h
  intro x y hxy
  exact (edge_clear.mp hxy).2

end Adjacency

namespace Closure

lemma mem_explore {unexplored : Adjacency} {found : CellSet} {work : List Cell} {d : Cell} :
    d ∈ explore unexplored found work ↔
      d ∈ found ∨ ∃ c ∈ work, TransGen unexplored.Edge c d := by
  fun_induction explore unexplored found work with
  | case1 => simp
  | case2 unexplored found c work h ih =>
    have hc : ¬ TransGen unexplored.Edge c d := by
      intro hcd
      obtain ⟨e, hce, _⟩ := TransGen.head'_iff.mp hcd
      simp [Adjacency.Edge, h] at hce
    simp [ih, hc]
  | case3 unexplored found c work _ ih =>
    rw [ih, Std.ExtTreeSet.mem_union_iff]
    constructor
    · rintro ((hd | hd) | ⟨e, he, hed⟩)
      · exact Or.inl hd
      · exact Or.inr ⟨c, List.mem_cons_self, .single hd⟩
      · rcases List.mem_append.mp he with he | he
        · exact Or.inr ⟨c, List.mem_cons_self,
            (Adjacency.transGen_of_clear hed).head (Std.ExtTreeSet.mem_toList.mp he)⟩
        · exact Or.inr ⟨e, List.mem_cons_of_mem _ he, Adjacency.transGen_of_clear hed⟩
    · rintro (hd | ⟨e, he, hed⟩)
      · exact Or.inl (Or.inl hd)
      rcases Adjacency.transGen_clear c hed with hed' | ⟨f, hcf, hfd⟩
      · rcases List.mem_cons.mp he with rfl | he
        · obtain ⟨f, hf, _⟩ := TransGen.head'_iff.mp hed'
          exact absurd rfl (Adjacency.edge_clear.mp hf).1
        · exact Or.inr ⟨e, List.mem_append_right _ he, hed'⟩
      · rcases reflTransGen_iff_eq_or_transGen.mp hfd with rfl | hfd
        · exact Or.inl (Or.inr hcf)
        · exact Or.inr ⟨f, List.mem_append_left _ (Std.ExtTreeSet.mem_toList.mpr hcf), hfd⟩

end Closure

namespace Graph

def Edge (g : Graph) (c d : Cell) : Prop :=
  d ∈ g.reads c

lemma backward_edge {g : Graph} : g.backward.Edge = Function.swap g.Edge := by
  funext c d
  exact propext (g.inverse d c)

lemma mem_downstream {g : Graph} {seeds : CellSet} {c : Cell} :
    c ∈ g.downstream seeds ↔ c ∉ seeds ∧ ∃ d ∈ seeds, TransGen g.Edge c d := by
  rw [downstream, Std.ExtTreeSet.mem_diff_iff, Closure.mem_explore, backward_edge]
  simp only [transGen_swap, Std.ExtTreeSet.mem_toList, Std.ExtTreeSet.not_mem_empty, false_or]
  exact and_comm

lemma mem_downstream_singleton {g : Graph} {c d : Cell} :
    c ∈ g.downstream {d} ↔ c ≠ d ∧ TransGen g.Edge c d := by
  simp [mem_downstream, @eq_comm _ d]

end Graph

end Spreadsheet
