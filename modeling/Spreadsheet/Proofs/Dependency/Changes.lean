import Mathlib.Data.Set.Card
import Spreadsheet.Proofs.Dependency.Reachability

namespace Spreadsheet

namespace Graph

open Relation

inductive Change
  | setReads (c : Cell) (refs : CellSet)
  | isolate (c : Cell)

def Change.edges (E : Set (Cell × Cell)) : Change → Set (Cell × Cell)
  | setReads c refs => {e ∈ E | e.1 ≠ c} ∪ {e | e.1 = c ∧ e.2 ∈ refs}
  | isolate c => {e ∈ E | e.1 ≠ c ∧ e.2 ≠ c}

def change (g : Graph) : Change → Graph
  | .setReads c refs => g.setReads c refs
  | .isolate c => g.isolate c

def edges (g : Graph) : Set (Cell × Cell) :=
  {e | g.Edge e.1 e.2}

def ends (E : Set (Cell × Cell)) : Set Cell :=
  {c | ∃ e ∈ E, e.1 = c ∨ e.2 = c}

variable {g : Graph} {c x : Cell}

section Change

lemma edges_empty : empty.edges = ∅ := by
  simp [edges, Edge, reads, empty]

lemma edges_setReads {refs : CellSet} :
    (g.setReads c refs).edges = (Change.setReads c refs).edges g.edges := by
  ext ⟨a, b⟩
  simp only [edges, Edge, Change.edges, reads_setReads, Set.mem_union, Set.mem_ofPred_eq]
  by_cases h : c = a
  · simp [h]
  · simp [h, Ne.symm h]

lemma edges_isolate : (g.isolate c).edges = (Change.isolate c).edges g.edges := by
  ext ⟨a, b⟩
  simp only [edges, Edge, Change.edges, mem_reads_isolate, Set.mem_ofPred_eq]
  tauto

lemma edges_change (ch : Change) : (g.change ch).edges = ch.edges g.edges := by
  cases ch with
  | setReads c refs => exact edges_setReads
  | isolate c => exact edges_isolate

lemma edges_foldl_change (changes : List Change) :
    (changes.foldl change g).edges = changes.foldl Change.edges g.edges := by
  induction changes generalizing g with
  | nil => rfl
  | cons ch changes ih => rw [List.foldl_cons, ih, edges_change, List.foldl_cons]

end Change

section Answers

lemma mem_reads_iff_edges : x ∈ g.reads c ↔ (c, x) ∈ g.edges := Iff.rfl

lemma mem_readers_iff_edges : x ∈ g.readers c ↔ (x, c) ∈ g.edges := mem_readers

lemma mem_otherReaders : x ∈ g.otherReaders c ↔ x ≠ c ∧ (x, c) ∈ g.edges := by
  rw [otherReaders, Std.ExtTreeSet.mem_erase, mem_readers_iff_edges, Ne, Std.compare_eq_iff_eq,
    @eq_comm _ c]

lemma mem_ends : c ∈ ends g.edges ↔ g.reads c ≠ ∅ ∨ g.readers c ≠ ∅ := by
  simp only [Ne, Std.ExtTreeSet.eq_empty_iff_forall_not_mem, not_forall, not_not,
    mem_reads_iff_edges, mem_readers_iff_edges]
  constructor
  · rintro ⟨⟨a, b⟩, he, rfl | rfl⟩
    · exact Or.inl ⟨b, he⟩
    · exact Or.inr ⟨a, he⟩
  · rintro (⟨x, he⟩ | ⟨x, he⟩)
    · exact ⟨(c, x), he, Or.inl rfl⟩
    · exact ⟨(x, c), he, Or.inr rfl⟩

lemma contains_iff : g.contains c = true ↔ c ∈ ends g.edges := by
  simp [contains, mem_ends]

lemma mem_cells : c ∈ g.cells ↔ c ∈ ends g.edges := by
  simp [cells, mem_ends, Adjacency.mem_cells, reads, readers]

lemma mem_cells_iff_edge : c ∈ g.cells ↔ ∃ x, g.Edge c x ∨ g.Edge x c := by
  rw [mem_cells]
  constructor
  · rintro ⟨⟨a, b⟩, he, rfl | rfl⟩
    · exact ⟨b, Or.inl he⟩
    · exact ⟨a, Or.inr he⟩
  · rintro ⟨x, he | he⟩
    · exact ⟨(c, x), he, Or.inl rfl⟩
    · exact ⟨(x, c), he, Or.inr rfl⟩

lemma encard_ends : (ends g.edges).encard = g.size := by
  have hs : ends g.edges = ↑g.cells.toList.toFinset := by
    ext c
    simp [← mem_cells]
  have hn : g.cells.toList.Nodup :=
    Std.ExtTreeSet.distinct_toList.imp (mt Std.compare_eq_iff_eq.mpr)
  rw [hs, Set.encard_coe_eq_coe_finsetCard, List.toFinset_card_of_nodup hn,
    Std.ExtTreeSet.length_toList, size]

end Answers

theorem answers_from_edges (changes : List Change) :
    let g := changes.foldl change empty
    let E := changes.foldl Change.edges ∅
    (∀ c x, x ∈ g.reads c ↔ (c, x) ∈ E) ∧ (∀ c x, x ∈ g.readers c ↔ (x, c) ∈ E) ∧
      (∀ c, g.contains c = true ↔ c ∈ ends E) ∧ (∀ c, c ∈ g.cells ↔ c ∈ ends E) ∧
      (ends E).encard = g.size ∧ ∀ c x, x ∈ g.otherReaders c ↔ x ≠ c ∧ (x, c) ∈ E := by
  intro g E
  have hE : E = g.edges := by
    rw [edges_foldl_change, edges_empty]
  rw [hE]
  exact ⟨fun _ _ => mem_reads_iff_edges, fun _ _ => mem_readers_iff_edges,
    fun _ => contains_iff, fun _ => mem_cells, encard_ends, fun _ _ => mem_otherReaders⟩

theorem downstream_from_edges (changes : List Change) (seeds : List Cell) :
    let g := changes.foldl change empty
    let E := changes.foldl Change.edges ∅
    (∀ c x, x ∈ g.reads c ↔ (c, x) ∈ E) ∧
      ∀ c, c ∈ g.downstream (.ofList seeds) ↔
        c ∉ seeds ∧ ∃ d ∈ seeds, TransGen (fun x y => y ∈ g.reads x) c d := by
  intro g E
  have hE : E = g.edges := by
    rw [edges_foldl_change, edges_empty]
  refine ⟨fun c x => by rw [hE, mem_reads_iff_edges], fun c => ?_⟩
  have hseed : ∀ d, d ∈ Std.ExtTreeSet.ofList seeds ↔ d ∈ seeds := by
    simp [Std.ExtTreeSet.mem_ofList]
  simp only [mem_downstream, hseed]
  rfl

end Graph

end Spreadsheet
