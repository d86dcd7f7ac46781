import Spreadsheet.Proofs.Dependency.Changes
import Spreadsheet.Proofs.Document.Mirror

namespace Spreadsheet

open Relation
open Cell (a1 b1 c1)

namespace Document

variable {d : Document} {c x : Cell} {ids xs ys zs : List Cell}

theorem delete_invalidates_readers (d : Document) (ids : List Cell) :
    let e := (d.delete ids).1
    let invalid := (d.delete ids).2
    (∀ c, c ∈ invalid ↔ c ∉ ids ∧ ∃ x ∈ ids, TransGen d.graph.Edge c x) ∧
      (∀ c ∈ invalid, (d.sheet.get? c = none → e.sheet.get? c = none) ∧
        ∀ r, d.sheet.get? c = some r → ∃ r', e.sheet.get? c = some r' ∧ r'.raw = r.raw ∧
          r'.value = "#REF!" ∧ r'.error? = some .deletedCell) ∧
      (∀ c, c ∉ ids → c ∉ invalid → e.sheet.get? c = d.sheet.get? c) ∧
      (∀ c ∈ ids, e.sheet.get? c = none ∧ c ∈ e.sheet.deleted) ∧
      (∀ c, c ∉ ids → (c ∈ e.sheet.deleted ↔ c ∈ d.sheet.deleted)) ∧
      e.graph.edges = {p ∈ d.graph.edges | p.1 ∉ ids ∧ p.2 ∉ ids} ∧ e.settings = d.settings := by
  intro e invalid
  have hget : ∀ c, c ∉ ids → e.sheet.get? c =
      if c ∈ invalid then (d.sheet.get? c).map (·.fail .deletedCell) else d.sheet.get? c :=
    fun c hc => get?_deleteCells.trans (if_neg hc)
  refine ⟨fun c => mem_invalid, fun c hc => ?_, fun c hc hi => ?_, fun c hc => ⟨?_, ?_⟩,
    fun c hc => ?_, ?_, deleteCells_settings⟩
  · have hci : c ∉ ids := (mem_invalid.mp hc).1
    rw [hget c hci, if_pos hc]
    refine ⟨fun hn => by rw [hn]; rfl, fun r hr => ⟨r.fail .deletedCell, ?_, rfl, rfl, rfl⟩⟩
    rw [hr]
    rfl
  · rw [hget c hc, if_neg hi]
  · exact get?_deleteCells.trans (if_pos hc)
  · exact mem_deleted_deleteCells.mpr (Or.inl hc)
  · rw [mem_deleted_deleteCells, or_iff_right hc]
  · ext ⟨a, b⟩
    exact edge_deleteCells.trans (by simp [Graph.edges, and_comm, and_assoc])

theorem delete_invalidates_readers_of_cycle :
    let d := ((empty .standard).load [(a1, "=B1"), (b1, "=A1"), (c1, "=B1+1")]).1
    let e := (d.delete [a1]).1
    b1 ∈ (d.delete [a1]).2 ∧ c1 ∈ (d.delete [a1]).2 ∧ e.sheet.get? a1 = none ∧
      ∃ r, e.sheet.get? c1 = some r ∧ r.raw = "=B1+1" ∧ r.value = "#REF!" := by
  intro d e
  obtain ⟨hi, hv, -, hd, -⟩ := delete_invalidates_readers d [a1]
  have hba : a1 ∈ d.graph.reads b1 := by decide +kernel
  have hcb : b1 ∈ d.graph.reads c1 := by decide +kernel
  have hb : b1 ∈ (d.delete [a1]).2 := (hi b1).mpr ⟨by decide, a1, by simp, .single hba⟩
  have hc : c1 ∈ (d.delete [a1]).2 := (hi c1).mpr ⟨by decide, a1, by simp, .tail (.single hcb) hba⟩
  have ht : d.sheet.text? c1 = some "=B1+1" :=
    (sameTexts_load.1 c1).trans (Sheet.text?_enter_of_mem (by decide) (by simp) (by decide +kernel))
  obtain ⟨r, hr, hraw⟩ := Sheet.exists_of_text? ht
  obtain ⟨r', hr', hraw', hvalue, -⟩ := (hv c1 hc).2 r hr
  exact ⟨hb, hc, (hd a1 (by simp)).1, r', hr', hraw'.trans hraw, hvalue⟩

section Parts

variable (hz : ∀ c, c ∈ zs ↔ c ∈ xs ∨ c ∈ ys)
include hz

lemma mem_invalid_parts : c ∈ (d.delete zs).2 ↔
    (c ∈ (d.delete xs).2 ∨ c ∈ ((d.delete xs).1.delete ys).2) ∧ c ∉ xs ∧ c ∉ ys := by
  rw [mem_invalid, hz, not_or]
  refine ⟨?_, ?_⟩
  · rintro ⟨⟨hcx, hcy⟩, x, hx, hpath⟩
    refine ⟨?_, hcx, hcy⟩
    -- The first deleted cell on the path decides which part invalidates `c`.
    obtain ⟨a, b, hca, ha, hab, hb⟩ := exists_step_into (p := (· ∈ zs)) hpath
      (fun hc => ((hz c).mp hc).elim hcx hcy) hx
    by_cases hbx : b ∈ xs
    · have hca : ReflTransGen d.graph.Edge c a :=
        ReflTransGen.mono (fun _ _ h => h.2.2) _ _ hca
      exact Or.inl (mem_invalid.mpr ⟨hcx, b, hbx, TransGen.tail' hca hab⟩)
    · have hxz : ∀ u, u ∉ zs → u ∉ xs := fun u hu hux => hu ((hz u).mpr (Or.inl hux))
      have hca : ReflTransGen (d.delete xs).1.graph.Edge c a :=
        ReflTransGen.mono
          (fun u v h => edge_deleteCells.mpr ⟨hxz u h.1, hxz v h.2.1, h.2.2⟩) _ _ hca
      have hab : (d.delete xs).1.graph.Edge a b := edge_deleteCells.mpr ⟨hxz a ha, hbx, hab⟩
      have hby : b ∈ ys := ((hz b).mp hb).resolve_left hbx
      exact Or.inr (mem_invalid.mpr ⟨hcy, b, hby, TransGen.tail' hca hab⟩)
  · rintro ⟨hc | hc, hcx, hcy⟩
    · obtain ⟨-, x, hx, hpath⟩ := mem_invalid.mp hc
      exact ⟨⟨hcx, hcy⟩, x, (hz x).mpr (Or.inl hx), hpath⟩
    · obtain ⟨-, y, hy, hpath⟩ := mem_invalid.mp hc
      refine ⟨⟨hcx, hcy⟩, y, (hz y).mpr (Or.inr hy), ?_⟩
      exact TransGen.mono (fun _ _ h => (edge_deleteCells.mp h).2.2) _ _ hpath

lemma get?_delete_parts :
    ((d.delete xs).1.delete ys).1.sheet.get? c = (d.delete zs).1.sheet.get? c := by
  rw [get?_deleteCells, get?_deleteCells, get?_deleteCells]
  have hi := mem_invalid_parts (d := d) (c := c) hz
  by_cases hcx : c ∈ xs
  · simp [hcx, hz]
  by_cases hcy : c ∈ ys
  · simp [hcy, hz]
  simp only [hcx, hcy, hz, hi, or_self, not_false_eq_true, and_self, and_true, if_false]
  -- An invalid record that is invalidated again is the same.
  by_cases hc : c ∈ (d.delete xs).2 <;> by_cases hc' : c ∈ ((d.delete xs).1.delete ys).2 <;>
    cases d.sheet.get? c <;> simp [hc, hc', Record.fail]

lemma delete_parts : ((d.delete xs).1.delete ys).1 = (d.delete zs).1 := by
  refine Document.ext (Sheet.ext (fun c => get?_delete_parts hz) fun c => ?_)
    (Graph.ext fun c => Std.ExtTreeSet.ext_mem fun x => ?_) ?_
  · rw [mem_deleted_deleteCells, mem_deleted_deleteCells, mem_deleted_deleteCells, hz]
    tauto
  · refine edge_deleteCells.trans (Iff.trans ?_ edge_deleteCells.symm)
    rw [edge_deleteCells, hz, hz]
    tauto
  · rw [deleteCells_settings, deleteCells_settings, deleteCells_settings]

end Parts

theorem delete_delete (d : Document) (xs ys zs : List Cell)
    (hz : ∀ c, c ∈ zs ↔ c ∈ xs ∨ c ∈ ys) :
    ((d.delete xs).1.delete ys).1 = (d.delete zs).1 ∧
      (d.delete zs).2 = ((d.delete xs).2 ∪ ((d.delete xs).1.delete ys).2) \
        Std.ExtTreeSet.ofList (xs ++ ys) := by
  refine ⟨delete_parts hz, Std.ExtTreeSet.ext_mem fun c => ?_⟩
  rw [mem_invalid_parts hz]
  simp

theorem delete_delete_of_overlap :
    let d := ((empty .standard).load [(a1, "=B1"), (b1, "=A1"), (c1, "=B1+1")]).1
    (∀ x, x ∈ [b1, a1, b1] ↔ x ∈ [a1] ∨ x ∈ [b1, a1]) ∧ c1 ∈ (d.delete [b1, a1, b1]).2 ∧
      ((d.delete [a1]).1.delete [b1, a1]).1 = (d.delete [b1, a1, b1]).1 ∧
      (d.delete [b1, a1, b1]).2 = ((d.delete [a1]).2 ∪ ((d.delete [a1]).1.delete [b1, a1]).2) \
        Std.ExtTreeSet.ofList ([a1] ++ [b1, a1]) := by
  intro d
  have hz : ∀ x, x ∈ [b1, a1, b1] ↔ x ∈ [a1] ∨ x ∈ [b1, a1] := by simp; grind
  have hcb : b1 ∈ d.graph.reads c1 := by decide +kernel
  exact ⟨hz, mem_invalid.mpr ⟨by decide, b1, by simp, .single hcb⟩, delete_delete d _ _ _ hz⟩

end Document

end Spreadsheet
