import Spreadsheet.Proofs.Document.Run
import Spreadsheet.Proofs.Sheet.Solution

namespace Spreadsheet

open Relation
open Cell (a1 b1 c1)

section Literals

variable {s t : Sheet} {id c : Cell} {r : Record} {raw : String} {ids : List Cell} {code : CellError}

lemma Record.shown_ofRaw (h : Raw.isFormula raw = false) : (ofRaw raw).shown = .text raw := by
  simp [ofRaw, h]

lemma Record.shown_rewrite (hr : Raw.isFormula r.raw = false → r.shown = .text r.raw)
    (h : Raw.isFormula raw = false) : (r.rewrite raw).shown = .text raw := by
  rw [rewrite]
  split
  · rename_i hraw
    subst hraw
    exact hr h
  · rw [if_neg (by simp [h])]
    exact shown_ofRaw h

namespace Sheet

lemma literalsShown_empty : Sheet.empty.LiteralsShown := by
  intro c r hr
  simp [Sheet.empty, get?] at hr

lemma LiteralsShown.of_failed (h : s.LiteralsShown) (ht : ∀ c r, t.get? c = some r →
      s.get? c = some r ∨ s.isFormula c = true ∧ ∃ code, (s.get? c).map (·.fail code) = some r) :
    t.LiteralsShown := by
  intro c r hr hl
  rcases ht c r hr with hs | ⟨hf, code, hs⟩
  · exact h c r hs hl
  · obtain ⟨r', hr', rfl⟩ := Option.map_eq_some_iff.mp hs
    have hl : Raw.isFormula r'.raw = false := hl
    rw [isFormula_of_get? hr', hl] at hf
    contradiction

lemma LiteralsShown.write (h : s.LiteralsShown) : (s.write id raw).LiteralsShown := by
  intro c r hr hf
  by_cases hc : c = id
  · subst hc
    rw [get?_write_self, Option.some_inj] at hr
    subst hr
    cases hr' : s.get? c with
    | none =>
      simp only [hr', Option.elim_none, Record.raw_ofRaw] at hf ⊢
      exact Record.shown_ofRaw hf
    | some r' =>
      simp only [hr', Option.elim_some, Record.raw_rewrite] at hf ⊢
      exact Record.shown_rewrite (h c r' hr') hf
  · rw [get?_write_of_ne hc] at hr
    exact h c r hr hf

lemma LiteralsShown.enter (h : s.LiteralsShown) (cells : List (Cell × String)) :
    (s.enter cells).LiteralsShown := by
  induction cells generalizing s with
  | nil => exact h
  | cons cell cells ih =>
    rw [enter_cons]
    split
    · exact ih h
    · exact ih h.write

lemma LiteralsShown.fail (h : s.LiteralsShown) (hf : ∀ c ∈ ids, s.isFormula c = true) :
    (s.fail code ids).LiteralsShown := by
  apply h.of_failed
  intro c r hr
  rw [get?_fail] at hr
  split at hr
  · rename_i hc
    exact Or.inr ⟨hf c hc, code, hr⟩
  · exact Or.inl hr

lemma LiteralsShown.refresh {policy : Policy} (h : s.LiteralsShown) :
    (s.refresh policy id).LiteralsShown := by
  intro c r hr hl
  rw [get?_refresh] at hr
  split at hr
  · obtain ⟨r', -, rfl⟩ := Option.map_eq_some_iff.mp hr
    have hl : Raw.isFormula r'.raw = false := hl
    rw [Record.apply, evaluate, Raw.evaluate_literal hl]
    rfl
  · exact h c r hr hl

lemma LiteralsShown.settle {policy : Policy} (h : s.LiteralsShown) (cap : ℕ) :
    (s.settle policy cap ids).1.LiteralsShown :=
  settle_induction cap h fun _ _ _ ht => ht.refresh

end Sheet

end Literals

namespace Document

variable {d : Document} {id c x : Cell} {raw : String} {ids : List Cell} {op : Operation}

lemma Mirrors.isFormula_of_edge (h : Mirrors d) (hc : d.graph.Edge c x) :
    d.sheet.isFormula c = true :=
  Sheet.isFormula_of_mentions (h.reads_mentioned hc)

lemma Mirrors.isFormula_of_leadsToCycle (h : Mirrors d) (hc : LeadsToCycle d.graph.Edge c) :
    d.sheet.isFormula c = true := by
  obtain ⟨x, hcx, -⟩ := leadsToCycle_iff_step.mp hc
  exact h.isFormula_of_edge hcx

structure Consistent (d : Document) : Prop where
  mirrors : Mirrors d
  literals : d.sheet.LiteralsShown

lemma consistent_empty (settings : Settings) : Consistent (empty settings) :=
  ⟨mirrors_empty settings, Sheet.literalsShown_empty⟩

lemma Consistent.refresh (h : Consistent d) : Consistent (d.refresh ids).1 := by
  refine ⟨h.mirrors.congr alike_refresh, ?_⟩
  obtain ⟨hcyclic, -⟩ := mem_partition d.graph ids
  rw [Document.refresh]
  dsimp only
  refine (h.literals.fail fun c hc => ?_).settle _
  exact h.mirrors.isFormula_of_leadsToCycle ((hcyclic c).mp hc).2

lemma Consistent.evaluateCell (h : Consistent d) : Consistent (d.evaluateCell id) := by
  refine ⟨h.mirrors.congr alike_evaluateCell, ?_⟩
  rw [Document.evaluateCell]
  dsimp only
  split
  · rename_i hc
    refine h.literals.fail fun c hm => ?_
    rw [List.mem_singleton] at hm
    subst hm
    exact h.mirrors.isFormula_of_leadsToCycle (Graph.reachesCycle_iff.mp hc)
  · exact h.literals.refresh

lemma Consistent.entered (h : Consistent d) (hb : Raw.isBlank raw = false) :
    Consistent (d.entered id raw) := by
  refine ⟨h.mirrors.entered hb, ?_⟩
  rw [entered_sheet]
  exact h.literals.write

lemma Consistent.cleared (h : Consistent d) : Consistent (d.cleared id) := by
  refine ⟨h.mirrors.cleared, h.literals.of_failed fun c r hr => Or.inl ?_⟩
  exact (Option.ite_none_left_eq_some.mp (Sheet.get?_clear.symm.trans hr)).2

lemma Consistent.delete (h : Consistent d) : Consistent (d.delete ids).1 := by
  refine ⟨h.mirrors.deleteCells, h.literals.of_failed fun c r hr => ?_⟩
  rw [get?_deleteCells, Option.ite_none_left_eq_some] at hr
  obtain ⟨-, hr⟩ := hr
  split at hr
  · rename_i hi
    obtain ⟨-, x, -, hcx⟩ := mem_invalid.mp hi
    obtain ⟨y, hcy, -⟩ := TransGen.head'_iff.mp hcx
    exact Or.inr ⟨h.mirrors.isFormula_of_edge hcy, _, hr⟩
  · exact Or.inl hr

lemma Consistent.connected (h : Consistent d) : Consistent d.connected := by
  refine ⟨h.mirrors.connected, ?_⟩
  rw [connected_sheet]
  exact h.literals

lemma Consistent.loaded (h : Consistent d) (cells : List (Cell × String)) :
    Consistent { d with sheet := d.sheet.enter cells }.connected := by
  refine ⟨h.mirrors.loaded, ?_⟩
  rw [connected_sheet]
  exact h.literals.enter cells

lemma Consistent.perform (h : Consistent d) : Consistent (d.perform op) := by
  refine perform_cases (motive := Consistent) d op
    (fun id raw _ hb => ?_) (fun id _ => ?_) (fun ids _ => h.delete) (fun cells _ => ?_) ?_
  · rw [write_of_nonblank hb]
    exact (h.entered hb).evaluateCell.refresh
  · rw [clear_eq]
    split
    · exact h.cleared.refresh
    · exact h.cleared
  · exact (h.loaded cells).refresh
  · exact h.connected.refresh

lemma Consistent.performAll (h : Consistent d) (ops : List Operation) :
    Consistent (d.performAll ops) := by
  induction ops generalizing d with
  | nil => exact h
  | cons op ops ih => exact ih h.perform

/-- After any operations on an empty document, a cell reads those references of its record that are
not deleted and nothing but its references. A cell without a record reads nothing, no cell with one
is deleted, errors are shown by their codes and literals by their texts. -/
theorem consistent_of_operations (settings : Settings) (ops : List Operation) :
    let d := (empty settings).performAll ops
    (∀ c r, d.sheet.get? c = some r →
        (∀ x ∈ Raw.references r.raw, x ∉ d.sheet.deleted → x ∈ d.graph.reads c) ∧
          ∀ x ∈ d.graph.reads c, x ∈ Raw.references r.raw) ∧
      (∀ c, d.sheet.get? c = none → d.graph.reads c = ∅) ∧
      (∀ c, d.sheet.get? c = none ∨ c ∉ d.sheet.deleted) ∧
      ∀ c r, d.sheet.get? c = some r →
        (∀ code, r.error? = some code → r.value = code.text) ∧
          (Raw.isFormula r.raw = false → r.value = r.raw ∧ r.error? = none) := by
  intro d
  obtain ⟨hm, hl⟩ : Consistent d := (consistent_empty settings).performAll ops
  refine ⟨fun c r hr => ⟨fun x hx hd => ?_, fun x hx => ?_⟩, fun c hc => ?_, fun c => ?_,
    fun c r hr => ⟨fun code => Record.value_of_error?, fun hf => ?_⟩⟩
  · exact hm.mentioned_reads ⟨r.raw, Sheet.text?_of_get? hr, hx⟩ hd
  · exact (Sheet.mentions_iff (Sheet.text?_of_get? hr)).mp (hm.reads_mentioned hx)
  · refine Std.ExtTreeSet.eq_empty_iff_forall_not_mem.mpr fun x hx => ?_
    obtain ⟨raw, hraw, -⟩ := hm.reads_mentioned hx
    simp [Sheet.text?_eq_none.mpr hc] at hraw
  · by_cases hd : c ∈ d.sheet.deleted
    · exact Or.inl (Sheet.text?_eq_none.mp (hm.tidy.deleted_absent c hd))
    · exact Or.inr hd
  · have hs : r.shown = .text r.raw := hl c r hr hf
    exact ⟨by rw [Record.value, hs], by rw [Record.error?, hs]⟩

theorem consistent_of_deletion :
    let d := (empty .standard).performAll
      [.load [(a1, "1"), (b1, "=A1+C1"), (c1, "x")], .delete [a1]]
    c1 ∈ d.graph.reads b1 ∧ d.graph.reads a1 = ∅ ∧
      ∃ r, d.sheet.get? c1 = some r ∧ r.value = "x" ∧ r.error? = none := by
  intro d
  obtain ⟨hread, hnone, -, hshown⟩ := consistent_of_operations .standard
    [.load [(a1, "1"), (b1, "=A1+C1"), (c1, "x")], .delete [a1]]
  have hdeleted : c1 ∉ d.sheet.deleted := by
    refine mt mem_deleted_deleteCells.mp (not_or.mpr ⟨by decide, fun hc => ?_⟩)
    exact Sheet.not_mem_deleted_enter_empty (sameTexts_load.2 ▸ hc)
  have ha : d.sheet.get? a1 = none :=
    get?_deleteCells.trans (if_pos (List.mem_singleton_self a1))
  have hb : d.sheet.text? b1 = some "=A1+C1" :=
    text?_performAll_load (by decide) (by simp) (by decide +kernel)
      (by simp [Operation.Rewrites, a1, b1])
  have hc : d.sheet.text? c1 = some "x" :=
    text?_performAll_load (by decide) (by simp) (by decide +kernel)
      (by simp [Operation.Rewrites, a1, c1])
  obtain ⟨rb, hrb, hraw⟩ := Sheet.exists_of_text? hb
  obtain ⟨rc, hrc, hliteral⟩ := Sheet.exists_of_text? hc
  refine ⟨(hread b1 rb hrb).1 c1 ?_ hdeleted, hnone a1 ha, rc, hrc, ?_⟩
  · rw [hraw]
    decide +kernel
  · have hf : Raw.isFormula rc.raw = false := by
      rw [hliteral]
      decide +kernel
    exact hliteral ▸ (hshown c1 rc hrc).2 hf

end Document

end Spreadsheet
