import Spreadsheet.Proofs.Dependency.Changes
import Spreadsheet.Proofs.Document.Consistency
import Spreadsheet.Proofs.Document.Errors

/-! A record that was evaluated once shows an error if its text mentions a deleted cell. -/

namespace Spreadsheet

open Relation
open Cell (a1 b2 c1)

namespace Sheet

variable {s t : Sheet} {id c : Cell} {policy : Policy} {ids : List Cell} {code : CellError}

def Warns (s : Sheet) (c : Cell) : Prop :=
  ∀ r, s.get? c = some r → ∀ x ∈ Raw.references r.raw, x ∈ s.deleted → ∃ code, r.shown = .error code

lemma warns_of_get?_eq_none (h : s.get? c = none) : s.Warns c := by
  intro r hr
  rw [h] at hr
  cases hr

lemma Warns.of_get? (h : s.Warns c) (hr : t.get? c = s.get? c)
    (hd : ∀ r, s.get? c = some r → ∀ x ∈ Raw.references r.raw, x ∈ t.deleted → x ∈ s.deleted) :
    t.Warns c := by
  intro r ht x hx hxd
  rw [hr] at ht
  exact h r ht x hx (hd r ht x hx hxd)

lemma warns_of_map_fail (h : t.get? c = (s.get? c).map (·.fail code)) : t.Warns c := by
  intro r hr _ _ _
  rw [h] at hr
  obtain ⟨r', -, rfl⟩ := Option.map_eq_some_iff.mp hr
  exact ⟨code, rfl⟩

lemma Tidy.warns_refresh (ht : s.Tidy) (h : c = id ∨ s.Warns c) :
    (s.refresh policy id).Warns c := by
  have hd : (s.refresh policy id).deleted = s.deleted := sameTexts_refresh.2
  by_cases hc : id = c
  · intro r hr x hx hxd
    rw [get?_refresh, if_pos hc] at hr
    rw [hd] at hxd
    obtain ⟨r', -, rfl⟩ := Option.map_eq_some_iff.mp hr
    obtain ⟨code, he⟩ : ∃ code, s.evaluate policy r'.raw = .error code :=
      evaluate_of_reading hx (ht.reading_deleted hxd)
    exact ⟨code, congrArg Shown.ofResult he⟩
  · refine (h.resolve_left (Ne.symm hc)).of_get? ?_ fun _ _ x _ hx => hd ▸ hx
    rw [get?_refresh, if_neg hc]

lemma Tidy.warns_settle {cap : ℕ} (ht : s.Tidy) (hcap : 0 < cap) (hc : c ∈ ids) :
    (s.settle policy cap ids).1.Warns c :=
  settle_attains hcap hc (fun _ hs => (ht.congr hs).warns_refresh (Or.inl rfl))
    fun _ _ hs h => (ht.congr hs).warns_refresh (Or.inr h)

end Sheet

namespace Document

variable {d e : Document} {id c : Cell} {raw : String} {ids : List Cell} {op : Operation}

section Operations

lemma warns_refresh (ht : d.sheet.Tidy) (hcap : 0 < d.settings.maxPasses)
    (h : c ∉ ids → d.sheet.Warns c) : (d.refresh ids).1.sheet.Warns c := by
  obtain ⟨-, hacyclic⟩ := mem_partition d.graph ids
  by_cases hc : c ∈ ids
  · by_cases hcycle : LeadsToCycle d.graph.Edge c
    · exact Sheet.warns_of_map_fail (get?_refresh_cyclic hc hcycle)
    · exact (ht.congr Sheet.sameTexts_fail).warns_settle hcap ((hacyclic c).mpr ⟨hc, hcycle⟩)
  · refine (h hc).of_get? (get?_refresh_of_not_mem hc) fun _ _ x _ hx => ?_
    have hd : (d.refresh ids).1.sheet.deleted = d.sheet.deleted := alike_refresh.texts.2
    exact hd ▸ hx

lemma warns_evaluateCell (ht : d.sheet.Tidy) (h : c ≠ id → d.sheet.Warns c) :
    (d.evaluateCell id).sheet.Warns c := by
  rw [evaluateCell]
  dsimp only
  split
  · by_cases hc : c = id
    · have hm : c ∈ [id] := List.mem_singleton.mpr hc
      exact Sheet.warns_of_map_fail (Sheet.get?_fail.trans (if_pos hm))
    · refine (h hc).of_get? (Sheet.get?_fail.trans (if_neg (by simpa using hc))) ?_
      exact fun _ _ x _ hx => Sheet.sameTexts_fail.2 ▸ hx
  · exact ht.warns_refresh (or_iff_not_imp_left.mpr h)

lemma EditedAt.warns (h : EditedAt id d e) (hc : c ≠ id) (hw : d.sheet.Warns c) :
    e.sheet.Warns c := by
  refine hw.of_get? (h.get? c hc) fun _ _ x _ hx => (h.deleted x ?_).mp hx
  rintro rfl
  exact h.unmarked hx

structure Guarded (d : Document) : Prop where
  mirrors : Mirrors d
  warns : ∀ c, d.sheet.Warns c

lemma guarded_empty (settings : Settings) : Guarded (empty settings) :=
  ⟨mirrors_empty settings, fun _ => Sheet.warns_of_get?_eq_none rfl⟩

lemma Guarded.delete (h : Guarded d) : Guarded (d.delete ids).1 := by
  refine ⟨h.mirrors.deleteCells, fun c => ?_⟩
  by_cases hc : c ∈ ids
  · exact Sheet.warns_of_get?_eq_none (get?_deleteCells.trans (if_pos hc))
  by_cases hi : c ∈ (d.delete ids).2
  · exact Sheet.warns_of_map_fail
      (get?_deleteCells.trans ((if_neg hc).trans (if_pos hi)))
  · refine (h.warns c).of_get? (get?_deleteCells.trans ((if_neg hc).trans (if_neg hi)))
      fun r hr x hx hxd => ?_
    -- What was mentioned without being deleted was read, and its readers are invalid now.
    by_contra hd
    have hxi : x ∈ ids := (mem_deleted_deleteCells.mp hxd).resolve_right hd
    have hcx : d.graph.Edge c x :=
      h.mirrors.mentioned_reads ⟨r.raw, Sheet.text?_of_get? hr, hx⟩ hd
    exact hi (mem_invalid.mpr ⟨hc, x, hxi, .single hcx⟩)

lemma Guarded.write (h : Guarded d) (hcap : 0 < d.settings.maxPasses)
    (hb : Raw.isBlank raw = false) : Guarded (d.write id raw).1 := by
  have hm : Mirrors (d.entered id raw) := h.mirrors.entered hb
  have hs : ((d.entered id raw).evaluateCell id).settings = d.settings :=
    alike_evaluateCell.settings.trans entered_settings
  rw [write_of_nonblank hb]
  refine ⟨hm.congr (alike_refreshReaders.trans alike_evaluateCell), fun c => ?_⟩
  refine warns_refresh (hm.congr alike_evaluateCell).tidy (hs.symm ▸ hcap) fun _ => ?_
  exact warns_evaluateCell hm.tidy fun hc => editedAt_entered.warns hc (h.warns c)

lemma Guarded.clear (h : Guarded d) (hcap : 0 < d.settings.maxPasses) : Guarded (d.clear id) := by
  have hcleared : ∀ c, (d.cleared id).sheet.Warns c := by
    intro c
    by_cases hc : c = id
    · exact Sheet.warns_of_get?_eq_none (Sheet.get?_clear.trans (if_pos hc))
    · exact (h.warns c).of_get? (Sheet.get?_clear.trans (if_neg hc)) fun _ _ _ _ hx => hx
  refine ⟨h.mirrors.cleared.congr alike_clear, fun c => ?_⟩
  rw [clear_eq]
  split
  · exact warns_refresh h.mirrors.cleared.tidy hcap fun _ => hcleared c
  · exact hcleared c

lemma guarded_refreshAll (hm : Mirrors d.connected) (hcap : 0 < d.settings.maxPasses) :
    Guarded d.refreshAll.1 := by
  refine ⟨hm.congr alike_refresh, fun c => ?_⟩
  refine warns_refresh hm.tidy (connected_settings.symm ▸ hcap) fun hc => ?_
  have ht : d.connected.sheet.text? c = none := by
    rw [connected_sheet]
    exact Sheet.not_mem_ids.mp hc
  exact Sheet.warns_of_get?_eq_none (Sheet.text?_eq_none.mp ht)

lemma Guarded.perform (h : Guarded d) (hcap : 0 < d.settings.maxPasses) :
    Guarded (d.perform op) :=
  perform_cases d op (fun _ _ _ hb => h.write hcap hb) (fun _ _ => h.clear hcap)
    (fun _ _ => h.delete) (fun _ _ => guarded_refreshAll h.mirrors.loaded hcap)
    (guarded_refreshAll h.mirrors.connected hcap)

lemma Guarded.performAll (h : Guarded d) (hcap : 0 < d.settings.maxPasses)
    (ops : List Operation) : Guarded (d.performAll ops) := by
  induction ops generalizing d with
  | nil => exact h
  | cons op ops ih => exact ih (h.perform hcap) (perform_settings.symm ▸ hcap)

end Operations

section Lines

structure Vacated (p : Cell → Prop) (d : Document) : Prop where
  unused : ∀ c, p c → d.sheet.get? c = none ∧ c ∉ d.graph.cells
  warned : ∀ c r x, d.sheet.get? c = some r → x ∈ Raw.references r.raw → p x →
    ∃ code, r.error? = some code

lemma Guarded.vacated (h : Guarded d) (p : Cell → Bool) :
    Vacated (p · = true) (d.delete (d.cellsWhere p)).1 := by
  have hunused : ∀ c, p c = true → c ∉ d.cellsWhere p →
      d.sheet.get? c = none ∧ c ∉ d.graph.cells := by
    intro c hp hc
    rw [mem_cellsWhere, and_iff_left hp, not_or, Sheet.not_mem_ids, Sheet.text?_eq_none] at hc
    exact hc
  generalize d.cellsWhere p = ids at hunused ⊢
  have hread : ∀ c x, p x = true → d.graph.Edge c x → x ∈ ids := by
    intro c x hp he
    by_contra hx
    exact (hunused x hp hx).2 (Graph.mem_cells_iff_edge.mpr ⟨c, Or.inr he⟩)
  refine ⟨fun c hp => ⟨?_, fun hc => ?_⟩, fun c r x hr hx hp => ?_⟩
  · by_cases hc : c ∈ ids
    · exact get?_deleteCells.trans (if_pos hc)
    · simp [get?_deleteCells, (hunused c hp hc).1]
  · have hids : c ∉ ids ∧ c ∈ d.graph.cells := by
      obtain ⟨x, he | he⟩ := Graph.mem_cells_iff_edge.mp hc
      · obtain ⟨hci, -, he⟩ := edge_deleteCells.mp he
        exact ⟨hci, Graph.mem_cells_iff_edge.mpr ⟨x, Or.inl he⟩⟩
      · obtain ⟨-, hci, he⟩ := edge_deleteCells.mp he
        exact ⟨hci, Graph.mem_cells_iff_edge.mpr ⟨x, Or.inr he⟩⟩
    exact (hunused c hp hids.1).2 hids.2
  · have hcx : d.sheet.Mentions c x :=
      (mentions_deleteCells.mp ⟨r.raw, Sheet.text?_of_get? hr, hx⟩).2
    have hd : x ∈ (d.delete ids).1.sheet.deleted := by
      rw [mem_deleted_deleteCells, or_iff_not_imp_right]
      exact fun hxd => hread c x hp (h.mirrors.mentioned_reads hcx hxd)
    obtain ⟨code, hs⟩ := h.delete.warns c r hr x hx hd
    exact ⟨code, Record.error?_eq_some.mpr hs⟩

theorem deletion_vacates_lines (settings : Settings) (ops : List Operation) (n : ℕ)
    (hcap : 1 ≤ settings.maxPasses) :
    let d := (empty settings).performAll ops
    Vacated (·.row = n) (d.deleteRow n).1 ∧ Vacated (·.col = n) (d.deleteColumn n).1 := by
  intro d
  have h : Guarded d := (guarded_empty settings).performAll hcap ops
  have hrow := h.vacated (·.row = n)
  have hcol := h.vacated (·.col = n)
  simp only [decide_eq_true_eq] at hrow hcol
  exact ⟨hrow, hcol⟩

theorem deletion_vacates_lines_of_unwritten :
    let settings : Settings := { Settings.standard with maxPasses := 1 }
    let d := (empty settings).performAll [.load [(b2, "=A1+C1")], .delete [a1]]
    let e := (d.deleteRow 1).1
    1 ≤ settings.maxPasses ∧ d.sheet.get? c1 = none ∧ e.sheet.get? a1 = none ∧ c1 ∉ e.graph.cells ∧
      ∃ r code, e.sheet.get? b2 = some r ∧ r.raw = "=A1+C1" ∧ r.error? = some code := by
  intro settings d e
  have hcap : 1 ≤ settings.maxPasses := le_rfl
  have hrow : Vacated (·.row = 1) e :=
    (deletion_vacates_lines settings [.load [(b2, "=A1+C1")], .delete [a1]] 1 hcap).1
  have h₀ : ∀ x, x ∉ [a1, b2] → (empty settings).sheet.text? x = none := fun _ _ => rfl
  have ho : ∀ op ∈ [Operation.load [(b2, "=A1+C1")], .delete [a1]], ∀ x, op.Rewrites x →
      x ∈ [a1, b2] := by
    simp only [List.forall_mem_cons, Operation.Rewrites]
    grind
  have hc : d.sheet.get? c1 = none :=
    Sheet.text?_eq_none.mp (absent_performAll h₀ ho c1 (by decide))
  have he : e = (empty settings).performAll
      [.load [(b2, "=A1+C1")], .delete [a1], .deleteRow 1] := rfl
  have hb : e.sheet.text? b2 = some "=A1+C1" := by
    rw [he]
    exact text?_performAll_load (by decide) (by simp) (by decide +kernel)
      (by simp [Operation.Rewrites, a1, b2])
  clear_value e
  obtain ⟨r, hr, hraw⟩ := Sheet.exists_of_text? hb
  obtain ⟨code, hcode⟩ := hrow.warned b2 r c1 hr (by rw [hraw]; decide +kernel) rfl
  exact ⟨hcap, hc, (hrow.unused a1 rfl).1, (hrow.unused c1 rfl).2, r, code, hr, hraw, hcode⟩

end Lines

end Document

end Spreadsheet
