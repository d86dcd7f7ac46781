import Spreadsheet.Proofs.Document.Consistency
import Spreadsheet.Proofs.Document.Errors

/-! Which error a formula shows that reads a deleted cell may change: evaluation stops at the first
one it meets, and a cycle goes before the others. -/

namespace Spreadsheet

open Relation
open Cell (a1 b1 c1)

/-- The text would have a value if the deleted cells had suitable ones. -/
def Sheet.LacksDeleted (s : Sheet) (policy : Policy) (raw : String) : Prop :=
  ∃ (lookup : Lookup) (v : Value),
    (∀ x, x ∉ s.deleted → lookup x = s.reading x) ∧ Raw.evaluate policy lookup raw = .ok v

section Evaluation

variable {s : Sheet} {c t : Cell} (policy : Policy) {raw : String}

lemma Sheet.Tidy.evaluate_deleted (h : s.Tidy) (ht : t ∈ s.deleted)
    (hm : t ∈ Raw.references raw) : ∃ code, s.evaluate policy raw = .error code :=
  Sheet.evaluate_of_reading hm (h.reading_deleted ht)

lemma Sheet.Tidy.evaluate_lacksDeleted (h : s.Tidy) (ht : t ∈ s.deleted)
    (hm : t ∈ Raw.references raw) (hl : s.LacksDeleted policy raw) :
    s.evaluate policy raw = .error .deletedCell := by
  obtain ⟨lookup, v, hx, hv⟩ := hl
  have hs : Outcome.SameUpTo (· = .deletedCell) (Raw.evaluate policy lookup raw)
      (s.evaluate policy raw) := by
    refine Raw.evaluate_sameUpTo fun x _ => ?_
    by_cases hd : x ∈ s.deleted
    · exact Or.inr ⟨.deletedCell, rfl, h.reading_deleted hd⟩
    · exact Or.inl (hx x hd).symm
  rcases hs with hs | ⟨code, rfl, hs⟩
  · obtain ⟨code, he⟩ := h.evaluate_deleted policy ht hm
    rw [hs, hv] at he
    cases he
  · exact hs

lemma Sheet.LiteralsShown.reading (h : s.LiteralsShown) (hc : s.text? c = some raw)
    (hf : Raw.isFormula raw = false) (hne : raw ≠ "") : s.reading c = .text raw := by
  obtain ⟨r, hr, rfl⟩ := Sheet.exists_of_text? hc
  simp [Sheet.reading, hr, Record.reading, h c r hr hf, hne]

lemma Sheet.not_leadsToCycle_of_literals (h : ∀ x, s.Mentions c x → s.isFormula x = false) :
    ¬ LeadsToCycle s.Mentions c := by
  have hstuck : ∀ {x y}, s.Mentions c x → ¬ s.Mentions x y := fun hx hy => 
    absurd (Sheet.isFormula_of_mentions hy) (by simp [h _ hx])
  rintro ⟨y, hcy, hyy⟩
  obtain ⟨z, hyz, hzy⟩ := TransGen.head'_iff.mp hyy
  rcases hcy.cases_head with rfl | ⟨x, hcx, hxy⟩
  · rcases hzy.cases_head with rfl | ⟨w, hzw, -⟩
    · exact hstuck hyz hyz
    · exact hstuck hyz hzw
  · rcases hxy.cases_head with rfl | ⟨w, hxw, -⟩
    · exact hstuck hcx hyz
    · exact hstuck hcx hxw

end Evaluation

namespace Document

variable {d : Document} {c t : Cell} {r : Record}

lemma Coherent.shown_deleted (h : Coherent d) (hr : d.sheet.get? c = some r)
    (ht : t ∈ d.sheet.deleted) (hm : t ∈ Raw.references r.raw) :
    ∃ code, r.shown = .error code ∧
      (code = .deletedCell ∨ (code = .cycle ∧ LeadsToCycle d.sheet.Mentions c) ∨
        d.sheet.evaluate d.settings.policy r.raw = .error code) ∧
      (¬ LeadsToCycle d.sheet.Mentions c → d.sheet.LacksDeleted d.settings.policy r.raw →
        code = .deletedCell) := by
  have htidy : d.sheet.Tidy := h.mirrors.tidy
  cases h.upToDate c r hr with
  | broken _ hs => exact ⟨.deletedCell, hs, Or.inl rfl, fun _ _ => rfl⟩
  | cyclic hc hs =>
    have hcycle : LeadsToCycle d.sheet.Mentions c := h.mirrors.leadsToCycle_iff.mp hc
    exact ⟨.cycle, hs, Or.inr (Or.inl ⟨rfl, hcycle⟩), fun hn => absurd hcycle hn⟩
  | evaluated _ hs =>
    obtain ⟨code, he⟩ := htidy.evaluate_deleted d.settings.policy ht hm
    rw [he] at hs
    refine ⟨code, hs, Or.inr (Or.inr he), fun _ hl => ?_⟩
    rw [htidy.evaluate_lacksDeleted _ ht hm hl] at he
    cases he
    rfl

/-- A formula that reads a deleted cell keeps an error through all later operations, unless they
rewrite it or write the cell. It keeps the error of deleted cells as long as it reaches no cycle and
nothing else is wrong with it. -/
theorem error_persists (settings : Settings) (d e : Document) (c t : Cell) (r : Record)
    (h : Run (fun _ => True) (empty settings) d) (hr : d.sheet.get? c = some r)
    (ht : t ∈ d.sheet.deleted) (hm : t ∈ Raw.references r.raw)
    (hlater : Run (fun op => ¬ op.Rewrites c ∧ ¬ op.Writes t) d e) :
    ∃ r' code, e.sheet.get? c = some r' ∧ r'.raw = r.raw ∧ r'.shown = .error code ∧
      (code = .deletedCell ∨ (code = .cycle ∧ LeadsToCycle e.sheet.Mentions c) ∨
        e.sheet.evaluate e.settings.policy r.raw = .error code) ∧
      (¬ LeadsToCycle e.sheet.Mentions c → e.sheet.LacksDeleted e.settings.policy r.raw →
        code = .deletedCell) := by
  have he : Coherent e := hlater.coherent (h.coherent (coherent_empty settings))
  have htext : e.sheet.text? c = some r.raw :=
    (hlater.text? fun _ hp => hp.1).trans (Sheet.text?_of_get? hr)
  have hte : t ∈ e.sheet.deleted := hlater.mem_deleted (fun _ hp => hp.2) ht
  obtain ⟨r', hr', hraw⟩ := Sheet.exists_of_text? htext
  obtain ⟨code, hs, hcode, hlacks⟩ := he.shown_deleted hr' hte (hraw ▸ hm)
  rw [hraw] at hcode hlacks
  exact ⟨r', code, hr', hraw, hs, hcode, hlacks⟩

lemma run_delete_write :
    let d := (empty .standard).performAll [.load [(c1, "x"), (b1, "=C1+A1")], .delete [a1]]
    Run (fun _ => True) (empty .standard) d ∧
      Run (fun op => ¬ op.Rewrites b1 ∧ ¬ op.Writes a1) d (d.performAll [.write c1 "y"]) := by
  intro d
  have h₀ : ∀ x, x ∉ [a1, b1, c1] → (empty .standard).sheet.text? x = none := fun _ _ => rfl
  have hlen : [a1, b1, c1].length < Settings.standard.maxPasses := show 3 < 1000 by decide
  have ho : ∀ op ∈ [Operation.load [(c1, "x"), (b1, "=C1+A1")], .delete [a1]], ∀ x,
      op.Rewrites x → x ∈ [a1, b1, c1] := by
    simp only [List.forall_mem_cons, Operation.Rewrites]
    grind
  have hd : Run (fun _ => True) (empty .standard) d := .performAll h₀ hlen (by simp) ho
  refine ⟨hd, .performAll (absent_performAll h₀ ho) (hd.settings ▸ hlen) ?_ ?_⟩
  · have hb : c1 ≠ b1 := by decide
    have ha : c1 ≠ a1 := by decide
    simp [Operation.Rewrites, Operation.Writes, hb, ha]
  · simp [Operation.Rewrites]

lemma get?_delete_mentioned :
    let d := (empty .standard).performAll [.load [(c1, "x"), (b1, "=C1+A1")], .delete [a1]]
    d.sheet.get? b1 = some ⟨"=C1+A1", .error .deletedCell⟩ ∧ a1 ∈ d.sheet.deleted ∧
      a1 ∈ Raw.references "=C1+A1" := by
  intro d
  have hm : a1 ∈ Raw.references "=C1+A1" := by decide +kernel
  refine ⟨?_, mem_deleted_deleteCells.mpr (Or.inl (List.mem_singleton_self a1)), hm⟩
  set f := ((empty .standard).load [(c1, "x"), (b1, "=C1+A1")]).1
  have htext : f.sheet.text? b1 = some "=C1+A1" :=
    text?_load (by decide) (by simp) (by decide +kernel)
  have hread : a1 ∈ f.graph.reads b1 := by decide +kernel
  have hinvalid : b1 ∈ (f.delete [a1]).2 :=
    mem_invalid.mpr ⟨by decide, a1, List.mem_singleton_self a1, .single hread⟩
  obtain ⟨r, hr, hraw⟩ := Sheet.exists_of_text? htext
  change (f.delete [a1]).1.sheet.get? b1 = _
  rw [get?_deleteCells, if_neg (by decide), if_pos hinvalid, hr, Option.map_some, Record.fail, hraw]

theorem error_persists_after_write :
    let d := (empty .standard).performAll [.load [(c1, "x"), (b1, "=C1+A1")], .delete [a1]]
    ∃ r code, (d.performAll [.write c1 "y"]).sheet.get? b1 = some r ∧ r.raw = "=C1+A1" ∧
      r.shown = .error code := by
  intro d
  obtain ⟨hd, hlater⟩ := run_delete_write
  obtain ⟨hr, ht, hm⟩ := get?_delete_mentioned
  obtain ⟨r, code, hr', hraw, hs, -⟩ := error_persists .standard d _ b1 a1 _ hd hr ht hm hlater
  exact ⟨r, code, hr', hraw, hs⟩

lemma Coherent.evaluated_write {id : Cell} {raw : String} (h : Coherent d)
    (hb : Raw.isBlank raw = false) (ha : Ample (d.write id raw).1) (hne : c ≠ id)
    (hr : (d.write id raw).1.sheet.get? c = some r) (hid : id ∈ Raw.references r.raw)
    (hl : ∀ x ∈ Raw.references r.raw, (d.write id raw).1.sheet.isFormula x = false) :
    r.shown = Shown.ofResult
      ((d.write id raw).1.sheet.evaluate (d.write id raw).1.settings.policy r.raw) := by
  have hd : Coherent (d.perform (.write id raw)) := h.perform ha
  have hm : Mirrors (d.write id raw).1 := hd.mirrors
  have htext := Sheet.text?_of_get? hr
  obtain ⟨written, hw, -⟩ := Sheet.exists_of_text? (text?_write_self hb)
  have hedge : (d.write id raw).1.graph.Edge c id :=
    hm.mentioned_reads ((Sheet.mentions_iff htext).mpr hid) (not_deleted hm hw)
  have hcycle : ¬ LeadsToCycle (d.write id raw).1.graph.Edge c :=
    mt hm.leadsToCycle_iff.mp (Sheet.not_leadsToCycle_of_literals fun x hx =>
      hl x ((Sheet.mentions_iff htext).mp hx))
  have he : Mirrors ((d.entered id raw).evaluateCell id) :=
    (h.mirrors.entered hb).congr alike_evaluateCell
  rw [write_of_nonblank hb] at ha hr hedge hcycle ⊢
  have hcap : Ample ((d.entered id raw).evaluateCell id) := ha.congr alike_refreshReaders.symm
  exact settled_acyclic he hcap.le
    (Std.ExtTreeSet.mem_toList.mpr (Graph.mem_downstream_singleton.mpr ⟨hne, .single hedge⟩))
    hcycle r hr

lemma evaluate_text_operand {policy : Policy} {lookup : Lookup} (h : lookup c1 = .text "y") :
    Raw.evaluate policy lookup "=C1+A1" = .error .badValue := by
  have hts : Formula.tokens policy (Text.trim "C1+A1".toList) =
      .ok [.cell c1, .operator .add, .cell a1] := by
    cases policy <;> decide +kernel
  have hf : Raw.formula? "=C1+A1" = some "C1+A1".toList := by decide +kernel
  have hop : Reduction.operand (.text "y") = .error .badValue := by decide +kernel
  have hreduce : Formula.reduce lookup [.cell c1, .operator .add, .cell a1] = .error .badValue := by
    change (do return Reduced.arithmetic (← Reduction.arithmetic lookup _)) = _
    rw [Reduction.arithmetic_cell, h, hop]
    rfl
  rw [Raw.evaluate, hf]
  change Formula.value policy lookup "C1+A1".toList = _
  rw [Formula.value, hts]
  change (do Formula.finish (← Formula.reduce lookup _)) = _
  rw [hreduce]
  rfl

theorem deletedCell_replaced :
    let d := (empty .standard).performAll [.load [(c1, "x"), (b1, "=C1+A1")], .delete [a1]]
    Run (fun _ => True) (empty .standard) d ∧ a1 ∈ Raw.references "=C1+A1" ∧ a1 ∈ d.sheet.deleted ∧
      d.sheet.get? b1 = some ⟨"=C1+A1", .error .deletedCell⟩ ∧
      Run (fun op => ¬ op.Rewrites b1 ∧ ¬ op.Writes a1) d (d.performAll [.write c1 "y"]) ∧
      (d.performAll [.write c1 "y"]).sheet.get? b1 = some ⟨"=C1+A1", .error .badValue⟩ := by
  intro d
  obtain ⟨hd, hlater⟩ := run_delete_write
  obtain ⟨hr, ht, hm⟩ := get?_delete_mentioned
  refine ⟨hd, hm, ht, hr, hlater, ?_⟩
  set e := d.performAll [.write c1 "y"]
  have ha : e.sheet.text? a1 = none := by
    have hmirrors : Mirrors e := (hlater.coherent (hd.coherent (coherent_empty .standard))).mirrors
    exact hmirrors.tidy.deleted_absent a1 (hlater.mem_deleted (fun _ hp => hp.2) ht)
  have hb : e.sheet.text? b1 = some "=C1+A1" :=
    (hlater.text? fun _ hp => hp.1).trans (Sheet.text?_of_get? hr)
  have hc : e.sheet.text? c1 = some "y" := text?_write_self (by decide +kernel)
  have hliteral : ∀ x ∈ Raw.references "=C1+A1", e.sheet.isFormula x = false := by
    intro x hx
    have hrefs : (Raw.references "=C1+A1").toList = [a1, c1] := by decide +kernel
    have hxs : x ∈ [a1, c1] := hrefs ▸ Std.ExtTreeSet.mem_toList.mpr hx
    simp only [List.mem_cons, List.not_mem_nil, or_false] at hxs
    rcases hxs with rfl | rfl
    · simp [Sheet.isFormula, ha]
    · rw [Sheet.isFormula, hc]
      decide +kernel
  have hread : e.sheet.reading c1 = .text "y" := by
    have hliterals : e.sheet.LiteralsShown := ((consistent_empty .standard).performAll
      [.load [(c1, "x"), (b1, "=C1+A1")], .delete [a1], .write c1 "y"]).literals
    exact hliterals.reading hc (by decide +kernel) (by decide)
  obtain ⟨r, hr', hraw⟩ := Sheet.exists_of_text? hb
  have hshown : r.shown = Shown.ofResult (e.sheet.evaluate e.settings.policy r.raw) :=
    (hd.coherent (coherent_empty .standard)).evaluated_write (by decide +kernel) hlater.ample
      (by decide) hr' (hraw ▸ by decide +kernel) fun x hx => hliteral x (hraw ▸ hx)
  rw [hraw, Sheet.evaluate, evaluate_text_operand hread] at hshown
  rw [hr', ← hraw]
  exact congrArg some (congrArg (Record.mk r.raw) hshown)

end Document

end Spreadsheet
