import Spreadsheet.Proofs.Document.Verdict

namespace Spreadsheet

inductive Operation
  | write (id : Cell) (raw : String)
  | clear (id : Cell)
  | delete (ids : List Cell)
  | deleteRow (row : ℕ)
  | deleteColumn (col : ℕ)
  | load (cells : List (Cell × String))
  | refreshAll

namespace Operation

def Writes (c : Cell) : Operation → Prop
  | write id raw => id = c ∧ Raw.isBlank raw = false
  | load cells => ∃ raw, (c, raw) ∈ cells ∧ Raw.isBlank raw = false
  | clear _ | delete _ | deleteRow _ | deleteColumn _ | refreshAll => False

def Rewrites (c : Cell) : Operation → Prop
  | write id _ | clear id => id = c
  | delete ids => c ∈ ids
  | deleteRow row => c.row = row
  | deleteColumn col => c.col = col
  | load cells => ∃ raw, (c, raw) ∈ cells ∧ Raw.isBlank raw = false
  | refreshAll => False

end Operation

namespace Document

variable {d e : Document} {op : Operation} {c : Cell}

def perform (d : Document) : Operation → Document
  | .write id raw => (d.write id raw).1
  | .clear id => d.clear id
  | .delete ids => (d.delete ids).1
  | .deleteRow row => (d.deleteRow row).1
  | .deleteColumn col => (d.deleteColumn col).1
  | .load cells => (d.load cells).1
  | .refreshAll => d.refreshAll.1

lemma mem_cellsWhere {p : Cell → Bool} :
    c ∈ d.cellsWhere p ↔ (c ∈ d.sheet.ids ∨ c ∈ d.graph.cells) ∧ p c = true := by
  simp [cellsWhere, Std.ExtTreeSet.mem_ofList, or_and_right]

lemma perform_cases {motive : Document → Prop} (d : Document) (op : Operation)
    (write : ∀ id raw, op = .write id raw → Raw.isBlank raw = false → motive (d.write id raw).1)
    (clear : ∀ id, op.Rewrites id → motive (d.clear id))
    (delete : ∀ ids, (∀ c ∈ ids, op.Rewrites c) → motive (d.delete ids).1)
    (load : ∀ cells, op = .load cells → motive (d.load cells).1)
    (refreshAll : motive d.refreshAll.1) : motive (d.perform op) := by
  cases op with
  | write id raw =>
    cases hb : Raw.isBlank raw with
    | true =>
      rw [perform, write_of_blank hb]
      exact clear id rfl
    | false => exact write id raw rfl hb
  | clear id => exact clear id rfl
  | delete ids => exact delete ids fun _ hc => hc
  | deleteRow row =>
    exact delete _ fun c hc => show c.row = row from of_decide_eq_true (mem_cellsWhere.mp hc).2
  | deleteColumn col =>
    exact delete _ fun c hc => show c.col = col from of_decide_eq_true (mem_cellsWhere.mp hc).2
  | load cells => exact load cells rfl
  | refreshAll => exact refreshAll

lemma alike_clear {id : Cell} : Alike (d.clear id) (d.cleared id) := by
  rw [clear_eq]
  split
  · exact alike_refreshReaders
  · exact .refl _

lemma alike_write {id : Cell} {raw : String} (h : Raw.isBlank raw = false) :
    Alike (d.write id raw).1 (d.entered id raw) := by
  rw [write_of_nonblank h]
  exact alike_refreshReaders.trans alike_evaluateCell

lemma text?_perform (h : ¬ op.Rewrites c) :
    (d.perform op).sheet.text? c = d.sheet.text? c := by
  refine perform_cases (motive := fun e => e.sheet.text? c = d.sheet.text? c) d op
    (fun id raw ho hb => ?_) (fun id ho => ?_) (fun ids ho => ?_) (fun cells ho => ?_) ?_
  · have hc : c ≠ id := fun hc => h (by simp [ho, Operation.Rewrites, hc])
    rw [(alike_write hb).texts.1, entered_sheet, Sheet.text?_write, if_neg hc]
  · have hc : c ≠ id := fun hc => h (hc ▸ ho)
    exact (alike_clear.texts.1 c).trans (Sheet.text?_clear.trans (if_neg hc))
  · rw [text?_deleteCells, if_neg fun hc => h (ho c hc)]
  · rw [sameTexts_load.1]
    refine Sheet.text?_enter_of_not_mem fun raw hm => ?_
    by_contra hb
    exact h (ho ▸ ⟨raw, hm, Bool.eq_false_of_not_eq_true hb⟩)
  · exact sameTexts_refreshAll.1 c

lemma text?_write_self {raw : String} (h : Raw.isBlank raw = false) :
    (d.write c raw).1.sheet.text? c = some raw := by
  rw [(alike_write h).texts.1, entered_sheet, Sheet.text?_write, if_pos rfl]

lemma text?_load {cells : List (Cell × String)} {raw : String} (hk : (cells.map Prod.fst).Nodup)
    (hm : (c, raw) ∈ cells) (hb : Raw.isBlank raw = false) :
    (d.load cells).1.sheet.text? c = some raw :=
  (sameTexts_load.1 c).trans (Sheet.text?_enter_of_mem hk hm hb)

lemma mem_deleted_perform (h : ¬ op.Writes c) (hc : c ∈ d.sheet.deleted) :
    c ∈ (d.perform op).sheet.deleted := by
  refine perform_cases (motive := fun e => c ∈ e.sheet.deleted) d op
    (fun id raw ho hb => ?_) (fun id ho => ?_) (fun ids ho => ?_) (fun cells ho => ?_) ?_
  · have hne : c ≠ id := fun hc => h (by simp [ho, Operation.Writes, hc, hb])
    rw [(alike_write hb).texts.2, entered_sheet]
    exact Sheet.mem_deleted_write.mpr ⟨hne, hc⟩
  · rw [alike_clear.texts.2]
    exact hc
  · exact mem_deleted_deleteCells.mpr (Or.inr hc)
  · rw [sameTexts_load.2]
    refine (Sheet.mem_deleted_enter_of_not_mem fun raw hm => ?_).mpr hc
    by_contra hb
    exact h (ho ▸ ⟨raw, hm, Bool.eq_false_of_not_eq_true hb⟩)
  · rw [sameTexts_refreshAll.2]
    exact hc

lemma perform_settings : (d.perform op).settings = d.settings := by
  refine perform_cases (motive := fun e => e.settings = d.settings) d op
    (fun id raw ho hb => ?_) (fun id ho => ?_) (fun ids ho => ?_) (fun cells ho => ?_) ?_
  · exact (alike_write hb).settings.trans entered_settings
  · exact alike_clear.settings
  · exact deleteCells_settings
  · exact alike_refresh.settings.trans connected_settings
  · exact alike_refresh.settings.trans connected_settings

lemma Mirrors.perform (h : Mirrors d) : Mirrors (d.perform op) := by
  refine perform_cases (motive := Mirrors) d op
    (fun id raw _ hb => ?_) (fun id _ => ?_) (fun ids _ => ?_) (fun cells _ => ?_) ?_
  · exact (h.entered hb).congr (alike_write hb)
  · exact h.cleared.congr alike_clear
  · exact h.deleteCells
  · exact h.loaded.congr alike_refresh
  · exact h.connected.congr alike_refresh

structure Coherent (d : Document) : Prop where
  mirrors : Mirrors d
  upToDate : UpToDate d

lemma coherent_empty (settings : Settings) : Coherent (empty settings) :=
  ⟨mirrors_empty settings, upToDate_empty settings⟩

lemma Coherent.perform (h : Coherent d) (ha : Ample (d.perform op)) : Coherent (d.perform op) := by
  refine ⟨h.mirrors.perform, ?_⟩
  revert ha
  refine perform_cases (motive := fun e => Ample e → UpToDate e) d op
    (fun id raw _ hb ha => ?_) (fun id _ ha => ?_) (fun ids _ _ => ?_)
    (fun cells _ ha => ?_) fun ha => ?_
  · exact upToDate_write h.mirrors h.upToDate hb ha
  · exact upToDate_clear h.mirrors h.upToDate ha
  · exact upToDate_deleteCells h.mirrors h.upToDate
  · exact upToDate_refreshAll h.mirrors.loaded ha
  · exact upToDate_refreshAll h.mirrors.connected ha

/-- A run of operations with a property. At any time there are fewer records than passes. -/
inductive Run (p : Operation → Prop) (d : Document) : Document → Prop
  | refl (ha : Ample d) : Run p d d
  | step {e : Document} (op : Operation) (h : Run p d e) (hp : p op) (ha : Ample (e.perform op)) :
    Run p d (e.perform op)

section Run

variable {p : Operation → Prop}

lemma Run.coherent (h : Run p d e) (hd : Coherent d) : Coherent e := by
  induction h with
  | refl => exact hd
  | step op _ _ ha ih => exact ih.perform ha

lemma Run.ample (h : Run p d e) : Ample e := by
  cases h with
  | refl ha => exact ha
  | step _ _ _ ha => exact ha

lemma Run.settings (h : Run p d e) : e.settings = d.settings := by
  induction h with
  | refl => rfl
  | step op _ _ _ ih => exact perform_settings.trans ih

lemma Run.text? (h : Run p d e) (hp : ∀ op, p op → ¬ op.Rewrites c) :
    e.sheet.text? c = d.sheet.text? c := by
  induction h with
  | refl => rfl
  | step op _ ho _ ih => exact (text?_perform (hp op ho)).trans ih

lemma Run.mem_deleted (h : Run p d e) (hp : ∀ op, p op → ¬ op.Writes c)
    (hc : c ∈ d.sheet.deleted) : c ∈ e.sheet.deleted := by
  induction h with
  | refl => exact hc
  | step op _ ho _ ih => exact mem_deleted_perform (hp op ho) ih

def performAll (d : Document) (ops : List Operation) : Document :=
  ops.foldl perform d

variable {cells : List Cell} {ops : List Operation}

lemma absent_performAll (h : ∀ c, c ∉ cells → d.sheet.text? c = none)
    (ho : ∀ op ∈ ops, ∀ c, op.Rewrites c → c ∈ cells) :
    ∀ c, c ∉ cells → (d.performAll ops).sheet.text? c = none := by
  induction ops generalizing d with
  | nil => exact h
  | cons op ops ih =>
    refine ih (fun c hc => ?_) fun op hm => ho op (List.mem_cons_of_mem _ hm)
    rw [text?_perform fun hr => hc (ho op List.mem_cons_self c hr)]
    exact h c hc

lemma text?_performAll (h : ∀ op ∈ ops, ¬ op.Rewrites c) :
    (d.performAll ops).sheet.text? c = d.sheet.text? c := by
  induction ops generalizing d with
  | nil => rfl
  | cons op ops ih =>
    exact (ih fun op hm => h op (List.mem_cons_of_mem _ hm)).trans
      (text?_perform (h op List.mem_cons_self))

lemma text?_performAll_load {cs : List (Cell × String)} {raw : String}
    (hk : (cs.map Prod.fst).Nodup) (hm : (c, raw) ∈ cs) (hb : Raw.isBlank raw = false)
    (h : ∀ op ∈ ops, ¬ op.Rewrites c) :
    (d.performAll (.load cs :: ops)).sheet.text? c = some raw :=
  (text?_performAll h).trans (text?_load hk hm hb)

lemma ample_of_absent (h : ∀ c, c ∉ cells → d.sheet.text? c = none)
    (hlen : cells.length < d.settings.maxPasses) : Ample d := by
  have hsub : d.sheet.ids ⊆ cells := by
    intro c hc
    by_contra hm
    exact Sheet.mem_ids.mp hc (h c hm)
  refine lt_of_le_of_lt ?_ hlen
  rw [← Sheet.length_ids]
  exact (List.subperm_of_subset Sheet.nodup_ids hsub).length_le

lemma Run.performAll (h : ∀ c, c ∉ cells → d.sheet.text? c = none)
    (hlen : cells.length < d.settings.maxPasses) (hp : ∀ op ∈ ops, p op)
    (ho : ∀ op ∈ ops, ∀ c, op.Rewrites c → c ∈ cells) : Run p d (d.performAll ops) := by
  induction ops using List.reverseRecOn with
  | nil => exact .refl (ample_of_absent h hlen)
  | append_singleton ops op ih =>
    have hrun : Run p d (d.performAll ops) :=
      ih (fun op hm => hp op (List.mem_append_left _ hm))
        fun op hm => ho op (List.mem_append_left _ hm)
    have hstep : d.performAll (ops ++ [op]) = (d.performAll ops).perform op := by
      simp [Document.performAll]
    have ha : Ample ((d.performAll ops).perform op) := by
      rw [← hstep]
      refine ample_of_absent (absent_performAll h ho) ?_
      rw [hstep, perform_settings, hrun.settings]
      exact hlen
    rw [hstep]
    exact .step op hrun (hp op (List.mem_append_right _ (List.mem_singleton_self op))) ha

end Run

end Document

end Spreadsheet
