import Spreadsheet.Proofs.Formula.Blame
import Spreadsheet.Proofs.Document.Run

namespace Spreadsheet

open Relation
open Cell (a1 b1 c1)

section Evaluation

variable {s : Sheet} {c t x : Cell} {r : Record} {policy : Policy} {raw : String} {code : CellError}

lemma Sheet.Tidy.reading_deleted (h : s.Tidy) (ht : t ∈ s.deleted) :
    s.reading t = .error .deletedCell := by
  have hn : s.get? t = none := Sheet.text?_eq_none.mp (h.deleted_absent t ht)
  simp [Sheet.reading, hn, Sheet.isDeleted_iff.mpr ht]

lemma Sheet.reading_of_shown (hr : s.get? c = some r) (hs : r.shown = .error code) :
    s.reading c = .error code := by
  simp [Sheet.reading, hr, Record.reading, hs]

lemma Sheet.evaluate_of_reading (hx : x ∈ Raw.references raw) (hs : s.reading x = .error code) :
    ∃ code', s.evaluate policy raw = .error code' := by
  cases he : s.evaluate policy raw with
  | error code' => exact ⟨code', rfl⟩
  | ok v => exact absurd he (Raw.evaluate_ne_ok hx hs v)

lemma Sheet.ofResult_evaluate (h : Shown.ofResult (s.evaluate policy raw) = .error code) :
    s.evaluate policy raw = .error code := by
  cases he : s.evaluate policy raw with
  | error code' =>
    rw [he] at h
    cases h
    rfl
  | ok v =>
    rw [he] at h
    cases v with
    | error code' => exact absurd he (Raw.evaluate_ne_ok_error code')
    | _ => cases h

lemma Sheet.exists_of_evaluate_cycle (h : s.evaluate policy raw = .error .cycle) :
    ∃ x ∈ Raw.references raw, ∃ r, s.get? x = some r ∧ r.shown = .error .cycle := by
  rcases Raw.evaluate_eq_error h with hown | ⟨x, hx, hs⟩
  · exact hown.elim
  · refine ⟨x, hx, ?_⟩
    simp only [Sheet.reading] at hs
    split at hs
    · rename_i r hr
      refine ⟨r, hr, ?_⟩
      simp only [Record.reading] at hs
      split at hs
      · split at hs <;> cases hs
      · rename_i code hc
        cases hs
        exact hc
    · split at hs <;> cases hs

end Evaluation

namespace Document

variable {d e : Document} {id c t x : Cell} {r : Record} {raw : String}

section Deleted

lemma Coherent.shown_of_leadsToDeleted (h : Coherent d) (hd : d.sheet.LeadsToDeleted c)
    (hr : d.sheet.get? c = some r) : ∃ code, r.shown = .error code := by
  have step : ∀ {c x r code}, d.sheet.Mentions c x → d.sheet.reading x = .error code →
      d.sheet.get? c = some r → ∃ code', r.shown = .error code' := by
    intro c x r code hcx hx hr
    rw [Sheet.mentions_iff (Sheet.text?_of_get? hr)] at hcx
    cases h.upToDate c r hr with
    | broken _ hs => exact ⟨_, hs⟩
    | cyclic _ hs => exact ⟨_, hs⟩
    | evaluated _ hs =>
      obtain ⟨code', he⟩ : ∃ code', d.sheet.evaluate d.settings.policy r.raw = .error code' :=
        Sheet.evaluate_of_reading hcx hx
      rw [he] at hs
      exact ⟨code', hs⟩
  obtain ⟨t, ht, hct⟩ := hd
  induction hct using TransGen.head_induction_on generalizing r with
  | single hct => exact step hct (h.mirrors.tidy.reading_deleted ht) hr
  | @head c y hcy hyt ih =>
    obtain ⟨z, ⟨raw, hraw, -⟩, -⟩ := TransGen.head'_iff.mp hyt
    obtain ⟨r', hr', -⟩ := Sheet.exists_of_text? hraw
    obtain ⟨code, hs⟩ := ih hr'
    exact step hcy (Sheet.reading_of_shown hr' hs) hr

theorem error_of_leadsToDeleted (settings : Settings) (d : Document) (c : Cell) (r : Record)
    (h : Run (fun _ => True) (empty settings) d) (hr : d.sheet.get? c = some r)
    (hd : d.sheet.LeadsToDeleted c) : ∃ code, r.error? = some code := by
  obtain ⟨code, hs⟩ := (h.coherent (coherent_empty settings)).shown_of_leadsToDeleted hd hr
  exact ⟨code, Record.error?_eq_some.mpr hs⟩

theorem error_of_leadsToDeleted_of_sum :
    let d := (empty .standard).performAll
      [.load [(a1, "1"), (b1, "=A1+2"), (c1, "=SUM(B1:B2)")], .delete [a1]]
    ∃ r code, d.sheet.get? c1 = some r ∧ r.error? = some code := by
  intro d
  have h₀ : ∀ x, x ∉ [a1, b1, c1] → (empty .standard).sheet.text? x = none := fun _ _ => rfl
  have hrun : Run (fun _ => True) (empty .standard) d := by
    refine .performAll h₀ (by decide) (by simp) ?_
    simp only [List.forall_mem_cons, Operation.Rewrites]
    grind
  have hb : d.sheet.text? b1 = some "=A1+2" :=
    text?_performAll_load (by decide) (by simp) (by decide +kernel)
      (by simp [Operation.Rewrites, a1, b1])
  have hc : d.sheet.text? c1 = some "=SUM(B1:B2)" :=
    text?_performAll_load (by decide) (by simp) (by decide +kernel)
      (by simp [Operation.Rewrites, a1, c1])
  have ha : a1 ∈ d.sheet.deleted :=
    mem_deleted_deleteCells.mpr (Or.inl (List.mem_singleton_self a1))
  obtain ⟨r, hr, -⟩ := Sheet.exists_of_text? hc
  have hcb : d.sheet.Mentions c1 b1 := (Sheet.mentions_iff hc).mpr (by decide +kernel)
  have hba : d.sheet.Mentions b1 a1 := (Sheet.mentions_iff hb).mpr (by decide +kernel)
  obtain ⟨code, he⟩ :=
    error_of_leadsToDeleted .standard d c1 r hrun hr ⟨a1, ha, .head hcb (.single hba)⟩
  exact ⟨r, code, hr, he⟩

end Deleted

section Cycle

lemma Mirrors.leadsToCycle_iff (h : Mirrors d) :
    LeadsToCycle d.graph.Edge c ↔ LeadsToCycle d.sheet.Mentions c := by
  constructor
  · rintro ⟨x, hcx, hxx⟩
    exact ⟨x, ReflTransGen.mono (fun _ _ => h.reads_mentioned) _ _ hcx,
      TransGen.mono (fun _ _ => h.reads_mentioned) _ _ hxx⟩
  · refine leadsToCycle_of_continued fun {a b c} hab hbc => h.mentioned_reads hab fun hd => ?_
    obtain ⟨raw, hraw, -⟩ := hbc
    simp [h.tidy.deleted_absent b hd] at hraw

lemma Coherent.leadsToCycle_of_shown (h : Coherent d) (hr : d.sheet.get? c = some r)
    (hs : r.shown = .error .cycle) : LeadsToCycle d.graph.Edge c := by
  by_contra hc
  induction hn : rank d.graph.Edge d.sheet.ids c using Nat.strong_induction_on
    generalizing c r with
  | _ n ih =>
    subst hn
    cases h.upToDate c r hr with
    | broken _ hs' => simp [hs] at hs'
    | cyclic hc' _ => exact hc hc'
    | evaluated _ hs' =>
      have he := Sheet.ofResult_evaluate (hs'.symm.trans hs)
      obtain ⟨x, hx, r', hr', hs'⟩ := Sheet.exists_of_evaluate_cycle he
      have hcx : d.graph.Edge c x :=
        h.mirrors.mentioned_reads ⟨r.raw, Sheet.text?_of_get? hr, hx⟩ (not_deleted h.mirrors hr')
      have hxi : x ∈ d.sheet.ids := Sheet.mem_ids.mpr (by simp [Sheet.text?_of_get? hr'])
      have hxc : ¬ LeadsToCycle d.graph.Edge x := fun hx =>
        hc (leadsToCycle_iff_step.mpr ⟨x, hcx, hx⟩)
      exact ih _ (rank_lt_rank hcx hxi fun hxx => hxc ⟨x, .refl, hxx⟩) hr' hs' hxc rfl

lemma write_snd (hb : Raw.isBlank raw = false) : (d.write id raw).2 =
    (((d.entered id raw).evaluateCell id).sheet.get? id).bind Record.error? := by
  have hid : id ∉ (((d.entered id raw).evaluateCell id).graph.downstream {id}).toList := fun h =>
    (Graph.mem_downstream_singleton.mp (Std.ExtTreeSet.mem_toList.mp h)).1 rfl
  rw [← get?_refresh_of_not_mem hid]
  simp only [write, hb, Bool.false_eq_true, if_false]
  rfl

lemma get?_entered : ∃ r, (d.entered id raw).sheet.get? id = some r ∧ r.raw = raw := by
  apply Sheet.exists_of_text?
  rw [entered_sheet, Sheet.text?_write, if_pos rfl]

lemma leadsToCycle_entered (hx : LeadsToCycle d.sheet.Mentions x)
    (hid : ¬ ReflTransGen (d.entered id raw).sheet.Mentions x id) :
    LeadsToCycle (d.entered id raw).sheet.Mentions x := by
  refine (leadsToCycle_congr fun y hy z => mentions_entered_of_ne ?_).mpr hx
  rintro rfl
  exact hid hy

lemma Coherent.write_snd_eq_cycle (h : Coherent d) (hb : Raw.isBlank raw = false) :
    (d.write id raw).2 = some .cycle ↔ LeadsToCycle (d.write id raw).1.sheet.Mentions id := by
  have he : EditedAt id d (d.entered id raw) := editedAt_entered
  have hm : Mirrors (d.entered id raw) := h.mirrors.entered hb
  obtain ⟨r, hr, rfl⟩ : ∃ r, (d.entered id raw).sheet.get? id = some r ∧ r.raw = raw :=
    get?_entered
  rw [write_snd hb, (alike_write hb).texts.mentions, ← hm.leadsToCycle_iff,
    ← Graph.reachesCycle_iff, evaluateCell]
  split
  · rename_i hc
    simp [hc, Sheet.get?_fail, hr, Record.fail, Record.error?]
  · rename_i hc
    refine iff_of_false (fun hs => hc ?_) hc
    rw [Graph.reachesCycle_iff, hm.leadsToCycle_iff, leadsToCycle_iff_step]
    rw [Sheet.get?_refresh, if_pos rfl, hr, Option.map_some, Option.bind_some,
      Record.error?_eq_some] at hs
    obtain ⟨x, hx, r', hr', hs'⟩ := Sheet.exists_of_evaluate_cycle (Sheet.ofResult_evaluate hs)
    have hix : (d.entered id r.raw).sheet.Mentions id x := ⟨r.raw, Sheet.text?_of_get? hr, hx⟩
    by_cases hxi : ReflTransGen (d.entered id r.raw).sheet.Mentions x id
    · exact ⟨x, hix, x, .refl, TransGen.tail' hxi hix⟩
    · have hne : x ≠ id := by
        rintro rfl
        exact hxi .refl
      rw [he.get? x hne] at hr'
      have hxc : LeadsToCycle d.sheet.Mentions x :=
        h.mirrors.leadsToCycle_iff.mp (h.leadsToCycle_of_shown hr' hs')
      exact ⟨x, hix, leadsToCycle_entered hxc hxi⟩

lemma refreshAll_eq_cycle (hm : Mirrors d.connected) (ha : Ample d.refreshAll.1)
    (hr : d.refreshAll.1.sheet.get? c = some r) :
    r.error? = some .cycle ↔ LeadsToCycle d.refreshAll.1.sheet.Mentions c := by
  have h : Coherent d.refreshAll.1 := ⟨hm.congr alike_refresh, upToDate_refreshAll hm ha⟩
  rw [Record.error?_eq_some, ← h.mirrors.leadsToCycle_iff]
  refine ⟨h.leadsToCycle_of_shown hr, fun hc => ?_⟩
  have hc : LeadsToCycle d.connected.graph.Edge c := hc
  have hids : c ∈ d.sheet.ids := by
    rw [Sheet.mem_ids, ← sameTexts_refreshAll.1, Sheet.text?_of_get? hr]
    simp
  rw [refreshAll_fst, get?_refresh_cyclic hids hc] at hr
  obtain ⟨r', -, rfl⟩ := Option.map_eq_some_iff.mp hr
  rfl

theorem reports_cycles (settings : Settings) (d : Document)
    (h : Run (fun _ => True) (empty settings) d) :
    (∀ id raw, Raw.isBlank raw = false →
      ((d.write id raw).2 = some .cycle ↔ LeadsToCycle (d.write id raw).1.sheet.Mentions id)) ∧
    (∀ cells, Ample (d.load cells).1 → ∀ c r, (d.load cells).1.sheet.get? c = some r →
      (r.error? = some .cycle ↔ LeadsToCycle (d.load cells).1.sheet.Mentions c)) ∧
    ∀ c r, d.refreshAll.1.sheet.get? c = some r →
      (r.error? = some .cycle ↔ LeadsToCycle d.refreshAll.1.sheet.Mentions c) := by
  have hd : Coherent d := h.coherent (coherent_empty settings)
  refine ⟨fun id raw hb => hd.write_snd_eq_cycle hb, fun cells ha c r hr => ?_, fun c r hr => ?_⟩
  · exact refreshAll_eq_cycle hd.mirrors.loaded ha hr
  · refine refreshAll_eq_cycle hd.mirrors.connected ?_ hr
    have hs : (d.perform .refreshAll).settings = d.settings := perform_settings
    rw [Ample, Sheet.size_congr sameTexts_refreshAll.1]
    exact hs ▸ h.ample

theorem reports_cycles_of_restored :
    let d := (empty .standard).performAll [.load [(a1, "5"), (b1, "=A1+1")], .delete [a1]]
    (d.write a1 "=B1").2 = some .cycle ∧
      ∃ r, (d.load [(a1, "=B1")]).1.sheet.get? b1 = some r ∧ r.error? = some .cycle := by
  intro d
  have h₀ : ∀ x, x ∉ [a1, b1] → (empty .standard).sheet.text? x = none := fun _ _ => rfl
  have ho : ∀ op ∈ [Operation.load [(a1, "5"), (b1, "=A1+1")], .delete [a1]], ∀ x, op.Rewrites x →
      x ∈ [a1, b1] := by
    simp only [List.forall_mem_cons, Operation.Rewrites]
    grind
  have hrun : Run (fun _ => True) (empty .standard) d := .performAll h₀ (by decide) (by simp) ho
  have hw : ∀ x, x ≠ a1 → ¬ (Operation.write a1 "=B1").Rewrites x := by
    simp [Operation.Rewrites, @eq_comm _ a1]
  have hl : ∀ x, x ≠ a1 → ¬ (Operation.load [(a1, "=B1")]).Rewrites x := by
    rintro x hx ⟨raw, hm, -⟩
    exact hx (congrArg Prod.fst (List.mem_singleton.mp hm))
  have hb : d.sheet.text? b1 = some "=A1+1" :=
    text?_performAll_load (by decide) (by simp) (by decide +kernel)
      (by simp [Operation.Rewrites, a1, b1])
  have hcycle : ∀ s : Sheet, s.text? a1 = some "=B1" → s.text? b1 = some "=A1+1" →
      LeadsToCycle s.Mentions a1 ∧ LeadsToCycle s.Mentions b1 := by
    intro s ha hb
    have hab : s.Mentions a1 b1 := (Sheet.mentions_iff ha).mpr (by decide +kernel)
    have hba : s.Mentions b1 a1 := (Sheet.mentions_iff hb).mpr (by decide +kernel)
    exact ⟨⟨a1, .refl, .head hab (.single hba)⟩, ⟨b1, .refl, .head hba (.single hab)⟩⟩
  obtain ⟨hwrite, hload, -⟩ := reports_cycles .standard d hrun
  constructor
  · have ha' : (d.write a1 "=B1").1.sheet.text? a1 = some "=B1" :=
      text?_write_self (by decide +kernel)
    have hb' : (d.write a1 "=B1").1.sheet.text? b1 = some "=A1+1" :=
      (text?_perform (hw b1 (by decide))).trans hb
    exact (hwrite a1 "=B1" (by decide +kernel)).mpr (hcycle _ ha' hb').1
  · have ha' : (d.load [(a1, "=B1")]).1.sheet.text? a1 = some "=B1" :=
      text?_load (by decide) (by simp) (by decide +kernel)
    have hb' : (d.load [(a1, "=B1")]).1.sheet.text? b1 = some "=A1+1" :=
      (text?_perform (hl b1 (by decide))).trans hb
    have habsent : ∀ x, x ∉ [a1, b1] → (d.load [(a1, "=B1")]).1.sheet.text? x = none := by
      intro x hx
      have hxa : x ≠ a1 := fun h => hx (h ▸ List.mem_cons_self)
      exact (text?_perform (hl x hxa)).trans (absent_performAll h₀ ho x hx)
    have hs : (d.perform (.load [(a1, "=B1")])).settings = .standard :=
      perform_settings.trans hrun.settings
    have hample : Ample (d.load [(a1, "=B1")]).1 := ample_of_absent habsent (hs ▸ by decide)
    obtain ⟨r, hr, -⟩ := Sheet.exists_of_text? hb'
    exact ⟨r, hr, (hload _ hample b1 r hr).mpr (hcycle _ ha' hb').2⟩

end Cycle

end Document

end Spreadsheet
