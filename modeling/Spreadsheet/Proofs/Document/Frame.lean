import Spreadsheet.Proofs.Document.Consistency
import Spreadsheet.Proofs.Sheet.Stability

namespace Spreadsheet

open Relation
open Cell (a1 b1 c1 d1)

namespace Document

variable {d e : Document} {id c x : Cell} {raw : String} {ids : List Cell}

section Edit

structure LocalTo (id : Cell) (d e : Document) : Prop where
  text? : ∀ c, c ≠ id → e.sheet.text? c = d.sheet.text? c
  deleted : ∀ c, c ≠ id → (c ∈ e.sheet.deleted ↔ c ∈ d.sheet.deleted)
  get? : ∀ c, c ≠ id → ¬ TransGen e.sheet.Mentions c id → e.sheet.get? c = d.sheet.get? c

lemma get?_refreshReaders (hm : Mirrors d) (hc : ¬ TransGen d.sheet.Mentions c id) :
    (d.refreshReaders id).sheet.get? c = d.sheet.get? c := by
  refine get?_refresh_of_not_mem fun hmem => hc ?_
  have hread : TransGen d.graph.Edge c id :=
    (Graph.mem_downstream_singleton.mp (Std.ExtTreeSet.mem_toList.mp hmem)).2
  exact TransGen.mono (fun _ _ => hm.reads_mentioned) _ _ hread

lemma localTo_of_get? (hget : ∀ c, c ≠ id → e.sheet.get? c = d.sheet.get? c)
    (hdeleted : ∀ c, c ≠ id → (c ∈ e.sheet.deleted ↔ c ∈ d.sheet.deleted)) : LocalTo id d e :=
  ⟨fun c hc => congrArg (Option.map Record.raw) (hget c hc), hdeleted, fun c hc _ => hget c hc⟩

lemma LocalTo.refreshReaders (h : LocalTo id d e) (hm : Mirrors e) :
    LocalTo id d (e.refreshReaders id) := by
  have hs : Sheet.SameTexts (e.refreshReaders id).sheet e.sheet := alike_refreshReaders.texts
  refine ⟨fun c hc => (hs.1 c).trans (h.text? c hc), fun c hc => ?_, fun c hc hid => ?_⟩
  · rw [hs.2, h.deleted c hc]
  · rw [hs.mentions] at hid
    rw [get?_refreshReaders hm hid, h.get? c hc hid]

lemma Mirrors.localTo_clear (hm : Mirrors d) : LocalTo id d (d.clear id) := by
  have h : LocalTo id d (d.cleared id) :=
    localTo_of_get? (fun c hc => Sheet.get?_clear.trans (if_neg hc)) fun _ _ => Iff.rfl
  rw [clear_eq]
  split
  · exact h.refreshReaders hm.cleared
  · exact h

lemma Mirrors.localTo_write (hm : Mirrors d) : LocalTo id d (d.write id raw).1 := by
  cases hb : Raw.isBlank raw with
  | true =>
    rw [write_of_blank hb]
    exact hm.localTo_clear
  | false =>
    have he : EditedAt id d ((d.entered id raw).evaluateCell id) := editedAt_entered.evaluateCell
    rw [write_of_nonblank hb]
    exact (localTo_of_get? he.get? he.deleted).refreshReaders
      ((hm.entered hb).congr alike_evaluateCell)

theorem edits_are_local (settings : Settings) (ops : List Operation) (id : Cell) :
    let d := (empty settings).performAll ops
    (∀ raw, LocalTo id d (d.write id raw).1) ∧ LocalTo id d (d.clear id) := by
  intro d
  have hm : Mirrors d := ((consistent_empty settings).performAll ops).mirrors
  exact ⟨fun raw => hm.localTo_write, hm.localTo_clear⟩

theorem edits_are_local_of_restored :
    let d := (empty .standard).performAll [.load [(a1, "x"), (b1, "=A1"), (c1, "=C2")], .delete [a1]]
    ¬ TransGen (d.write a1 "=B1").1.sheet.Mentions c1 a1 ∧
      (d.write a1 "=B1").1.sheet.get? c1 = d.sheet.get? c1 ∧ d.sheet.text? c1 = some "=C2" := by
  intro d
  have h₀ : ∀ x, x ∉ [a1, b1, c1] → (empty .standard).sheet.text? x = none := fun _ _ => rfl
  have ho : ∀ op ∈ [Operation.load [(a1, "x"), (b1, "=A1"), (c1, "=C2")], .delete [a1],
      .write a1 "=B1"], ∀ x, op.Rewrites x → x ∈ [a1, b1, c1] := by
    simp only [List.forall_mem_cons, Operation.Rewrites]
    grind
  have hlocal : LocalTo a1 d (d.write a1 "=B1").1 :=
    (edits_are_local .standard [.load [(a1, "x"), (b1, "=A1"), (c1, "=C2")], .delete [a1]] a1).1 "=B1"
  have hc : d.sheet.text? c1 = some "=C2" :=
    text?_performAll_load (by decide) (by simp) (by decide +kernel)
      (by simp [Operation.Rewrites, a1, c1])
  have hrefs : ∀ x ∈ (Raw.references "=C2").toList, x ∉ [a1, b1, c1] := by decide +kernel
  have hreach : ¬ TransGen (d.write a1 "=B1").1.sheet.Mentions c1 a1 := by
    intro h
    obtain ⟨x, hcx, hxa⟩ := TransGen.head'_iff.mp h
    rw [Sheet.mentions_iff ((hlocal.text? c1 (by decide)).trans hc)] at hcx
    have hx : x ∉ [a1, b1, c1] := hrefs x (Std.ExtTreeSet.mem_toList.mpr hcx)
    rcases hxa.cases_head with rfl | ⟨y, ⟨raw, hraw, -⟩, -⟩
    · exact hx List.mem_cons_self
    · have hnone : (d.write a1 "=B1").1.sheet.text? x = none := absent_performAll h₀ ho x hx
      simp [hnone] at hraw
  exact ⟨hreach, hlocal.get? c1 (by decide) hreach, hc⟩

end Edit

section Refresh

lemma refresh_eq_self (hcap : 0 < d.settings.maxPasses)
    (hcycle : ∀ c ∈ ids, LeadsToCycle d.graph.Edge c →
      ∀ r, d.sheet.get? c = some r → r.shown = .error .cycle)
    (hs : ∀ c ∈ ids, ¬ LeadsToCycle d.graph.Edge c →
      Sheet.Settled d.settings.policy d.sheet c) :
    (d.refresh ids).1 = d ∧ (d.refresh ids).2.passes = 1 ∧ (d.refresh ids).2.stable = true := by
  obtain ⟨hcyclic, hacyclic⟩ := mem_partition d.graph ids
  set cyclic := (ids.partition (· ∈ d.graph.cyclicAmong ids)).1
  set acyclic := (ids.partition (· ∈ d.graph.cyclicAmong ids)).2
  have hfail : d.sheet.fail .cycle cyclic = d.sheet := by
    refine Sheet.fail_eq_self fun c hc => ?_
    exact hcycle c ((hcyclic c).mp hc).1 ((hcyclic c).mp hc).2
  have hsettle := Sheet.settle_of_settled
    (fun c hc => hs c ((hacyclic c).mp hc).1 ((hacyclic c).mp hc).2) hcap
  have hrefresh : d.refresh ids =
      ({ d with sheet := ((d.sheet.fail .cycle cyclic).settle d.settings.policy
          d.settings.maxPasses acyclic).1 },
        ((d.sheet.fail .cycle cyclic).settle d.settings.policy d.settings.maxPasses acyclic).2) :=
    rfl
  rw [hrefresh, hfail, hsettle]
  exact ⟨rfl, rfl, rfl⟩

lemma stable_refreshAll (hm : Mirrors d.connected) (ha : Ample d) :
    d.refreshAll.2.stable = true := by
  have ha : Ample d.connected := by
    rw [Ample, connected_sheet, connected_settings]
    exact ha
  exact stable_refresh hm ha

lemma refresh_refresh (h : (d.refresh ids).2.stable = true) :
    ((d.refresh ids).1.refresh ids).1 = (d.refresh ids).1 ∧
      ((d.refresh ids).1.refresh ids).2.passes = 1 ∧
      ((d.refresh ids).1.refresh ids).2.stable = true := by
  obtain ⟨-, hacyclic⟩ := mem_partition d.graph ids
  obtain ⟨hcap, hs⟩ := Sheet.settled_of_stable h
  refine refresh_eq_self hcap (fun c hc hcycle r hr => ?_) fun c hc hcycle => ?_
  · have hcycle : LeadsToCycle d.graph.Edge c := hcycle
    rw [get?_refresh_cyclic hc hcycle] at hr
    obtain ⟨r', -, rfl⟩ := Option.map_eq_some_iff.mp hr
    rfl
  · exact hs c ((hacyclic c).mpr ⟨hc, hcycle⟩)

lemma ids_refreshAll : d.refreshAll.1.sheet.ids = d.sheet.ids :=
  Sheet.ids_congr sameTexts_refreshAll.1

lemma connected_refreshAll : d.refreshAll.1.connected = d.refreshAll.1 := by
  refine Document.ext connected_sheet (Graph.ext fun c => Std.ExtTreeSet.ext_mem fun x => ?_)
    connected_settings
  have he : d.refreshAll.1.graph.Edge c x ↔ d.connected.graph.Edge c x := Iff.rfl
  refine edge_connected.trans ?_
  rw [sameTexts_refreshAll.1, sameTexts_refreshAll.mentions]
  split
  · rfl
  · rename_i hc
    exact (he.trans (edge_connected.trans (by rw [if_neg hc]))).symm

theorem refreshAll_refreshAll (d : Document) (h : d.refreshAll.2.stable = true) :
    d.refreshAll.1.refreshAll =
      (d.refreshAll.1, ⟨1, true, d.refreshAll.2.valid, d.refreshAll.2.errors⟩) := by
  have hstats : ∀ e : Document, e.refreshAll.2 =
      ⟨(e.connected.refresh e.sheet.ids).2.passes, (e.connected.refresh e.sheet.ids).2.stable,
        (e.refreshAll.1.sheet.counts e.refreshAll.1.sheet.ids).1,
        (e.refreshAll.1.sheet.counts e.refreshAll.1.sheet.ids).2⟩ := fun _ => rfl
  have h : (d.connected.refresh d.sheet.ids).2.stable = true := h
  obtain ⟨hsame, hpasses, hstable⟩ := refresh_refresh h
  rw [← refreshAll_fst] at hsame hpasses hstable
  have hfst : d.refreshAll.1.refreshAll.1 = d.refreshAll.1 := by
    rw [refreshAll_fst, connected_refreshAll, ids_refreshAll, hsame]
  refine Prod.ext hfst ?_
  rw [hstats, hfst, connected_refreshAll, ids_refreshAll, hpasses, hstable, hstats d, ids_refreshAll]

theorem refreshAll_refreshAll_of_deletion :
    let d := (empty .standard).performAll
      [.load [(a1, "=B1"), (b1, "=A1"), (c1, "=D1*2"), (d1, "7")], .delete [d1]]
    d.refreshAll.2.stable = true ∧
      d.refreshAll.1.refreshAll =
        (d.refreshAll.1, ⟨1, true, d.refreshAll.2.valid, d.refreshAll.2.errors⟩) := by
  intro d
  have h₀ : ∀ x, x ∉ [a1, b1, c1, d1] → (empty .standard).sheet.text? x = none := fun _ _ => rfl
  have hrun : Run (fun _ => True) (empty .standard) d := by
    refine .performAll h₀ (by decide) (by simp) ?_
    simp only [List.forall_mem_cons, Operation.Rewrites]
    grind
  have hm : Mirrors d := (hrun.coherent (coherent_empty .standard)).mirrors
  have hstable : d.refreshAll.2.stable = true := stable_refreshAll hm.connected hrun.ample
  exact ⟨hstable, refreshAll_refreshAll d hstable⟩

end Refresh

end Document

end Spreadsheet
