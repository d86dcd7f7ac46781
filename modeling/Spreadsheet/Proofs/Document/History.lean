import Spreadsheet.Proofs.Document.Run

/-! What an up to date document shows is a function of its raw texts, as far as no deleted cell is
reached. -/

namespace Spreadsheet

open Relation
open Cell (a1 b1)

def Sheet.texts (s : Sheet) : List (Cell × String) :=
  s.records.toList.map fun (id, r) => (id, r.raw)

section Texts

variable {s : Sheet} {c : Cell} {raw : String} {cells : List (Cell × String)}

lemma Sheet.mem_texts : (c, raw) ∈ s.texts ↔ s.text? c = some raw := by
  simp [Sheet.texts, Sheet.text?, Sheet.get?]

lemma Sheet.nodup_texts : (s.texts.map Prod.fst).Nodup := by
  have hk : s.texts.map Prod.fst = s.ids := by
    simp only [Sheet.texts, List.map_map]
    exact Std.ExtTreeMap.map_fst_toList_eq_keys
  rw [hk]
  exact Sheet.nodup_ids

lemma Sheet.perm_texts (hn : (cells.map Prod.fst).Nodup)
    (hin : ∀ cell ∈ cells, s.text? cell.1 = some cell.2)
    (hout : ∀ c, c ∉ cells.map Prod.fst → s.text? c = none) : cells.Perm s.texts := by
  refine (List.perm_ext_iff_of_nodup hn.of_map Sheet.nodup_texts.of_map).mpr fun ⟨c, raw⟩ => ?_
  rw [Sheet.mem_texts]
  refine ⟨hin (c, raw), fun h => ?_⟩
  by_cases hc : c ∈ cells.map Prod.fst
  · obtain ⟨⟨c, raw'⟩, hm, rfl⟩ := List.mem_map.mp hc
    obtain rfl : raw' = raw := Option.some.inj ((hin _ hm).symm.trans h)
    exact hm
  · rw [hout c hc] at h
    cases h

lemma Sheet.Tidy.text?_enter_texts (h : s.Tidy) (hp : cells.Perm s.texts) :
    (Sheet.empty.enter cells).text? c = s.text? c := by
  cases hc : s.text? c with
  | none =>
    rw [Sheet.text?_enter_of_not_mem]
    · rfl
    · intro raw hm
      rw [hp.mem_iff, Sheet.mem_texts, hc] at hm
      cases hm
  | some raw =>
    have hn : (cells.map Prod.fst).Nodup := (hp.map Prod.fst).nodup_iff.mpr Sheet.nodup_texts
    have hm : (c, raw) ∈ cells := hp.mem_iff.mpr (Sheet.mem_texts.mpr hc)
    exact Sheet.text?_enter_of_mem hn hm (h.nonblank c raw hc)

end Texts

namespace Document

variable {d f : Document} {c : Cell}

lemma not_leadsToDeleted_of_mention {x : Cell} (hc : ¬ d.sheet.LeadsToDeleted c)
    (hx : d.sheet.Mentions c x) : x ∉ d.sheet.deleted ∧ ¬ d.sheet.LeadsToDeleted x := by
  refine ⟨fun hd => hc ⟨x, hd, .single hx⟩, ?_⟩
  rintro ⟨t, ht, hxt⟩
  exact hc ⟨t, ht, hxt.head hx⟩

section Unique

variable (hd : Coherent d) (hf : Coherent f) (ht : ∀ c, f.sheet.text? c = d.sheet.text? c)
  (hf₀ : ∀ c, c ∉ f.sheet.deleted) (hs : f.settings = d.settings)
include hd hf ht hf₀

lemma edge_congr (hc : ¬ d.sheet.LeadsToDeleted c) (x : Cell) :
    d.graph.Edge c x ↔ f.graph.Edge c x := by
  have hm : f.sheet.Mentions c x ↔ d.sheet.Mentions c x := Sheet.Mentions.congr (ht c)
  constructor
  · intro hx
    exact hf.mirrors.mentioned_reads (hm.mpr (hd.mirrors.reads_mentioned hx)) (hf₀ x)
  · intro hx
    have hx : d.sheet.Mentions c x := hm.mp (hf.mirrors.reads_mentioned hx)
    exact hd.mirrors.mentioned_reads hx (not_leadsToDeleted_of_mention hc hx).1

lemma leadsToCycle_edge_congr (hc : ¬ d.sheet.LeadsToDeleted c) :
    LeadsToCycle d.graph.Edge c ↔ LeadsToCycle f.graph.Edge c := by
  refine leadsToCycle_congr fun x hx => edge_congr hd hf ht hf₀ ?_
  induction hx with
  | refl => exact hc
  | tail _ hxy ih => exact (not_leadsToDeleted_of_mention ih (hd.mirrors.reads_mentioned hxy)).2

include hs

lemma get?_congr (hc : ¬ d.sheet.LeadsToDeleted c) : f.sheet.get? c = d.sheet.get? c := by
  induction hn : rank d.graph.Edge d.sheet.ids c using Nat.strong_induction_on generalizing c with
  | _ n ih =>
    subst hn
    refine Sheet.get?_eq_of_shown (ht c) fun r' r hr' hr hraw => ?_
    have hfc : ¬ f.sheet.LeadsToDeleted c := fun ⟨t, ht, _⟩ => hf₀ t ht
    refine (hd.upToDate c r hr).shown_eq (hf.upToDate c r' hr') hc hfc
      (leadsToCycle_edge_congr hd hf ht hf₀ hc) fun h => ?_
    rw [hs, hraw]
    refine Sheet.evaluate_congr fun x hx => ?_
    have hx : d.sheet.Mentions c x := ⟨r.raw, Sheet.text?_of_get? hr, hx⟩
    obtain ⟨hxd, hxl⟩ := not_leadsToDeleted_of_mention hc hx
    refine Sheet.reading_congr ?_ (iff_of_false (hf₀ x) hxd)
    by_cases hxt : d.sheet.text? x = none
    · rw [Sheet.text?_eq_none.mp hxt, Sheet.text?_eq_none.mp ((ht x).trans hxt)]
    · have hcx : d.graph.Edge c x := hd.mirrors.mentioned_reads hx hxd
      refine ih _ (rank_lt_rank hcx (Sheet.mem_ids.mpr hxt) fun hxx => h ?_) hxl rfl
      exact ⟨x, .single hcx, hxx⟩

lemma Coherent.eq_of_texts (hd₀ : ∀ c, c ∉ d.sheet.deleted) : f = d := by
  have hc : ∀ c, ¬ d.sheet.LeadsToDeleted c := fun _ ⟨t, ht, _⟩ => hd₀ t ht
  refine Document.ext (Sheet.ext (fun c => ?_) fun c => ?_)
    (Graph.ext fun c => Std.ExtTreeSet.ext_mem fun x => ?_) hs
  · exact get?_congr hd hf ht hf₀ hs (hc c)
  · exact iff_of_false (hf₀ c) (hd₀ c)
  · exact (edge_congr hd hf ht hf₀ (hc c) x).symm

end Unique

theorem shows_loaded_texts (settings : Settings) (d : Document) (cells : List (Cell × String))
    (h : Run (fun _ => True) (empty settings) d) (hp : cells.Perm d.sheet.texts) :
    (∀ c, ¬ d.sheet.LeadsToDeleted c →
      ((empty settings).load cells).1.sheet.get? c = d.sheet.get? c) ∧
    (d.sheet.deleted = ∅ → ((empty settings).load cells).1.sheet = d.sheet) := by
  have hd : Coherent d := h.coherent (coherent_empty settings)
  have hs : d.settings = settings := h.settings
  have hft : Sheet.SameTexts ((empty settings).load cells).1.sheet (Sheet.empty.enter cells) :=
    sameTexts_load
  have ht : ∀ c, ((empty settings).load cells).1.sheet.text? c = d.sheet.text? c := fun c =>
    (hft.1 c).trans (hd.mirrors.tidy.text?_enter_texts hp)
  have hf₀ : ∀ c, c ∉ ((empty settings).load cells).1.sheet.deleted := by
    intro c hc
    rw [hft.2] at hc
    exact Std.ExtTreeSet.not_mem_empty (Sheet.mem_deleted_of_enter hc)
  have hfs : ((empty settings).load cells).1.settings = d.settings := by
    have hl : ((empty settings).perform (.load cells)).settings = settings := perform_settings
    exact hl.trans hs.symm
  have ha : Ample ((empty settings).load cells).1 := by
    rw [Ample, hfs, Sheet.size_congr ht]
    exact h.ample
  have hf : Coherent ((empty settings).perform (.load cells)) :=
    (coherent_empty settings).perform ha
  have hg : ∀ c, ¬ d.sheet.LeadsToDeleted c →
      ((empty settings).load cells).1.sheet.get? c = d.sheet.get? c :=
    fun c hc => get?_congr hd hf ht hf₀ hfs hc
  refine ⟨hg, fun hn => Sheet.ext (fun c => hg c ?_) fun c => ?_⟩
  · rintro ⟨t, htd, -⟩
    simp [hn] at htd
  · simpa [hn] using hf₀ c

theorem shows_loaded_texts_of_rewritten :
    let d := (empty .standard).performAll
      [.load [(a1, "x"), (b1, "=A1")], .delete [a1], .write a1 "y"]
    ((empty .standard).load [(b1, "=A1"), (a1, "y")]).1.sheet = d.sheet := by
  intro d
  have h₀ : ∀ c, c ∉ [b1, a1] → (empty .standard).sheet.text? c = none := fun _ _ => rfl
  have ho : ∀ op ∈ [Operation.load [(a1, "x"), (b1, "=A1")], .delete [a1], .write a1 "y"],
      ∀ c, op.Rewrites c → c ∈ [b1, a1] := by
    simp only [List.forall_mem_cons, Operation.Rewrites]
    grind
  have hrun : Run (fun _ => True) (empty .standard) d := .performAll h₀ (by decide) (by simp) ho
  have hy : Raw.isBlank "y" = false := by decide +kernel
  have ha : d.sheet.text? a1 = some "y" := text?_write_self hy
  have hb : d.sheet.text? b1 = some "=A1" := by
    have hne : b1 ≠ a1 := by decide
    refine text?_performAll_load (by decide) (by simp) (by decide +kernel) ?_
    simp [Operation.Rewrites, hne, hne.symm]
  have hp : [(b1, "=A1"), (a1, "y")].Perm d.sheet.texts :=
    Sheet.perm_texts (by decide) (by simp [ha, hb]) (absent_performAll h₀ ho)
  have hd : ∀ c, c ∉ d.sheet.deleted := by
    intro c hc
    change c ∈ (write _ a1 "y").1.sheet.deleted at hc
    rw [(alike_write hy).texts.2, entered_sheet, Sheet.mem_deleted_write] at hc
    obtain ⟨hne, hc⟩ := hc
    rcases mem_deleted_deleteCells.mp hc with hc | hc
    · exact hne (List.mem_singleton.mp hc)
    · exact Sheet.not_mem_deleted_enter_empty (sameTexts_load.2 ▸ hc)
  exact (shows_loaded_texts .standard d _ hrun hp).2
    (Std.ExtTreeSet.eq_empty_iff_forall_not_mem.mpr hd)

section Filling

variable {s : Sheet} {settings : Settings} {cells : List (Cell × String)}

def writeAll (d : Document) (cells : List (Cell × String)) : Document :=
  d.performAll (cells.map fun (id, raw) => .write id raw)

lemma sameTexts_writeAll (hb : ∀ c ∈ cells, Raw.isBlank c.2 = false)
    (h : Sheet.SameTexts d.sheet s) : Sheet.SameTexts (d.writeAll cells).sheet (s.enter cells) := by
  induction cells generalizing d s with
  | nil => exact h
  | cons cell cells ih =>
    have hcell : Raw.isBlank cell.2 = false := hb cell List.mem_cons_self
    rw [Sheet.enter_cons, if_neg (by simp [hcell])]
    refine ih (fun c hc => hb c (List.mem_cons_of_mem _ hc)) ?_
    have hw : Sheet.SameTexts (d.write cell.1 cell.2).1.sheet (d.sheet.write cell.1 cell.2) :=
      entered_sheet ▸ (alike_write hcell).texts
    exact hw.trans h.write

lemma load_eq_writeAll (hb : ∀ c ∈ cells, Raw.isBlank c.2 = false)
    (hlen : cells.length < settings.maxPasses) :
    ((empty settings).load cells).1 = (empty settings).writeAll cells := by
  have h₀ : ∀ c, c ∉ cells.map Prod.fst → (empty settings).sheet.text? c = none := fun _ _ => rfl
  have hkeys : (cells.map Prod.fst).length < (empty settings).settings.maxPasses := by
    rwa [List.length_map]
  have hwrite : Run (fun _ => True) (empty settings) ((empty settings).writeAll cells) := by
    refine .performAll h₀ hkeys (by simp) fun op ho c hc => ?_
    obtain ⟨⟨id, raw⟩, hm, rfl⟩ := List.mem_map.mp ho
    exact List.mem_map.mpr ⟨(id, raw), hm, hc⟩
  have hload : Run (fun _ => True) (empty settings) ((empty settings).performAll [.load cells]) := by
    refine .performAll h₀ hkeys (by simp) fun op ho c hc => ?_
    rw [List.mem_singleton] at ho
    subst ho
    obtain ⟨raw, hm, -⟩ := hc
    exact List.mem_map_of_mem hm
  have hentered : ∀ {d : Document}, Sheet.SameTexts d.sheet (Sheet.empty.enter cells) →
      ∀ c, c ∉ d.sheet.deleted := by
    intro d h c hc
    exact Sheet.not_mem_deleted_enter_empty (h.2 ▸ hc)
  have hws : Sheet.SameTexts ((empty settings).writeAll cells).sheet (Sheet.empty.enter cells) :=
    sameTexts_writeAll hb (.refl _)
  have hls : Sheet.SameTexts ((empty settings).load cells).1.sheet (Sheet.empty.enter cells) :=
    sameTexts_load
  exact Coherent.eq_of_texts (hwrite.coherent (coherent_empty settings))
    (hload.coherent (coherent_empty settings)) (hls.trans hws.symm).1 (hentered hls)
    (hload.settings.trans hwrite.settings.symm) (hentered hws)

end Filling

end Document

end Spreadsheet
