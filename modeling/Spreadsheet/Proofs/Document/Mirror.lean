import Spreadsheet.Document.Edit
import Spreadsheet.Proofs.Dependency.Reachability
import Spreadsheet.Proofs.Sheet.Editing

/-! A cell reads the cells that its text mentions and that are not deleted. Every edit keeps it so.
-/

namespace Spreadsheet

open Relation

namespace Document

variable {d e : Document} {id c x : Cell} {raw : String} {ids : List Cell}

@[ext] lemma ext (hs : d.sheet = e.sheet) (hg : d.graph = e.graph)
    (ht : d.settings = e.settings) : d = e := by
  cases d
  cases e
  simp_all

/-- Two documents that differ at most in what their cells show. -/
structure Alike (d e : Document) : Prop where
  texts : Sheet.SameTexts d.sheet e.sheet
  graph : d.graph = e.graph
  settings : d.settings = e.settings

lemma Alike.refl (d : Document) : Alike d d :=
  ⟨.refl _, rfl, rfl⟩

lemma Alike.symm (h : Alike d e) : Alike e d :=
  ⟨h.texts.symm, h.graph.symm, h.settings.symm⟩

lemma Alike.trans {f : Document} (h : Alike d e) (h' : Alike e f) : Alike d f :=
  ⟨h.texts.trans h'.texts, h.graph.trans h'.graph, h.settings.trans h'.settings⟩

lemma alike_refresh : Alike (d.refresh ids).1 d :=
  ⟨(Sheet.sameTexts_settle _).trans Sheet.sameTexts_fail, rfl, rfl⟩

lemma alike_refreshReaders : Alike (d.refreshReaders id) d :=
  alike_refresh

lemma alike_evaluateCell : Alike (d.evaluateCell id) d := by
  refine ⟨?_, rfl, rfl⟩
  rw [evaluateCell]
  dsimp only
  split
  · exact Sheet.sameTexts_fail
  · exact Sheet.sameTexts_refresh

structure Mirrors (d : Document) : Prop where
  tidy : d.sheet.Tidy
  reads_mentioned : ∀ {c x}, d.graph.Edge c x → d.sheet.Mentions c x
  mentioned_reads : ∀ {c x}, d.sheet.Mentions c x → x ∉ d.sheet.deleted → d.graph.Edge c x

lemma mirrors_empty (settings : Settings) : Mirrors (empty settings) := by
  refine ⟨Sheet.tidy_empty, fun {c x} h => ?_, fun {c x} h => ?_⟩
  · simp [Graph.Edge, Graph.reads, empty, Graph.empty] at h
  · simp [Sheet.Mentions, Sheet.text?, Sheet.get?, empty, Sheet.empty] at h

lemma Mirrors.congr (h : Mirrors d) (he : Alike e d) : Mirrors e := by
  have hm : ∀ {c x}, e.sheet.Mentions c x ↔ d.sheet.Mentions c x :=
    fun {c _} => Sheet.Mentions.congr (he.texts.1 c)
  refine ⟨h.tidy.congr he.texts, fun hx => ?_, fun hx hd => ?_⟩
  · rw [he.graph] at hx
    exact hm.mpr (h.reads_mentioned hx)
  · rw [he.graph]
    rw [he.texts.2] at hd
    exact h.mentioned_reads (hm.mp hx) hd

section Connect

lemma edge_connect :
    (d.connect id raw).graph.Edge c x ↔
      if c = id then x ∈ Raw.references raw else d.graph.Edge c x := by
  simp only [connect, Graph.Edge, Graph.reads_setReads, @eq_comm _ id]
  split <;> rfl

def connectAll (d : Document) (records : List (Cell × Record)) : Document :=
  records.foldl (fun d (id, r) => d.connect id r.raw) d

variable {records : List (Cell × Record)}

lemma connectAll_cons {r : Record} :
    d.connectAll ((id, r) :: records) = (d.connect id r.raw).connectAll records := rfl

lemma connectAll_sheet : (d.connectAll records).sheet = d.sheet := by
  induction records generalizing d with
  | nil => rfl
  | cons p records ih => exact ih

lemma connectAll_settings : (d.connectAll records).settings = d.settings := by
  induction records generalizing d with
  | nil => rfl
  | cons p records ih => exact ih

lemma edge_connectAll (h : ∀ p ∈ records, d.sheet.text? p.1 = some p.2.raw) :
    (d.connectAll records).graph.Edge c x ↔
      if c ∈ records.map Prod.fst then d.sheet.Mentions c x else d.graph.Edge c x := by
  induction records generalizing d with
  | nil => simp [connectAll]
  | cons p records ih =>
    obtain ⟨id, r⟩ := p
    have hid : d.sheet.text? id = some r.raw := h (id, r) List.mem_cons_self
    have htail : ∀ p ∈ records, (d.connect id r.raw).sheet.text? p.1 = some p.2.raw :=
      fun p hp => h p (List.mem_cons_of_mem _ hp)
    rw [connectAll_cons, ih htail, edge_connect, List.map_cons]
    by_cases hm : c ∈ records.map Prod.fst
    · rw [if_pos hm, if_pos (List.mem_cons_of_mem _ hm)]
      rfl
    · by_cases hc : c = id
      · subst hc
        rw [if_neg hm, if_pos rfl, if_pos List.mem_cons_self, Sheet.mentions_iff hid]
      · rw [if_neg hm, if_neg hc, if_neg (List.not_mem_cons_of_ne_of_not_mem hc hm)]

lemma reconnect_eq : d.reconnect id = d.connectAll (d.sheet.records.toList.filter
    fun (c, r) => c ≠ id ∧ id ∈ Raw.references r.raw) := by
  rw [reconnect, connectAll]
  rw [List.foldl_filter]
  congr
  funext d p
  simp

lemma edge_reconnect : (d.reconnect id).graph.Edge c x ↔
    if c ≠ id ∧ d.sheet.Mentions c id then d.sheet.Mentions c x else d.graph.Edge c x := by
  have hmem : c ∈ (d.sheet.records.toList.filter
      fun (c, r) => c ≠ id ∧ id ∈ Raw.references r.raw).map Prod.fst ↔
        c ≠ id ∧ d.sheet.Mentions c id := by
    constructor
    · intro h
      obtain ⟨⟨c, r⟩, hp, rfl⟩ := List.mem_map.mp h
      obtain ⟨hr, hp⟩ := List.mem_filter.mp hp
      obtain ⟨hne, hm⟩ := of_decide_eq_true hp
      exact ⟨hne, r.raw, Sheet.text?_of_get? (Sheet.mem_records.mp hr), hm⟩
    · rintro ⟨hne, raw, hraw, hm⟩
      obtain ⟨r, hr, rfl⟩ := Sheet.exists_of_text? hraw
      exact List.mem_map.mpr ⟨(c, r), List.mem_filter.mpr ⟨Sheet.mem_records.mpr hr,
        decide_eq_true ⟨hne, hm⟩⟩, rfl⟩
  rw [reconnect_eq, edge_connectAll, if_congr hmem rfl rfl]
  intro p hp
  exact Sheet.text?_of_get? (Sheet.mem_records.mp (List.mem_of_mem_filter hp))

end Connect

section Write

def entered (d : Document) (id : Cell) (raw : String) : Document :=
  let connected := (if d.sheet.isDeleted id then d.reconnect id else d).connect id raw
  { connected with sheet := connected.sheet.write id raw }

lemma write_of_blank (h : Raw.isBlank raw = true) : (d.write id raw).1 = d.clear id := by
  simp [write, h]

lemma write_of_nonblank (h : Raw.isBlank raw = false) :
    (d.write id raw).1 = ((d.entered id raw).evaluateCell id).refreshReaders id := by
  simp [write, h, entered]

lemma entered_sheet : (d.entered id raw).sheet = d.sheet.write id raw := by
  rw [entered]
  split
  · rw [reconnect_eq]
    exact congrArg (Sheet.write · id raw) connectAll_sheet
  · rfl

lemma entered_settings : (d.entered id raw).settings = d.settings := by
  rw [entered]
  split
  · rw [reconnect_eq]
    exact connectAll_settings
  · rfl

lemma edge_entered : (d.entered id raw).graph.Edge c x ↔
    if c = id then x ∈ Raw.references raw
    else if id ∈ d.sheet.deleted ∧ d.sheet.Mentions c id then d.sheet.Mentions c x
    else d.graph.Edge c x := by
  have hg : (d.entered id raw).graph.Edge c x ↔
      ((if d.sheet.isDeleted id then d.reconnect id else d).connect id raw).graph.Edge c x :=
    Iff.rfl
  rw [hg, edge_connect]
  by_cases hc : c = id
  · simp [hc]
  · by_cases hd : d.sheet.isDeleted id = true
    · simp [hd, hc, edge_reconnect, ← Sheet.isDeleted_iff]
    · simp [hd, hc, ← Sheet.isDeleted_iff]

lemma mentions_entered_of_ne (h : c ≠ id) :
    (d.entered id raw).sheet.Mentions c x ↔ d.sheet.Mentions c x := by
  apply Sheet.Mentions.congr
  rw [entered_sheet, Sheet.text?_write, if_neg h]

lemma Mirrors.entered (h : Mirrors d) (hb : Raw.isBlank raw = false) :
    Mirrors (d.entered id raw) := by
  have hid : ∀ {x}, (d.entered id raw).sheet.Mentions id x ↔ x ∈ Raw.references raw := by
    intro x
    apply Sheet.mentions_iff
    rw [entered_sheet, Sheet.text?_write, if_pos rfl]
  refine ⟨?_, fun {c x} he => ?_, fun {c x} hm hx => ?_⟩
  · rw [entered_sheet]
    exact h.tidy.write hb
  · rw [edge_entered] at he
    by_cases hc : c = id
    · subst hc
      exact hid.mpr (by simpa using he)
    · rw [mentions_entered_of_ne hc]
      rw [if_neg hc] at he
      split at he
      · exact he
      · exact h.reads_mentioned he
  · rw [edge_entered]
    by_cases hc : c = id
    · subst hc
      simpa using hid.mp hm
    · rw [mentions_entered_of_ne hc] at hm
      rw [if_neg hc]
      split
      · exact hm
      · -- A mentioned cell is unmarked now, so it was either unmarked before or is the written one.
        rename_i hr
        refine h.mentioned_reads hm fun hxd => ?_
        rw [entered_sheet, Sheet.mem_deleted_write] at hx
        by_cases hxi : x = id
        · subst hxi
          exact hr ⟨hxd, hm⟩
        · exact hx ⟨hxi, hxd⟩

end Write

section Clear

def cleared (d : Document) (id : Cell) : Document :=
  { d with
    sheet := d.sheet.clear id
    graph := d.graph.setReads id ∅ }

lemma clear_eq : d.clear id =
    if (d.sheet.get? id).isSome then (d.cleared id).refreshReaders id else d.cleared id := rfl

lemma edge_cleared : (d.cleared id).graph.Edge c x ↔ c ≠ id ∧ d.graph.Edge c x := by
  simp only [cleared, Graph.Edge, Graph.reads_setReads]
  by_cases h : id = c
  · simp [h]
  · simp [h, Ne.symm h]

lemma mentions_cleared :
    (d.cleared id).sheet.Mentions c x ↔ c ≠ id ∧ d.sheet.Mentions c x := by
  simp [Sheet.Mentions, cleared, Sheet.text?_clear, and_assoc]

lemma Mirrors.cleared (h : Mirrors d) : Mirrors (d.cleared id) := by
  refine ⟨h.tidy.clear, fun he => ?_, fun hm hx => ?_⟩
  · rw [edge_cleared] at he
    exact mentions_cleared.mpr ⟨he.1, h.reads_mentioned he.2⟩
  · rw [mentions_cleared] at hm
    exact edge_cleared.mpr ⟨hm.1, h.mentioned_reads hm.2 hx⟩

end Clear

section Delete

variable {former : CellSet}

structure Detached (d : Document) (former : CellSet) (ids : List Cell)
    (state : Document × CellSet) : Prop where
  get? : ∀ c, state.1.sheet.get? c = if c ∈ ids then none else d.sheet.get? c
  deleted : ∀ c, c ∈ state.1.sheet.deleted ↔ c ∈ ids ∨ c ∈ d.sheet.deleted
  edge : ∀ c x, state.1.graph.Edge c x ↔ c ∉ ids ∧ x ∉ ids ∧ d.graph.Edge c x
  settings : state.1.settings = d.settings
  reads_of_former : ∀ c ∈ state.2, c ∈ former ∨ ∃ x ∈ ids, d.graph.Edge c x
  former_of_reads : ∀ c, c ∈ former ∨ (c ∉ ids ∧ ∃ x ∈ ids, d.graph.Edge c x) → c ∈ state.2

lemma detached_singleton : Detached d former [id] (detach (d, former) id) := by
  have hother : ∀ c, c ∈ d.graph.otherReaders id ↔ c ≠ id ∧ d.graph.Edge c id := by
    intro c
    simp [Graph.otherReaders, Std.ExtTreeSet.mem_erase, Graph.mem_readers, Graph.Edge,
      @eq_comm _ id]
  refine ⟨fun c => ?_, fun c => ?_, fun c x => ?_, rfl, fun c hc => ?_, fun c hc => ?_⟩
  · simp [detach, Sheet.get?_delete]
  · simp [detach, Sheet.mem_deleted_delete]
  · simp [detach, Graph.Edge, Graph.mem_reads_isolate]
  · refine (Std.ExtTreeSet.mem_union_iff.mp hc).imp_right fun hc => ?_
    exact ⟨id, List.mem_singleton_self id, ((hother c).mp hc).2⟩
  · refine Std.ExtTreeSet.mem_union_iff.mpr (hc.imp_right ?_)
    rintro ⟨hne, x, hx, hcx⟩
    rw [List.mem_singleton] at hne hx
    subst hx
    exact (hother c).mpr ⟨hne, hcx⟩

lemma Detached.append {ids' : List Cell} {s t : Document × CellSet}
    (h : Detached d former ids s) (h' : Detached s.1 s.2 ids' t) :
    Detached d former (ids ++ ids') t := by
  refine ⟨fun c => ?_, fun c => ?_, fun c x => ?_, h'.settings.trans h.settings,
    fun c hc => ?_, fun c hc => ?_⟩
  · rw [h'.get?, h.get?]
    by_cases hi : c ∈ ids <;> by_cases hi' : c ∈ ids' <;> simp [hi, hi']
  · rw [h'.deleted, h.deleted, List.mem_append]
    tauto
  · rw [h'.edge, h.edge]
    simp only [List.mem_append]
    tauto
  · rcases h'.reads_of_former c hc with hc | ⟨x, hx, hcx⟩
    · refine (h.reads_of_former c hc).imp_right ?_
      rintro ⟨x, hx, hcx⟩
      exact ⟨x, List.mem_append_left _ hx, hcx⟩
    · exact Or.inr ⟨x, List.mem_append_right _ hx, ((h.edge c x).mp hcx).2.2⟩
  · apply h'.former_of_reads
    rcases hc with hc | ⟨hne, x, hx, hcx⟩
    · exact Or.inl (h.former_of_reads c (Or.inl hc))
    · rw [List.mem_append, not_or] at hne
      by_cases hxi : x ∈ ids
      · exact Or.inl (h.former_of_reads c (Or.inr ⟨hne.1, x, hxi, hcx⟩))
      · have hx' : x ∈ ids' := (List.mem_append.mp hx).resolve_left hxi
        exact Or.inr ⟨hne.2, x, hx', (h.edge c x).mpr ⟨hne.1, hxi, hcx⟩⟩

lemma detached (former : CellSet) : Detached d former ids (ids.foldl detach (d, former)) := by
  induction ids generalizing d former with
  | nil => constructor <;> simp
  | cons id ids ih => exact detached_singleton.append (ih _)

lemma mem_invalid :
    c ∈ (d.delete ids).2 ↔ c ∉ ids ∧ ∃ x ∈ ids, TransGen d.graph.Edge c x := by
  have h : Detached d ∅ ids (ids.foldl detach (d, ∅)) := detached ∅
  rw [delete]
  generalize ids.foldl detach (d, ∅) = state at h
  obtain ⟨d', former⟩ := state
  simp only [Std.ExtTreeSet.mem_diff_iff, Std.ExtTreeSet.mem_union_iff, Graph.mem_downstream,
    Std.ExtTreeSet.mem_ofList, List.contains_iff_mem]
  rw [and_comm]
  refine and_congr_right fun hc => ⟨?_, ?_⟩
  · have reads : ∀ c ∈ former, ∃ x ∈ ids, d.graph.Edge c x := fun c hc =>
      (h.reads_of_former c hc).resolve_left Std.ExtTreeSet.not_mem_empty
    rintro (⟨-, f, hf, hcf⟩ | hc)
    · obtain ⟨x, hx, hfx⟩ := reads f hf
      have hcf : TransGen d.graph.Edge c f :=
        TransGen.mono (fun a b hab => ((h.edge a b).mp hab).2.2) _ _ hcf
      exact ⟨x, hx, hcf.tail hfx⟩
    · obtain ⟨x, hx, hcx⟩ := reads c hc
      exact ⟨x, hx, .single hcx⟩
  · rintro ⟨x, hx, hcx⟩
    obtain ⟨f, y, hcf, hf, hfy, hy⟩ := exists_step_into (p := (· ∈ ids)) hcx hc hx
    have hff : f ∈ former := h.former_of_reads f (Or.inr ⟨hf, y, hy, hfy⟩)
    have hcf : ReflTransGen d'.graph.Edge c f :=
      ReflTransGen.mono (fun a b hab => (h.edge a b).mpr hab) _ _ hcf
    by_cases hcm : c ∈ former
    · exact Or.inr hcm
    · rcases reflTransGen_iff_eq_or_transGen.mp hcf with rfl | hcf
      · exact absurd hff hcm
      · exact Or.inl ⟨hcm, f, hff, hcf⟩

lemma get?_deleteCells : (d.delete ids).1.sheet.get? c =
    if c ∈ ids then none
    else if c ∈ (d.delete ids).2 then (d.sheet.get? c).map (·.fail .deletedCell)
    else d.sheet.get? c := by
  have h : Detached d ∅ ids (ids.foldl detach (d, ∅)) := detached ∅
  rw [delete]
  generalize ids.foldl detach (d, ∅) = state at h
  obtain ⟨d', former⟩ := state
  simp only [Sheet.get?_fail, Std.ExtTreeSet.mem_toList, h.get?]
  by_cases hc : c ∈ ids
  · simp [hc]
  · simp only [hc, if_false]

lemma text?_deleteCells :
    (d.delete ids).1.sheet.text? c = if c ∈ ids then none else d.sheet.text? c := by
  simp only [Sheet.text?]
  rw [get?_deleteCells]
  split
  · rfl
  · split
    · cases d.sheet.get? c <;> rfl
    · rfl

lemma mem_deleted_deleteCells :
    c ∈ (d.delete ids).1.sheet.deleted ↔ c ∈ ids ∨ c ∈ d.sheet.deleted := by
  have h : Detached d ∅ ids (ids.foldl detach (d, ∅)) := detached ∅
  rw [delete]
  rw [Sheet.sameTexts_fail.2, h.deleted]

lemma edge_deleteCells :
    (d.delete ids).1.graph.Edge c x ↔ c ∉ ids ∧ x ∉ ids ∧ d.graph.Edge c x :=
  (detached ∅).edge c x

lemma deleteCells_settings : (d.delete ids).1.settings = d.settings :=
  (detached ∅).settings

lemma mentions_deleteCells :
    (d.delete ids).1.sheet.Mentions c x ↔ c ∉ ids ∧ d.sheet.Mentions c x := by
  simp [Sheet.Mentions, text?_deleteCells, and_assoc]

lemma Mirrors.deleteCells (h : Mirrors d) : Mirrors (d.delete ids).1 := by
  refine ⟨⟨fun c hc => ?_, fun c raw hc => ?_⟩, fun he => ?_, fun {c x} hm hx => ?_⟩
  · rw [text?_deleteCells]
    split
    · rfl
    · rename_i hi
      exact h.tidy.deleted_absent c ((mem_deleted_deleteCells.mp hc).resolve_left hi)
  · rw [text?_deleteCells, Option.ite_none_left_eq_some] at hc
    exact h.tidy.nonblank c raw hc.2
  · rw [edge_deleteCells] at he
    exact mentions_deleteCells.mpr ⟨he.1, h.reads_mentioned he.2.2⟩
  · rw [mentions_deleteCells] at hm
    rw [mem_deleted_deleteCells, not_or] at hx
    exact edge_deleteCells.mpr ⟨hm.1, hx.1, h.mentioned_reads hm.2 hx.2⟩

end Delete

section Load

variable {cells : List (Cell × String)}

def connected (d : Document) : Document :=
  d.connectAll d.sheet.records.toList

lemma refreshAll_fst : d.refreshAll.1 = (d.connected.refresh d.sheet.ids).1 := rfl

lemma connected_sheet : d.connected.sheet = d.sheet :=
  connectAll_sheet

lemma connected_settings : d.connected.settings = d.settings :=
  connectAll_settings

lemma sameTexts_refreshAll : Sheet.SameTexts d.refreshAll.1.sheet d.sheet := by
  have h : Sheet.SameTexts d.refreshAll.1.sheet d.connected.sheet := alike_refresh.texts
  rwa [connected_sheet] at h

lemma sameTexts_load : Sheet.SameTexts (d.load cells).1.sheet (d.sheet.enter cells) :=
  sameTexts_refreshAll

lemma edge_connected : d.connected.graph.Edge c x ↔
    if d.sheet.text? c = none then d.graph.Edge c x else d.sheet.Mentions c x := by
  have hmem : c ∈ d.sheet.records.toList.map Prod.fst ↔ ¬ d.sheet.text? c = none := by
    rw [← Ne, ← Sheet.mem_ids, Sheet.ids, Std.ExtTreeMap.map_fst_toList_eq_keys]
  rw [connected, edge_connectAll fun p hp => Sheet.text?_of_get? (Sheet.mem_records.mp hp),
    if_congr hmem rfl rfl, ite_not]

lemma mirrors_connected (ht : d.sheet.Tidy) (h : ∀ c x, d.graph.Edge c x → d.sheet.text? c ≠ none) :
    Mirrors d.connected := by
  have he : ∀ c x, d.connected.graph.Edge c x ↔ d.sheet.Mentions c x := by
    intro c x
    rw [edge_connected]
    split
    · rename_i hc
      refine iff_of_false (fun hcx => h c x hcx hc) ?_
      rintro ⟨raw, hraw, -⟩
      simp [hc] at hraw
    · rfl
  refine ⟨?_, fun hx => ?_, fun hm _ => ?_⟩
  · rw [connected_sheet]
    exact ht
  · rw [connected_sheet]
    exact (he _ _).mp hx
  · rw [connected_sheet] at hm
    exact (he _ _).mpr hm

lemma Mirrors.connected (h : Mirrors d) : Mirrors d.connected := by
  refine mirrors_connected h.tidy fun c x hx => ?_
  obtain ⟨raw, hraw, -⟩ := h.reads_mentioned hx
  simp [hraw]

lemma Mirrors.loaded (h : Mirrors d) :
    Mirrors { d with sheet := d.sheet.enter cells }.connected := by
  refine mirrors_connected h.tidy.enter fun c x hx => Sheet.text?_enter_ne_none ?_
  obtain ⟨raw, hraw, -⟩ := h.reads_mentioned hx
  simp [hraw]

end Load

end Document

end Spreadsheet
