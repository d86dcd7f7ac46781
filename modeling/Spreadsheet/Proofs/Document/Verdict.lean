import Spreadsheet.Proofs.Dependency.CycleSearch
import Spreadsheet.Proofs.Document.Mirror

/-! A document is up to date if every record shows that a deleted cell is reached, that a cycle is
reached, or what its text evaluates to. -/

namespace Spreadsheet

open Relation

def Sheet.LeadsToDeleted (s : Sheet) (c : Cell) : Prop :=
  ∃ t ∈ s.deleted, TransGen s.Mentions c t

namespace Document

variable {d e : Document} {id c x : Cell} {r : Record} {raw : String} {ids : List Cell}

inductive Verdict (d : Document) (c : Cell) (r : Record) : Prop
  | broken (h : d.sheet.LeadsToDeleted c) (hs : r.shown = .error .deletedCell)
  | cyclic (h : LeadsToCycle d.graph.Edge c) (hs : r.shown = .error .cycle)
  | evaluated (h : ¬ LeadsToCycle d.graph.Edge c)
      (hs : r.shown = .ofResult (d.sheet.evaluate d.settings.policy r.raw))

lemma Verdict.transfer (hv : Verdict d c r)
    (hd : d.sheet.LeadsToDeleted c → e.sheet.LeadsToDeleted c)
    (hcycle : LeadsToCycle d.graph.Edge c ↔ LeadsToCycle e.graph.Edge c)
    (hs : e.settings = d.settings)
    (hread : ¬ LeadsToCycle d.graph.Edge c →
      ∀ x ∈ Raw.references r.raw, d.sheet.reading x = e.sheet.reading x) : Verdict e c r := by
  cases hv with
  | broken h hshown => exact .broken (hd h) hshown
  | cyclic h hshown => exact .cyclic (hcycle.mp h) hshown
  | evaluated h hshown =>
    refine .evaluated (mt hcycle.mpr h) (hshown.trans ?_)
    rw [hs, Sheet.evaluate_congr (hread h)]

lemma Verdict.shown_eq {r' : Record} (hv : Verdict d c r) (hv' : Verdict e c r')
    (hd : ¬ d.sheet.LeadsToDeleted c) (he : ¬ e.sheet.LeadsToDeleted c)
    (hcycle : LeadsToCycle d.graph.Edge c ↔ LeadsToCycle e.graph.Edge c)
    (hevaluate : ¬ LeadsToCycle d.graph.Edge c →
      e.sheet.evaluate e.settings.policy r'.raw = d.sheet.evaluate d.settings.policy r.raw) :
    r'.shown = r.shown := by
  cases hv with
  | broken h => exact absurd h hd
  | cyclic h hs =>
    cases hv' with
    | broken h' => exact absurd h' he
    | cyclic _ hs' => rw [hs, hs']
    | evaluated h' => exact absurd (hcycle.mp h) h'
  | evaluated h hs =>
    cases hv' with
    | broken h' => exact absurd h' he
    | cyclic h' => exact absurd (hcycle.mpr h') h
    | evaluated _ hs' => rw [hs, hs', hevaluate h]

def UpToDate (d : Document) : Prop :=
  ∀ c r, d.sheet.get? c = some r → Verdict d c r

def Ample (d : Document) : Prop :=
  d.sheet.size < d.settings.maxPasses

lemma Ample.congr (h : Ample d) (he : Alike e d) : Ample e := by
  rw [Ample, Sheet.size_congr he.texts.1, he.settings]
  exact h

lemma upToDate_empty (settings : Settings) : UpToDate (empty settings) := by
  intro c r hr
  simp [empty, Sheet.empty, Sheet.get?] at hr

lemma not_deleted (hm : Mirrors d) (hr : d.sheet.get? c = some r) : c ∉ d.sheet.deleted := by
  intro hd
  have ht : d.sheet.text? c = none := hm.tidy.deleted_absent c hd
  simp [Sheet.text?_of_get? hr] at ht

section Refresh

lemma mem_partition (g : Graph) (ids : List Cell) :
    (∀ x, x ∈ (ids.partition (· ∈ g.cyclicAmong ids)).1 ↔ x ∈ ids ∧ LeadsToCycle g.Edge x) ∧
      ∀ x, x ∈ (ids.partition (· ∈ g.cyclicAmong ids)).2 ↔ x ∈ ids ∧ ¬ LeadsToCycle g.Edge x := by
  constructor
  · intro x
    simp [List.partition_eq_filter_filter, Graph.mem_cyclicAmong]
  · intro x
    simp only [List.partition_eq_filter_filter, List.mem_filter, Graph.mem_cyclicAmong,
      Function.comp_apply, Bool.not_eq_true', decide_eq_false_iff_not]
    tauto

lemma get?_refresh_of_not_mem (h : c ∉ ids) :
    (d.refresh ids).1.sheet.get? c = d.sheet.get? c := by
  obtain ⟨hcyclic, hacyclic⟩ := mem_partition d.graph ids
  rw [refresh]
  dsimp only
  rw [Sheet.get?_settle_of_not_mem, Sheet.get?_fail, if_neg]
  · exact fun hm => h ((hcyclic c).mp hm).1
  · exact fun hm => h ((hacyclic c).mp hm).1

lemma get?_refresh_cyclic (h : c ∈ ids) (hc : LeadsToCycle d.graph.Edge c) :
    (d.refresh ids).1.sheet.get? c = (d.sheet.get? c).map (·.fail .cycle) := by
  obtain ⟨hcyclic, hacyclic⟩ := mem_partition d.graph ids
  rw [refresh]
  dsimp only
  rw [Sheet.get?_settle_of_not_mem, Sheet.get?_fail, if_pos]
  · exact (hcyclic c).mpr ⟨h, hc⟩
  · exact fun hm => ((hacyclic c).mp hm).2 hc

lemma settled_acyclic {cap : ℕ} (hm : Mirrors d) (hcap : d.sheet.size ≤ cap) (h : c ∈ ids)
    (hc : ¬ LeadsToCycle d.graph.Edge c) :
    Sheet.Settled d.settings.policy
      ((d.sheet.fail .cycle (ids.partition (· ∈ d.graph.cyclicAmong ids)).1).settle
        d.settings.policy cap (ids.partition (· ∈ d.graph.cyclicAmong ids)).2).1 c := by
  obtain ⟨-, hacyclic⟩ := mem_partition d.graph ids
  set cyclic := (ids.partition (· ∈ d.graph.cyclicAmong ids)).1
  set acyclic := (ids.partition (· ∈ d.graph.cyclicAmong ids)).2
  have hs : Sheet.SameTexts (d.sheet.fail .cycle cyclic) d.sheet := Sheet.sameTexts_fail
  have htrans : ∀ x ∈ acyclic, ¬ TransGen d.graph.Edge x x := fun x hx hxx =>
    ((hacyclic x).mp hx).2 ⟨x, .refl, hxx⟩
  have hrank : Sheet.RankFalls (d.sheet.fail .cycle cyclic) acyclic
      (rank d.graph.Edge d.sheet.ids) := by
    intro x hx raw hraw y hy hya hty
    rw [hs.1] at hraw hty
    refine rank_lt_rank (hm.mentioned_reads ⟨raw, hraw, hy⟩ ?_) (Sheet.mem_ids.mpr hty)
      (htrans y hya)
    exact fun hd => hty (hm.tidy.deleted_absent y hd)
  have hca : c ∈ acyclic := (hacyclic c).mpr ⟨h, hc⟩
  intro r hr
  have ht : d.sheet.text? c = some r.raw := by
    rw [← hs.1, ← (Sheet.sameTexts_settle cap).1]
    exact Sheet.text?_of_get? hr
  have hlt : rank d.graph.Edge d.sheet.ids c < d.sheet.size := by
    rw [← Sheet.length_ids]
    exact rank_lt_length (Sheet.mem_ids.mpr (by simp [ht])) (htrans c hca)
  refine Sheet.settled_settle (n := 0) hrank ?_ _ hca ?_ r hr
  · exact fun x _ hx => absurd hx (Nat.not_lt_zero _)
  · rw [Nat.zero_add]
    exact hlt.trans_le hcap

lemma stable_refresh (hm : Mirrors d) (ha : Ample d) : (d.refresh ids).2.stable = true := by
  obtain ⟨-, hacyclic⟩ := mem_partition d.graph ids
  refine (Sheet.settle_snd (n := d.sheet.size) (fun c hc => ?_) ha).1
  exact settled_acyclic hm le_rfl ((hacyclic c).mp hc).1 ((hacyclic c).mp hc).2

lemma upToDate_refresh (hm : Mirrors d) (ha : Ample d)
    (hv : ∀ c r, c ∉ ids → d.sheet.get? c = some r → Verdict d c r)
    (hclosed : ∀ c, c ∉ ids → ∀ x ∈ ids, d.graph.Edge c x → LeadsToCycle d.graph.Edge c) :
    UpToDate (d.refresh ids).1 := by
  have hs : Sheet.SameTexts (d.refresh ids).1.sheet d.sheet := alike_refresh.texts
  intro c r hr
  by_cases hc : c ∈ ids
  · by_cases hcycle : LeadsToCycle d.graph.Edge c
    · rw [get?_refresh_cyclic hc hcycle] at hr
      obtain ⟨r', -, rfl⟩ := Option.map_eq_some_iff.mp hr
      exact .cyclic hcycle rfl
    · exact .evaluated hcycle (settled_acyclic hm ha.le hc hcycle r hr)
  · rw [get?_refresh_of_not_mem hc] at hr
    refine (hv c r hc hr).transfer ?_ Iff.rfl rfl fun h x hx => ?_
    · rw [Sheet.LeadsToDeleted, Sheet.LeadsToDeleted, hs.2, hs.mentions]
      exact id
    · refine Sheet.reading_congr ?_ (by rw [hs.2])
      by_cases hxi : x ∈ ids
      · -- A cell of the list that is mentioned but not read is deleted, and has no record.
        have hd : x ∈ d.sheet.deleted := by
          by_contra hd
          have hcx : d.sheet.Mentions c x := ⟨r.raw, Sheet.text?_of_get? hr, hx⟩
          exact h (hclosed c hc x hxi (hm.mentioned_reads hcx hd))
        have ht : d.sheet.text? x = none := hm.tidy.deleted_absent x hd
        rw [Sheet.text?_eq_none.mp ht, Sheet.text?_eq_none.mp ((hs.1 x).trans ht)]
      · exact (get?_refresh_of_not_mem hxi).symm

lemma upToDate_refreshReaders (hm : Mirrors d) (ha : Ample d)
    (hid : ∀ r, d.sheet.get? id = some r → Verdict d id r)
    (hv : ∀ c r, c ≠ id → ¬ TransGen d.graph.Edge c id → d.sheet.get? c = some r → Verdict d c r) :
    UpToDate (d.refreshReaders id) := by
  have hmem : ∀ c, c ∈ (d.graph.downstream {id}).toList ↔ c ≠ id ∧ TransGen d.graph.Edge c id :=
    fun c => Std.ExtTreeSet.mem_toList.trans Graph.mem_downstream_singleton
  refine upToDate_refresh hm ha (fun c r hc hr => ?_) fun c hc x hx hcx => ?_
  · by_cases hci : c = id
    · subst hci
      exact hid r hr
    · exact hv c r hci (fun h => hc ((hmem c).mpr ⟨hci, h⟩)) hr
  · -- Only the cell itself reads cells of the list without being one of them.
    have hci : TransGen d.graph.Edge c id := ((hmem x).mp hx).2.head hcx
    obtain rfl : c = id := by
      by_contra hne
      exact hc ((hmem c).mpr ⟨hne, hci⟩)
    exact ⟨c, .refl, hci⟩

end Refresh

section Edit

structure EditedAt (id : Cell) (d e : Document) : Prop where
  get? : ∀ c, c ≠ id → e.sheet.get? c = d.sheet.get? c
  deleted : ∀ c, c ≠ id → (c ∈ e.sheet.deleted ↔ c ∈ d.sheet.deleted)
  unmarked : id ∉ e.sheet.deleted
  edge : ∀ c, c ≠ id → ¬ e.graph.Edge c id → ∀ x, e.graph.Edge c x ↔ d.graph.Edge c x
  settings : e.settings = d.settings

lemma EditedAt.mentions (h : EditedAt id d e) (hc : c ≠ id) :
    e.sheet.Mentions c x ↔ d.sheet.Mentions c x := by
  apply Sheet.Mentions.congr
  simp only [Sheet.text?]
  rw [h.get? c hc]

lemma EditedAt.leadsToDeleted (h : EditedAt id d e) (he : Mirrors e) (hc : c ≠ id)
    (hid : ¬ TransGen e.graph.Edge c id) (hd : d.sheet.LeadsToDeleted c) :
    e.sheet.LeadsToDeleted c := by
  obtain ⟨t, ht, hct⟩ := hd
  suffices hp : t ≠ id ∧ TransGen e.sheet.Mentions c t from
    ⟨t, (h.deleted t hp.1).mpr ht, hp.2⟩
  -- The mentions before `id` are edges after the edit, so the path avoids `id`.
  induction hct using TransGen.head_induction_on with
  | @single c hct =>
    have hct' : e.sheet.Mentions c t := (h.mentions hc).mpr hct
    refine ⟨?_, .single hct'⟩
    rintro rfl
    exact hid (.single (he.mentioned_reads hct' h.unmarked))
  | @head c y hcy hyt ih =>
    have hcy : e.sheet.Mentions c y := (h.mentions hc).mpr hcy
    obtain ⟨z, hyz, -⟩ := TransGen.head'_iff.mp hyt
    have hy : y ∉ e.sheet.deleted := by
      by_cases hyi : y = id
      · exact hyi ▸ h.unmarked
      · obtain ⟨raw, hraw, -⟩ := (h.mentions hyi).mpr hyz
        intro hd
        simp [he.tidy.deleted_absent y hd] at hraw
    have hread : e.graph.Edge c y := he.mentioned_reads hcy hy
    have hyi : y ≠ id := by
      rintro rfl
      exact hid (.single hread)
    obtain ⟨hti, hp⟩ := ih hyi (fun hyi => hid (hyi.head hread))
    exact ⟨hti, hp.head hcy⟩

lemma EditedAt.verdict (h : EditedAt id d e) (he : Mirrors e) (hc : c ≠ id)
    (hid : ¬ TransGen e.graph.Edge c id) (hr : e.sheet.get? c = some r) (hv : Verdict d c r) :
    Verdict e c r := by
  have hcycle : LeadsToCycle e.graph.Edge c ↔ LeadsToCycle d.graph.Edge c := by
    refine leadsToCycle_congr fun x hx y => h.edge x ?_ ?_ y
    · rintro rfl
      rcases reflTransGen_iff_eq_or_transGen.mp hx with hx | hx
      · exact hc hx.symm
      · exact hid hx
    · exact fun hxi => hid (TransGen.tail' hx hxi)
  refine hv.transfer (h.leadsToDeleted he hc hid) hcycle.symm h.settings fun _ x hx => ?_
  have hxi : x ≠ id := by
    rintro rfl
    exact hid (.single (he.mentioned_reads ⟨r.raw, Sheet.text?_of_get? hr, hx⟩ h.unmarked))
  exact Sheet.reading_congr (h.get? x hxi).symm (h.deleted x hxi).symm

lemma editedAt_entered : EditedAt id d (d.entered id raw) := by
  refine ⟨fun c hc => ?_, fun c hc => ?_, ?_, fun c hc hid x => ?_, entered_settings⟩
  · rw [entered_sheet, Sheet.get?_write_of_ne hc]
  · rw [entered_sheet, Sheet.mem_deleted_write]
    exact and_iff_right hc
  · rw [entered_sheet, Sheet.mem_deleted_write]
    exact fun h => h.1 rfl
  · rw [edge_entered, if_neg hc] at hid ⊢
    split at hid
    · rename_i hm
      exact absurd hm.2 hid
    · rename_i hm
      rw [if_neg hm]

lemma editedAt_cleared (h : id ∉ d.sheet.deleted) : EditedAt id d (d.cleared id) := by
  refine ⟨fun c hc => ?_, fun c _ => Iff.rfl, h, fun c hc _ x => ?_, rfl⟩
  · exact Sheet.get?_clear.trans (if_neg hc)
  · rw [edge_cleared]
    exact and_iff_right hc

lemma get?_evaluateCell_of_ne (h : c ≠ id) :
    (d.evaluateCell id).sheet.get? c = d.sheet.get? c := by
  rw [evaluateCell]
  dsimp only
  split
  · rw [Sheet.get?_fail, if_neg (by simpa using h)]
  · rw [Sheet.get?_refresh, if_neg (Ne.symm h)]

lemma EditedAt.evaluateCell (h : EditedAt id d e) : EditedAt id d (e.evaluateCell id) := by
  have hd : (e.evaluateCell id).sheet.deleted = e.sheet.deleted := alike_evaluateCell.texts.2
  refine ⟨fun c hc => ?_, fun c hc => ?_, ?_, h.edge, h.settings⟩
  · rw [get?_evaluateCell_of_ne hc, h.get? c hc]
  · rw [hd, h.deleted c hc]
  · rw [hd]
    exact h.unmarked

lemma verdict_evaluateCell (hm : Mirrors d) (hd : id ∉ d.sheet.deleted)
    (hr : (d.evaluateCell id).sheet.get? id = some r) : Verdict (d.evaluateCell id) id r := by
  rw [evaluateCell] at hr ⊢
  dsimp only at hr
  split at hr
  · rename_i hcycle
    rw [Sheet.get?_fail, if_pos (List.mem_singleton_self id)] at hr
    obtain ⟨r', -, rfl⟩ := Option.map_eq_some_iff.mp hr
    exact .cyclic (Graph.reachesCycle_iff.mp hcycle) rfl
  · rename_i hcycle
    rw [Graph.reachesCycle_iff] at hcycle
    have hself : ∀ raw, d.sheet.text? id = some raw → id ∉ Raw.references raw := by
      intro raw hraw hmem
      exact hcycle ⟨id, .refl, .single (hm.mentioned_reads ⟨raw, hraw, hmem⟩ hd)⟩
    refine .evaluated hcycle ?_
    simp only [if_neg (mt Graph.reachesCycle_iff.mp hcycle)]
    exact Sheet.settled_refresh (Or.inl rfl) hself r hr

lemma upToDate_write (hm : Mirrors d) (hu : UpToDate d) (hb : Raw.isBlank raw = false)
    (ha : Ample (d.write id raw).1) : UpToDate (d.write id raw).1 := by
  rw [write_of_nonblank hb] at ha ⊢
  have he : EditedAt id d (d.entered id raw) := editedAt_entered
  have hm : Mirrors (d.entered id raw) := hm.entered hb
  have hm' : Mirrors ((d.entered id raw).evaluateCell id) := hm.congr alike_evaluateCell
  refine upToDate_refreshReaders hm' (ha.congr alike_refreshReaders.symm)
    (fun r hr => verdict_evaluateCell hm he.unmarked hr) fun c r hc hid hr => ?_
  refine he.evaluateCell.verdict hm' hc hid hr (hu c r ?_)
  rw [← hr, he.evaluateCell.get? c hc]

lemma cleared_eq_self (hm : Mirrors d) (h : d.sheet.get? id = none) : d.cleared id = d := by
  have hs : d.sheet.clear id = d.sheet := by
    apply Sheet.ext
    · intro c
      rw [Sheet.get?_clear]
      split
      · rename_i hc
        rw [hc, h]
      · rfl
    · exact fun c => Iff.rfl
  have hg : d.graph.setReads id ∅ = d.graph := by
    apply Graph.ext
    intro c
    rw [Graph.reads_setReads]
    split
    · rename_i hc
      subst hc
      apply Std.ExtTreeSet.ext_mem
      intro x
      refine iff_of_false Std.ExtTreeSet.not_mem_empty fun hx => ?_
      obtain ⟨raw, hraw, -⟩ := hm.reads_mentioned hx
      simp [Sheet.text?_eq_none.mpr h] at hraw
    · rfl
  rw [cleared, hs, hg]

lemma upToDate_clear (hm : Mirrors d) (hu : UpToDate d) (ha : Ample (d.clear id)) :
    UpToDate (d.clear id) := by
  rw [clear_eq] at ha ⊢
  split at ha
  · rename_i hsome
    obtain ⟨r, hr⟩ := Option.isSome_iff_exists.mp hsome
    have he : EditedAt id d (d.cleared id) := editedAt_cleared (not_deleted hm hr)
    rw [if_pos hsome]
    refine upToDate_refreshReaders hm.cleared (ha.congr alike_refreshReaders.symm)
      (fun r hr => ?_) fun c r hc hid hr => ?_
    · rw [show (d.cleared id).sheet.get? id = none from Sheet.get?_clear.trans (if_pos rfl)] at hr
      cases hr
    · exact he.verdict hm.cleared hc hid hr (hu c r (by rw [← hr, he.get? c hc]))
  · rename_i hnone
    rw [if_neg hnone, cleared_eq_self hm (by simpa using hnone)]
    exact hu

lemma leadsToDeleted_deleteCells {t : Cell} (hc : c ∉ ids)
    (ht : t ∈ (d.delete ids).1.sheet.deleted) (h : TransGen d.sheet.Mentions c t) :
    (d.delete ids).1.sheet.LeadsToDeleted c := by
  induction h using TransGen.head_induction_on with
  | single hct => exact ⟨t, ht, .single (mentions_deleteCells.mpr ⟨hc, hct⟩)⟩
  | @head c y hcy _ ih =>
    -- A cell of the list loses its text, so the path ends at the first one.
    have hcy' : (d.delete ids).1.sheet.Mentions c y := mentions_deleteCells.mpr ⟨hc, hcy⟩
    by_cases hy : y ∈ ids
    · exact ⟨y, mem_deleted_deleteCells.mpr (Or.inl hy), .single hcy'⟩
    · obtain ⟨z, hz, hyz⟩ := ih hy
      exact ⟨z, hz, hyz.head hcy'⟩

lemma not_mem_of_reach (hc : c ∉ ids) (hi : c ∉ (d.delete ids).2)
    (hx : ReflTransGen d.graph.Edge c x) : x ∉ ids ∧ x ∉ (d.delete ids).2 := by
  have hids : ∀ y, ReflTransGen d.graph.Edge c y → y ∉ ids := by
    intro y hy hyi
    rcases reflTransGen_iff_eq_or_transGen.mp hy with rfl | hy
    · exact hc hyi
    · exact hi (mem_invalid.mpr ⟨hc, y, hyi, hy⟩)
  refine ⟨hids x hx, fun hxi => ?_⟩
  obtain ⟨-, y, hyi, hxy⟩ := mem_invalid.mp hxi
  exact hids y (hx.trans hxy.to_reflTransGen) hyi

lemma leadsToCycle_deleteCells (hc : c ∉ ids) (hi : c ∉ (d.delete ids).2) :
    LeadsToCycle d.graph.Edge c ↔ LeadsToCycle (d.delete ids).1.graph.Edge c := by
  refine leadsToCycle_congr fun x hx y => ?_
  rw [edge_deleteCells]
  constructor
  · intro hxy
    exact ⟨(not_mem_of_reach hc hi hx).1, (not_mem_of_reach hc hi (hx.tail hxy)).1, hxy⟩
  · exact fun hxy => hxy.2.2

lemma reading_deleteCells (hm : Mirrors d) (hc : c ∉ ids) (hi : c ∉ (d.delete ids).2)
    (hx : d.sheet.Mentions c x) : d.sheet.reading x = (d.delete ids).1.sheet.reading x := by
  by_cases hd : x ∈ d.sheet.deleted
  · have hnone : d.sheet.get? x = none := Sheet.text?_eq_none.mp (hm.tidy.deleted_absent x hd)
    apply Sheet.reading_congr
    · simp [get?_deleteCells, hnone]
    · simp [mem_deleted_deleteCells, hd]
  · obtain ⟨hxi, hxv⟩ := not_mem_of_reach hc hi (.single (hm.mentioned_reads hx hd))
    apply Sheet.reading_congr
    · rw [get?_deleteCells, if_neg hxi, if_neg hxv]
    · simp [mem_deleted_deleteCells, hxi]

lemma upToDate_deleteCells (hm : Mirrors d) (hu : UpToDate d) : UpToDate (d.delete ids).1 := by
  intro c r hr
  rw [get?_deleteCells] at hr
  split at hr
  · cases hr
  rename_i hc
  split at hr
  · rename_i hi
    obtain ⟨r', -, rfl⟩ := Option.map_eq_some_iff.mp hr
    obtain ⟨-, x, hx, hcx⟩ := mem_invalid.mp hi
    refine .broken (leadsToDeleted_deleteCells hc (mem_deleted_deleteCells.mpr (Or.inl hx)) ?_) rfl
    exact TransGen.mono (fun _ _ => hm.reads_mentioned) _ _ hcx
  · rename_i hi
    refine (hu c r hr).transfer ?_ (leadsToCycle_deleteCells hc hi) deleteCells_settings ?_
    · rintro ⟨t, ht, hct⟩
      exact leadsToDeleted_deleteCells hc (mem_deleted_deleteCells.mpr (Or.inr ht)) hct
    · exact fun _ x hx => reading_deleteCells hm hc hi ⟨r.raw, Sheet.text?_of_get? hr, hx⟩

lemma upToDate_refreshAll (hm : Mirrors d.connected) (ha : Ample d.refreshAll.1) :
    UpToDate d.refreshAll.1 := by
  rw [refreshAll_fst] at ha ⊢
  have hids : ∀ c, c ∉ d.sheet.ids → d.connected.sheet.text? c = none := by
    intro c hc
    rw [connected_sheet]
    exact Sheet.not_mem_ids.mp hc
  refine upToDate_refresh hm (ha.congr alike_refresh.symm) (fun c r hc hr => ?_)
    fun c hc x _ hcx => ?_
  · simp [Sheet.text?_eq_none.mp (hids c hc)] at hr
  · obtain ⟨raw, hraw, -⟩ := hm.reads_mentioned hcx
    simp [hids c hc] at hraw

end Edit

end Document

end Spreadsheet
