import Spreadsheet.Proofs.Sheet.Settling

namespace Spreadsheet

namespace Record

@[simp] lemma raw_rewrite (r : Record) (raw : String) : (r.rewrite raw).raw = raw := by
  rw [rewrite]
  split
  · assumption
  · split <;> rfl

@[simp] lemma raw_ofRaw (raw : String) : (ofRaw raw).raw = raw := rfl

lemma error?_eq_some {r : Record} {code : CellError} :
    r.error? = some code ↔ r.shown = .error code := by
  rw [error?]
  cases r.shown <;> simp

end Record

namespace Sheet

variable {s t : Sheet} {id c x : Cell} {raw : String}

def Mentions (s : Sheet) (c x : Cell) : Prop :=
  ∃ raw, s.text? c = some raw ∧ x ∈ Raw.references raw

lemma Mentions.congr (h : s.text? c = t.text? c) : s.Mentions c x ↔ t.Mentions c x := by
  simp [Mentions, h]

lemma SameTexts.mentions (h : SameTexts s t) : s.Mentions = t.Mentions := by
  funext c x
  exact propext (Mentions.congr (h.1 c))

lemma mentions_iff (h : s.text? c = some raw) : s.Mentions c x ↔ x ∈ Raw.references raw := by
  simp [Mentions, h]

instance : Decidable (s.Mentions c x) :=
  match h : s.text? c with
  | some _ => decidable_of_iff _ (mentions_iff h).symm
  | none => isFalse (by simp [Mentions, h])

structure Tidy (s : Sheet) : Prop where
  deleted_absent : ∀ c ∈ s.deleted, s.text? c = none
  nonblank : ∀ c raw, s.text? c = some raw → Raw.isBlank raw = false

lemma tidy_empty : Tidy .empty := by
  constructor <;> simp [Sheet.empty, text?, get?]

lemma Tidy.congr (h : Tidy s) (ht : SameTexts t s) : Tidy t := by
  constructor
  · intro c hc
    rw [ht.1]
    exact h.deleted_absent c (ht.2 ▸ hc)
  · intro c raw hc
    exact h.nonblank c raw (ht.1 c ▸ hc)

section Write

lemma get?_write_self :
    (s.write id raw).get? id = some ((s.get? id).elim (.ofRaw raw) (·.rewrite raw)) := by
  rw [write]
  cases s.get? id <;> simp [get?]

lemma get?_write_of_ne (h : x ≠ id) : (s.write id raw).get? x = s.get? x := by
  simp [write, get?, Std.ExtTreeMap.getElem?_insert, h.symm]

lemma text?_write : (s.write id raw).text? x = if x = id then some raw else s.text? x := by
  by_cases h : x = id
  · subst h
    rw [text?, write]
    split <;> simp [get?]
  · simp [text?, get?_write_of_ne h, h]

lemma mem_deleted_write : x ∈ (s.write id raw).deleted ↔ x ≠ id ∧ x ∈ s.deleted := by
  simp [write, Std.ExtTreeSet.mem_erase, @eq_comm _ id]

lemma SameTexts.write (h : SameTexts s t) : SameTexts (s.write id raw) (t.write id raw) := by
  refine ⟨fun x => ?_, Std.ExtTreeSet.ext_mem fun x => ?_⟩
  · rw [text?_write, text?_write, h.1]
  · rw [mem_deleted_write, mem_deleted_write, h.2]

lemma Tidy.write (h : Tidy s) (hb : Raw.isBlank raw = false) : Tidy (s.write id raw) := by
  constructor
  · intro c hc
    obtain ⟨hne, hc⟩ := mem_deleted_write.mp hc
    rw [text?_write, if_neg hne]
    exact h.deleted_absent c hc
  · intro c raw' hc
    rw [text?_write] at hc
    split at hc
    · cases hc
      exact hb
    · exact h.nonblank c raw' hc

end Write

section Clear

lemma get?_clear : (s.clear id).get? x = if x = id then none else s.get? x := by
  simp [clear, get?, Std.ExtTreeMap.getElem?_erase, @eq_comm _ id]

lemma text?_clear : (s.clear id).text? x = if x = id then none else s.text? x := by
  simp only [text?, get?_clear]
  split <;> rfl

lemma Tidy.clear (h : Tidy s) : Tidy (s.clear id) := by
  constructor
  · intro c hc
    rw [text?_clear, h.deleted_absent c hc, ite_self]
  · intro c raw hc
    rw [text?_clear, Option.ite_none_left_eq_some] at hc
    exact h.nonblank c raw hc.2

end Clear

section Delete

lemma get?_delete : (s.delete id).get? x = if x = id then none else s.get? x :=
  get?_clear

lemma mem_deleted_delete : x ∈ (s.delete id).deleted ↔ x = id ∨ x ∈ s.deleted := by
  simp [delete, Std.ExtTreeSet.mem_insert, @eq_comm _ id]

end Delete

section Enter

variable {cells : List (Cell × String)}

def enter (s : Sheet) (cells : List (Cell × String)) : Sheet :=
  (cells.filter fun (_, raw) => !Raw.isBlank raw).foldl (fun s (id, raw) => s.write id raw) s

lemma enter_cons : s.enter ((id, raw) :: cells) =
    if Raw.isBlank raw then s.enter cells else (s.write id raw).enter cells := by
  cases h : Raw.isBlank raw <;> simp [enter, h]

lemma Tidy.enter (h : Tidy s) : Tidy (s.enter cells) := by
  induction cells generalizing s with
  | nil => exact h
  | cons cell cells ih =>
    rw [enter_cons]
    split
    · exact ih h
    · rename_i hb
      exact ih (h.write (by simpa using hb))

lemma text?_enter_of_not_mem (h : ∀ raw, (x, raw) ∈ cells → Raw.isBlank raw = true) :
    (s.enter cells).text? x = s.text? x := by
  induction cells generalizing s with
  | nil => rfl
  | cons cell cells ih =>
    have ht : ∀ raw, (x, raw) ∈ cells → Raw.isBlank raw = true := fun raw hm =>
      h raw (List.mem_cons_of_mem _ hm)
    rw [enter_cons]
    split
    · exact ih ht
    · rename_i hb
      rw [ih ht, text?_write, if_neg]
      rintro rfl
      exact hb (h cell.2 List.mem_cons_self)

lemma text?_enter_of_mem (hk : (cells.map Prod.fst).Nodup) (hm : (x, raw) ∈ cells)
    (hb : Raw.isBlank raw = false) : (s.enter cells).text? x = some raw := by
  induction cells generalizing s with
  | nil => cases hm
  | cons cell cells ih =>
    obtain ⟨id, raw'⟩ := cell
    rw [List.map_cons, List.nodup_cons] at hk
    rw [enter_cons]
    rcases List.mem_cons.mp hm with he | hm
    · cases he
      rw [if_neg (by simp [hb]), text?_enter_of_not_mem, text?_write, if_pos rfl]
      intro raw' hm
      exact absurd (List.mem_map_of_mem (f := Prod.fst) hm) hk.1
    · split
      · exact ih hk.2 hm
      · exact ih hk.2 hm

lemma text?_enter_ne_none (h : s.text? x ≠ none) : (s.enter cells).text? x ≠ none := by
  induction cells generalizing s with
  | nil => exact h
  | cons cell cells ih =>
    rw [enter_cons]
    split
    · exact ih h
    · apply ih
      rw [text?_write]
      split
      · simp
      · exact h

lemma mem_deleted_enter_of_not_mem (h : ∀ raw, (x, raw) ∈ cells → Raw.isBlank raw = true) :
    x ∈ (s.enter cells).deleted ↔ x ∈ s.deleted := by
  induction cells generalizing s with
  | nil => rfl
  | cons cell cells ih =>
    have ht : ∀ raw, (x, raw) ∈ cells → Raw.isBlank raw = true := fun raw hm =>
      h raw (List.mem_cons_of_mem _ hm)
    rw [enter_cons]
    split
    · exact ih ht
    · rename_i hb
      rw [ih ht, mem_deleted_write, and_iff_right]
      rintro rfl
      exact hb (h cell.2 List.mem_cons_self)

lemma mem_deleted_of_enter (h : x ∈ (s.enter cells).deleted) : x ∈ s.deleted := by
  induction cells generalizing s with
  | nil => exact h
  | cons cell cells ih =>
    rw [enter_cons] at h
    split at h
    · exact ih h
    · exact (mem_deleted_write.mp (ih h)).2

lemma not_mem_deleted_enter_empty : x ∉ (empty.enter cells).deleted :=
  fun h => Std.ExtTreeSet.not_mem_empty (mem_deleted_of_enter h)

end Enter

section Keys

lemma mem_ids : x ∈ s.ids ↔ s.text? x ≠ none := by
  rw [Ne, text?_eq_none, ids, Std.ExtTreeMap.mem_keys, Std.ExtTreeMap.mem_iff_isSome_getElem?,
    Option.isSome_iff_ne_none, get?]

lemma not_mem_ids : x ∉ s.ids ↔ s.text? x = none := by
  rw [mem_ids, not_not]

lemma length_ids : s.ids.length = s.size :=
  Std.ExtTreeMap.length_keys

lemma nodup_ids : s.ids.Nodup :=
  Std.ExtTreeMap.nodup_keys

lemma ids_congr (h : ∀ x, s.text? x = t.text? x) : s.ids = t.ids := by
  have hp : s.ids.Perm t.ids := by
    rw [List.perm_ext_iff_of_nodup nodup_ids nodup_ids]
    intro x
    rw [mem_ids, mem_ids, h]
  refine hp.eq_of_pairwise (fun a b _ _ hab hba => ?_) Std.ExtTreeMap.ordered_keys
    Std.ExtTreeMap.ordered_keys
  exact absurd hba (Std.OrientedCmp.not_lt_of_lt hab)

lemma size_congr (h : ∀ x, s.text? x = t.text? x) : s.size = t.size := by
  rw [← length_ids, ← length_ids, ids_congr h]

lemma mem_records {r : Record} : (x, r) ∈ s.records.toList ↔ s.get? x = some r :=
  Std.ExtTreeMap.mem_toList_iff_getElem?_eq_some

end Keys

end Sheet

end Spreadsheet
