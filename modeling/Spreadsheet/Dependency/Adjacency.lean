import Spreadsheet.Cell.Basic

/-! Neighbours of cells. Only sets with members are stored, so an adjacency is determined by the
neighbours it gives. -/

namespace Spreadsheet

structure Adjacency where
  map : CellMap CellSet
  nonempty : ∀ (c : Cell) (s : CellSet), map[c]? = some s → s ≠ ∅

namespace Adjacency

def empty : Adjacency :=
  ⟨∅, by simp⟩

def of (a : Adjacency) (c : Cell) : CellSet :=
  a.map.getD c ∅

def size (a : Adjacency) : Nat :=
  a.map.size

def cells (a : Adjacency) : List Cell :=
  a.map.keys

def set (a : Adjacency) (c : Cell) (s : CellSet) : Adjacency :=
  if h : s.isEmpty then
    ⟨a.map.erase c, fun d t ht => by
      rw [Std.ExtTreeMap.getElem?_erase] at ht
      split at ht
      · contradiction
      · exact a.nonempty d t ht⟩
  else
    ⟨a.map.insert c s, fun d t ht => by
      rw [Std.ExtTreeMap.getElem?_insert] at ht
      split at ht
      · cases ht
        simpa [Std.ExtTreeSet.isEmpty_iff] using h
      · exact a.nonempty d t ht⟩

def clear (a : Adjacency) (c : Cell) : Adjacency :=
  a.set c ∅

def link (a : Adjacency) (c : Cell) (ds : List Cell) : Adjacency :=
  ds.foldl (fun a d => a.set d ((a.of d).insert c)) a

def unlink (a : Adjacency) (c : Cell) (ds : List Cell) : Adjacency :=
  ds.foldl (fun a d => a.set d ((a.of d).erase c)) a

@[simp] theorem of_empty (c : Cell) : empty.of c = ∅ := by
  simp [of, empty]

theorem of_set (a : Adjacency) (c d : Cell) (s : CellSet) :
    (a.set c s).of d = if c = d then s else a.of d := by
  unfold set of
  split
  · rename_i h
    rw [Std.ExtTreeMap.getD_erase]
    simp only [Std.compare_eq_iff_eq]
    split
    · exact (Std.ExtTreeSet.isEmpty_iff.mp h).symm
    · rfl
  · rw [Std.ExtTreeMap.getD_insert]
    simp only [Std.compare_eq_iff_eq]

@[ext] theorem ext {a b : Adjacency} (h : ∀ c, a.of c = b.of c) : a = b := by
  obtain ⟨m, hm⟩ := a
  obtain ⟨n, hn⟩ := b
  congr 1
  apply Std.ExtTreeMap.ext_getElem?
  intro c
  have hc := h c
  simp only [of, Std.ExtTreeMap.getD_eq_getD_getElem?] at hc
  cases h₁ : m[c]? <;> cases h₂ : n[c]? <;> simp_all
  · exact (hn c _ h₂ rfl).elim
  · exact hm c _ h₁ rfl

theorem mem_of_link {a : Adjacency} {c x d : Cell} {ds : List Cell} :
    x ∈ (a.link c ds).of d ↔ x ∈ a.of d ∨ (x = c ∧ d ∈ ds) := by
  unfold link
  induction ds generalizing a with
  | nil => simp
  | cons e ds ih =>
    rw [List.foldl_cons, ih, of_set]
    split <;> simp_all [Std.ExtTreeSet.mem_insert] <;> grind

theorem mem_of_unlink {a : Adjacency} {c x d : Cell} {ds : List Cell} :
    x ∈ (a.unlink c ds).of d ↔ x ∈ a.of d ∧ ¬ (x = c ∧ d ∈ ds) := by
  unfold unlink
  induction ds generalizing a with
  | nil => simp
  | cons e ds ih =>
    rw [List.foldl_cons, ih, of_set]
    split <;> simp_all [Std.ExtTreeSet.mem_erase] <;> grind

theorem mem_cells {a : Adjacency} {c : Cell} : c ∈ a.cells ↔ a.of c ≠ ∅ := by
  unfold cells of
  rw [Std.ExtTreeMap.mem_keys, Std.ExtTreeMap.mem_iff_isSome_getElem?,
    Std.ExtTreeMap.getD_eq_getD_getElem?]
  cases h : a.map[c]? with
  | none => simp
  | some s => simpa using a.nonempty c s h

theorem size_clear_lt {a : Adjacency} {c : Cell} (h : a.of c ≠ ∅) :
    (a.clear c).size < a.size := by
  have hc : c ∈ a.map := by simpa [cells] using mem_cells.mpr h
  have hs : a.map.size ≠ 0 := by
    rw [Ne, ← Std.ExtTreeMap.eq_empty_iff_size_eq_zero]
    rintro he
    simp [he] at hc
  have hm : a.map.contains c = true := hc
  simp only [clear, set, size, Std.ExtTreeSet.isEmpty_empty, dite_true, Std.ExtTreeMap.size_erase,
    hm, if_true]
  omega

end Adjacency

end Spreadsheet
