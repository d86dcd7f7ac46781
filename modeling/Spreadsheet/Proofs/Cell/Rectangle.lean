import Mathlib.Data.Nat.Dist
import Mathlib.Data.Sym.Sym2
import Mathlib.Order.Interval.Set.UnorderedInterval
import Mathlib.Order.Lattice.Nat
import Spreadsheet.Cell.Rectangle
import Spreadsheet.Proofs.Cell.Name

namespace Spreadsheet

open Column (maxCoordinate)

lemma Cell.lt_iff {a b : Cell} : a < b ↔ a.col < b.col ∨ a.col = b.col ∧ a.row < b.row := by
  change (compare a.col b.col).then (compare a.row b.row) = .lt ↔ _
  rw [Ordering.then_eq_lt, Nat.compare_eq_lt, Nat.compare_eq_eq, Nat.compare_eq_lt]

namespace Rectangle

variable {r t : Rectangle} {col row : ℕ} {c : Cell}

section Bounds

lemma left_le_right : r.left ≤ r.right :=
  min_le_max

lemma top_le_bottom : r.top ≤ r.bottom :=
  min_le_max

lemma col_bound (hl : r.left ≤ col) (hr : col ≤ r.right) : 0 < col ∧ col ≤ maxCoordinate := by
  have := r.first.col_bound
  have := r.last.col_bound
  rw [left] at hl
  rw [right] at hr
  omega

lemma row_bound (ht : r.top ≤ row) (hb : row ≤ r.bottom) : 0 < row ∧ row ≤ maxCoordinate := by
  have := r.first.row_bound
  have := r.last.row_bound
  rw [top] at ht
  rw [bottom] at hb
  omega

lemma size_lt (r : Rectangle) : r.size < 2 ^ 64 := by
  have hcols : r.right - r.left + 1 ≤ maxCoordinate := by
    have hle : r.left ≤ r.right := left_le_right
    have hl := col_bound le_rfl hle
    have hr := col_bound hle le_rfl
    omega
  have hrows : r.bottom - r.top + 1 ≤ maxCoordinate := by
    have hle : r.top ≤ r.bottom := top_le_bottom
    have ht := row_bound le_rfl hle
    have hb := row_bound hle le_rfl
    omega
  calc r.size ≤ maxCoordinate * maxCoordinate := Nat.mul_le_mul hcols hrows
    _ < 2 ^ 64 := by decide

lemma size_eq (a b : Cell) :
    size ⟨a, b⟩ = (Nat.dist a.col b.col + 1) * (Nat.dist a.row b.row + 1) := by
  have hspan : ∀ m n, max m n - min m n = Nat.dist m n := by
    intro m n
    rw [Nat.dist]
    omega
  rw [size, ← hspan, ← hspan]
  rfl

end Bounds

section Listing

def listing (r : Rectangle) : List Cell :=
  (List.range' r.left (r.right - r.left + 1)).flatMap r.column

lemma cells?_eq (r : Rectangle) : r.cells? = if r.size ≤ maxCells then some r.listing else none :=
  rfl

lemma mem_column : c ∈ r.column col ↔ c.col = col ∧ r.top ≤ c.row ∧ c.row ≤ r.bottom := by
  have hle : r.top ≤ r.bottom := top_le_bottom
  rw [column, Cell.mem_filterMap_of?]
  omega

lemma mem_listing : c ∈ r.listing ↔
    (r.left ≤ c.col ∧ c.col ≤ r.right) ∧ r.top ≤ c.row ∧ c.row ≤ r.bottom := by
  have hle : r.left ≤ r.right := left_le_right
  simp only [listing, List.mem_flatMap, List.mem_range'_1, mem_column]
  constructor
  · rintro ⟨col, hcol, rfl, hrow⟩
    exact ⟨by omega, hrow⟩
  · rintro ⟨hcol, hrow⟩
    exact ⟨c.col, by omega, rfl, hrow⟩

lemma pairwise_column : (r.column col).Pairwise (· < ·) := by
  have hrows := List.pairwise_lt_range' (s := r.top) (n := r.bottom - r.top + 1) 1
  refine List.pairwise_filterMap.mpr (hrows.imp fun hlt a ha b hb => ?_)
  obtain ⟨rfl, rfl⟩ := Cell.of?_eq_some.mp ha
  obtain ⟨hcol, rfl⟩ := Cell.of?_eq_some.mp hb
  exact Cell.lt_iff.mpr (Or.inr ⟨hcol.symm, hlt⟩)

lemma pairwise_listing : r.listing.Pairwise (· < ·) := by
  have hcols := List.pairwise_lt_range' (s := r.left) (n := r.right - r.left + 1) 1
  refine List.pairwise_flatMap.mpr ⟨fun _ _ => pairwise_column, hcols.imp fun hlt a ha b hb => ?_⟩
  obtain ⟨rfl, -⟩ := mem_column.mp ha
  obtain ⟨rfl, -⟩ := mem_column.mp hb
  exact Cell.lt_iff.mpr (Or.inl hlt)

lemma length_column (hl : r.left ≤ col) (hr : col ≤ r.right) :
    (r.column col).length = r.bottom - r.top + 1 := by
  have hle : r.top ≤ r.bottom := top_le_bottom
  have hall : ∀ row ∈ List.range' r.top (r.bottom - r.top + 1),
      (Cell.of? col row).isSome = true := by
    intro row hrow
    rw [List.mem_range'_1] at hrow
    have hb : 0 < row ∧ row ≤ maxCoordinate := row_bound hrow.1 (by omega)
    rw [Cell.of?, dif_pos ⟨col_bound hl hr, hb⟩, Option.isSome_some]
  rw [column, List.length_filterMap_eq_countP, List.countP_eq_length.mpr hall, List.length_range']

lemma length_listing : r.listing.length = r.size := by
  have hle : r.left ≤ r.right := left_le_right
  have hlength : ∀ col ∈ List.range' r.left (r.right - r.left + 1),
      (r.column col).length = r.bottom - r.top + 1 := by
    intro col hcol
    rw [List.mem_range'_1] at hcol
    exact length_column hcol.1 (by omega)
  rw [listing, List.length_flatMap, List.map_congr_left hlength, List.map_const',
    List.sum_replicate, List.length_range', size, smul_eq_mul]

lemma cells?_congr (hl : r.left = t.left) (hr : r.right = t.right) (ht : r.top = t.top)
    (hb : r.bottom = t.bottom) : r.cells? = t.cells? := by
  have hcolumn : r.column = t.column := by
    funext col
    rw [column, column, ht, hb]
  rw [cells?, cells?, size, size, hcolumn, hl, hr, ht, hb]

end Listing

theorem cells?_lists_rectangle (a b : Cell) :
    let size := (Nat.dist a.col b.col + 1) * (Nat.dist a.row b.row + 1)
    size < 2 ^ 64 ∧ (cells? ⟨a, b⟩ = none ↔ 1000000 < size) ∧
    (∀ ids, cells? ⟨a, b⟩ = some ids → ids.Pairwise (· < ·) ∧ ids.Nodup ∧ ids.length = size ∧
      ∀ c, c ∈ ids ↔ c.col ∈ Set.uIcc a.col b.col ∧ c.row ∈ Set.uIcc a.row b.row) ∧
    ∀ c d : Cell, s(c.col, d.col) = s(a.col, b.col) → s(c.row, d.row) = s(a.row, b.row) →
      cells? ⟨c, d⟩ = cells? ⟨a, b⟩ := by
  intro size
  have hsize : Rectangle.size ⟨a, b⟩ = size := size_eq a b
  refine ⟨hsize ▸ size_lt _, ?_, fun ids h => ?_, fun c d hcol hrow => ?_⟩
  · rw [cells?_eq, hsize, maxCells, ite_eq_right_iff]
    simp
  · rw [cells?_eq, Option.ite_none_right_eq_some, Option.some_inj] at h
    obtain ⟨-, rfl⟩ := h
    refine ⟨pairwise_listing, pairwise_listing.imp fun h => ?_, length_listing.trans hsize,
      fun c => ?_⟩
    · rintro rfl
      rw [Cell.lt_iff] at h
      omega
    · simp only [mem_listing, Set.mem_uIcc, left, right, top, bottom]
      omega
  · rw [Sym2.eq_iff] at hcol hrow
    apply cells?_congr <;> simp only [left, right, top, bottom] <;> omega

theorem cells?_lists_rectangle_last :
    let a : Cell := ⟨maxCoordinate - 1, maxCoordinate, by decide, by decide⟩
    let b : Cell := ⟨maxCoordinate, maxCoordinate - 1, by decide, by decide⟩
    let c : Cell := ⟨maxCoordinate - 1, maxCoordinate - 1, by decide, by decide⟩
    let d : Cell := ⟨maxCoordinate, maxCoordinate, by decide, by decide⟩
    cells? ⟨a, b⟩ = some [c, a, b, d] ∧ [c, a, b, d].Pairwise (· < ·) ∧
      cells? ⟨d, c⟩ = some [c, a, b, d] := by
  intro a b c d
  obtain ⟨-, -, hlist, hcorners⟩ := cells?_lists_rectangle a b
  have h : cells? ⟨a, b⟩ = some [c, a, b, d] := by decide +kernel
  exact ⟨h, (hlist _ h).1, (hcorners d c Sym2.eq_swap rfl).trans h⟩

end Rectangle

end Spreadsheet
