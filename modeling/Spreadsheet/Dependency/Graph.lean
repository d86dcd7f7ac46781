import Spreadsheet.Dependency.Adjacency

namespace Spreadsheet

structure Graph where
  forward : Adjacency
  backward : Adjacency
  inverse : ∀ c d, c ∈ backward.of d ↔ d ∈ forward.of c

namespace Graph

def empty : Graph :=
  ⟨.empty, .empty, by simp⟩

instance : Inhabited Graph := ⟨empty⟩

def reads (g : Graph) (c : Cell) : CellSet :=
  g.forward.of c

def readers (g : Graph) (c : Cell) : CellSet :=
  g.backward.of c

def cells (g : Graph) : CellSet :=
  .ofList (g.forward.cells ++ g.backward.cells)

def contains (g : Graph) (c : Cell) : Bool :=
  !(g.reads c).isEmpty || !(g.readers c).isEmpty

def size (g : Graph) : Nat :=
  g.cells.size

def setReads (g : Graph) (c : Cell) (refs : CellSet) : Graph where
  forward := g.forward.set c refs
  backward := (g.backward.unlink c (g.reads c \ refs).toList).link c (refs \ g.reads c).toList
  inverse x d := by
    rw [Adjacency.mem_of_link, Adjacency.mem_of_unlink, g.inverse, Adjacency.of_set]
    simp only [Std.ExtTreeSet.mem_toList, Std.ExtTreeSet.mem_diff_iff, reads]
    split <;> grind

def isolate (g : Graph) (c : Cell) : Graph where
  forward := (g.forward.unlink c (g.readers c).toList).clear c
  backward := (g.backward.unlink c (g.reads c).toList).clear c
  inverse x d := by
    simp only [Adjacency.clear, Adjacency.of_set, apply_ite (x ∈ ·), apply_ite (d ∈ ·),
      Adjacency.mem_of_unlink, Std.ExtTreeSet.mem_toList, readers, reads, g.inverse,
      Std.ExtTreeSet.not_mem_empty]
    grind

def otherReaders (g : Graph) (c : Cell) : CellSet :=
  (g.readers c).erase c

theorem mem_readers {g : Graph} {c d : Cell} : c ∈ g.readers d ↔ d ∈ g.reads c :=
  g.inverse c d

@[ext] theorem ext {g h : Graph} (e : ∀ c, g.reads c = h.reads c) : g = h := by
  obtain ⟨f, b, i⟩ := g
  obtain ⟨f', b', i'⟩ := h
  have hf : f = f' := Adjacency.ext e
  subst hf
  have hb : b = b' := by
    apply Adjacency.ext
    intro c
    apply Std.ExtTreeSet.ext_mem
    intro d
    rw [i, i']
  subst hb
  rfl

theorem reads_setReads (g : Graph) (c d : Cell) (refs : CellSet) :
    (g.setReads c refs).reads d = if c = d then refs else g.reads d :=
  Adjacency.of_set ..

theorem mem_reads_isolate {g : Graph} {c d x : Cell} :
    d ∈ (g.isolate c).reads x ↔ x ≠ c ∧ d ≠ c ∧ d ∈ g.reads x := by
  simp only [reads, isolate, Adjacency.clear, Adjacency.of_set, apply_ite (d ∈ ·),
    Adjacency.mem_of_unlink, Std.ExtTreeSet.mem_toList, readers, g.inverse,
    Std.ExtTreeSet.not_mem_empty]
  grind

end Graph

end Spreadsheet
