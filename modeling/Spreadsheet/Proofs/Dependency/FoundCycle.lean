import Mathlib.Data.List.Chain
import Spreadsheet.Proofs.Dependency.CycleSearch

namespace Spreadsheet

open Relation
open Cell (a1 b1 c1)

section Loops

variable {α : Type} {r : α → α → Prop} {c d : α} {cs : List α}

structure IsLoop (r : α → α → Prop) (path : List α) : Prop where
  two_le_length : 2 ≤ path.length
  closed : path.head? = path.getLast?
  nodup : path.tail.Nodup
  isChain : path.IsChain r

lemma takeWhile_ne_append [DecidableEq α] {as bs : List α} (hd : d ∉ as) :
    (as ++ d :: bs).takeWhile (· ≠ d) = as := by
  rw [List.takeWhile_append_of_pos]
  · simp
  · simpa using fun a ha => ne_of_mem_of_not_mem ha hd

lemma isLoop_of_mem [DecidableEq α] (hc : (c :: cs).IsChain (flip r)) (hn : (c :: cs).Nodup)
    (hd : d ∈ c :: cs) (hcd : r c d) :
    IsLoop r (d :: ((c :: cs).takeWhile (· ≠ d)).reverse ++ [d]) := by
  obtain ⟨as, bs, he, hda⟩ := List.eq_append_cons_of_mem hd
  have ht : (c :: cs).takeWhile (· ≠ d) = as := by
    rw [he, takeWhile_ne_append hda]
  -- The path is kept with its last cell first, so `as` comes after `d` on it.
  have hp : c :: cs = (as ++ [d]) ++ bs := by simp [he]
  have hhead : (as ++ [d]).head? = some c := by
    have hh := congrArg List.head? he
    cases as <;> simpa [eq_comm] using hh
  have hpath : d :: as.reverse = (as ++ [d]).reverse := by simp
  rw [ht]
  rw [hp] at hc hn
  constructor
  · simp
  · exact List.getLast?_concat.symm
  · simpa [List.nodup_append, and_comm] using hn.of_append_left
  · rw [hpath]
    refine List.isChain_append.mpr ⟨?_, List.isChain_singleton d, ?_⟩
    · exact List.isChain_reverse.mpr (List.isChain_append.mp hc).1
    · intro a ha b hb
      rw [List.getLast?_reverse, hhead] at ha
      cases ha
      cases hb
      exact hcd

end Loops

namespace CycleSearch

open CycleSearch.Path

variable {a u : Adjacency} {path : Path} {s c d : Cell} {pending : List Cell}

structure Trail (a u : Adjacency) (s : Cell) (path : Path) : Prop where
  nodup : path.cells.Nodup
  expanded : ∀ c ∈ path.cells, u.of c = ∅
  reached : ∀ c ∈ path.cells, ReflTransGen a.Edge s c

lemma contains_iff : contains path c = true ↔ c ∈ path.cells := by
  simp [contains, cells]

lemma Frames.isChain {reaching : CellSet} {above : Option Cell} (h : Frames a reaching above path) :
    path.cells.IsChain (flip a.Edge) := by
  induction path generalizing above with
  | nil => exact .nil
  | cons f path ih =>
    obtain ⟨_, _, ht⟩ := h
    refine List.isChain_cons.mpr ⟨?_, ih ht⟩
    intro d hd
    cases path with
    | nil => cases hd
    | cons g path =>
      cases hd
      exact ht.1 f.cell (Or.inr rfl)

lemma Trail.pop (h : Trail a u s (⟨c, []⟩ :: path)) : Trail a u s path where
  nodup := h.nodup.of_cons
  expanded d hd := h.expanded d (List.mem_cons_of_mem _ hd)
  reached d hd := h.reached d (List.mem_cons_of_mem _ hd)

lemma Trail.push (h : Trail a u s (⟨c, d :: pending⟩ :: path)) (hcd : a.Edge c d)
    (hd : u.of d ≠ ∅) :
    Trail a (u.clear d) s (⟨d, (u.of d).toList⟩ :: ⟨c, pending⟩ :: path) where
  nodup := List.nodup_cons.mpr ⟨fun hm => hd (h.expanded d hm), h.nodup⟩
  expanded e he := by
    rw [Adjacency.clear, Adjacency.of_set]
    split
    · rfl
    · rename_i hne
      exact h.expanded e ((List.mem_cons.mp he).resolve_left (Ne.symm hne))
  reached e he := by
    rcases List.mem_cons.mp he with rfl | he
    · exact (h.reached c List.mem_cons_self).tail hcd
    · exact h.reached e he

lemma Trail.start (a : Adjacency) (c : Cell) : Trail a (start a c).1 c (start a c).2 where
  nodup := List.nodup_singleton c
  expanded d hd := by
    obtain rfl := List.mem_singleton.mp hd
    simp [CycleSearch.start, Adjacency.clear, Adjacency.of_set]
  reached d hd := by
    obtain rfl := List.mem_singleton.mp hd
    exact .refl

lemma isLoop_of_find (h : Search a u ∅ path) (ht : Trail a u s path) {found : List Cell}
    (hf : find u path = some found) :
    IsLoop a.Edge found ∧ ∃ d, found.head? = some d ∧ ReflTransGen a.Edge s d := by
  fun_induction find u path with
  | case1 => cases hf
  | case2 u c path ih =>
    have hp := h.pop
    rw [inherit_empty] at hp
    exact ih hp ht.pop hf
  | case3 u c d pending path hu hd =>
    cases hf
    have hm : d ∈ Path.cells (⟨c, pending⟩ :: path) := contains_iff.mp hd
    have hcd : a.Edge c d := h.frames.1 d (Or.inl List.mem_cons_self)
    exact ⟨isLoop_of_mem h.frames.isChain ht.nodup hm hcd, d, rfl, ht.reached d hm⟩
  | case4 u c d pending path hu hd ih =>
    have hs := h.skip_expanded hu hd Std.ExtTreeSet.not_mem_empty
    exact ih hs ⟨ht.nodup, ht.expanded, ht.reached⟩ hf
  | case5 u c d pending path hu ih =>
    have hcd : a.Edge c d := h.frames.1 d (Or.inl List.mem_cons_self)
    exact ih (h.push hu) (ht.push hcd hu) hf

end CycleSearch

open CycleSearch

namespace Graph

theorem cycleFrom?_sound_complete (g : Graph) (c : Cell) :
    ((∃ path, g.cycleFrom? c = some path) ↔ LeadsToCycle g.Edge c) ∧
      ∀ path, g.cycleFrom? c = some path →
        IsLoop g.Edge path ∧ ∃ d, path.head? = some d ∧ ReflTransGen g.Edge c d := by
  refine ⟨?_, fun path h => ?_⟩
  · rw [← reachesCycle_iff, reachesCycle, Option.isSome_iff_exists]
  · exact isLoop_of_find ((search_nil g.forward).start c) (Trail.start g.forward c) h

theorem cycleFrom?_beyond_start :
    let g := ((empty.setReads a1 {b1}).setReads b1 {c1}).setReads c1 {b1}
    ∃ path d, g.cycleFrom? a1 = some path ∧ IsLoop g.Edge path ∧ path.head? = some d ∧
      ReflTransGen g.Edge a1 d := by
  intro g
  have hab : b1 ∈ g.reads a1 := by decide +kernel
  have hbc : c1 ∈ g.reads b1 := by decide +kernel
  have hcb : b1 ∈ g.reads c1 := by decide +kernel
  obtain ⟨hi, hs⟩ := cycleFrom?_sound_complete g a1
  obtain ⟨path, hp⟩ := hi.mpr ⟨b1, .single hab, .head hbc (.single hcb)⟩
  obtain ⟨hl, d, hd, hr⟩ := hs path hp
  exact ⟨path, d, hp, hl, hd, hr⟩

end Graph

end Spreadsheet
