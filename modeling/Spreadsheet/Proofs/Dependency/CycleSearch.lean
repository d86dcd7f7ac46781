import Spreadsheet.Dependency.Cycle
import Spreadsheet.Proofs.Dependency.Reachability

/-! Each step of a search keeps the verdict on every cell that is finished. -/

namespace Spreadsheet

open Relation

namespace CycleSearch

open CycleSearch.Path

/-- On a path, `above` being the cell before it: every frame reads the cell before it, and of its
other neighbours those that are no longer pending lead to no cycle, unless it is marked itself. -/
def Frames (a : Adjacency) (reaching : CellSet) : Option Cell → Path → Prop
  | _, [] => True
  | above, ⟨c, pending⟩ :: path =>
    (∀ d, d ∈ pending ∨ above = some d → a.Edge c d) ∧
      (∀ d, a.Edge c d → LeadsToCycle a.Edge d → d ∈ pending ∨ above = some d ∨ c ∈ reaching) ∧
      Frames a reaching (some c) path

structure Search (a unexplored : Adjacency) (reaching : CellSet) (path : Path) : Prop where
  kept : ∀ c, unexplored.of c = a.of c ∨ unexplored.of c = ∅
  sound : ∀ c ∈ reaching, LeadsToCycle a.Edge c
  finished : ∀ c, unexplored.of c = ∅ → contains path c = false → LeadsToCycle a.Edge c →
    c ∈ reaching
  frames : Frames a reaching none path

variable {a u : Adjacency} {reaching : CellSet} {path : Path} {c d : Cell} {pending : List Cell}

lemma contains_cons {f : Frame} :
    contains (f :: path) d = true ↔ f.cell = d ∨ contains path d = true := by
  simp [contains]

lemma Frames.mono {above : Option Cell} {more : CellSet} (h : Frames a reaching above path)
    (hs : ∀ c ∈ reaching, c ∈ more) : Frames a more above path := by
  induction path generalizing above with
  | nil => trivial
  | cons f path ih =>
    obtain ⟨hp, hn, ht⟩ := h
    refine ⟨hp, fun d hd hl => ?_, ih ht⟩
    exact (hn d hd hl).imp_right (Or.imp_right (hs _))

lemma Frames.reach {above : Option Cell} (h : Frames a reaching above (⟨c, pending⟩ :: path))
    (hd : contains (⟨c, pending⟩ :: path) d = true) : ReflTransGen a.Edge d c := by
  induction path generalizing above c pending with
  | nil =>
    rcases contains_cons.mp hd with rfl | hd
    · exact .refl
    · simp [contains] at hd
  | cons f path ih =>
    rcases contains_cons.mp hd with rfl | hd
    · exact .refl
    · obtain ⟨_, _, ht⟩ := h
      exact (ih ht hd).tail (ht.1 c (Or.inr rfl))

lemma Search.loop (h : Search a u reaching (⟨c, d :: pending⟩ :: path))
    (hd : contains (⟨c, pending⟩ :: path) d = true) : LeadsToCycle a.Edge c := by
  have hcd : a.Edge c d := h.frames.1 d (Or.inl List.mem_cons_self)
  have hdc : ReflTransGen a.Edge d c := h.frames.reach (contains_cons.mpr (contains_cons.mp hd))
  exact ⟨c, .refl, TransGen.head' hcd hdc⟩

lemma Search.verdict (h : Search a u reaching (⟨c, []⟩ :: path)) (hc : LeadsToCycle a.Edge c) :
    c ∈ reaching := by
  obtain ⟨d, hcd, hd⟩ := leadsToCycle_iff_step.mp hc
  rcases h.frames.2.1 d hcd hd with hd | hd | hc
  · simp at hd
  · simp at hd
  · exact hc

lemma Search.skip (h : Search a u reaching (⟨c, d :: pending⟩ :: path))
    (hd : LeadsToCycle a.Edge d → c ∈ reaching) :
    Search a u reaching (⟨c, pending⟩ :: path) where
  kept := h.kept
  sound := h.sound
  finished := h.finished
  frames := by
    obtain ⟨hp, hn, ht⟩ := h.frames
    refine ⟨fun e he => hp e (he.imp_left (List.mem_cons_of_mem _)), fun e he hl => ?_, ht⟩
    rcases hn e he hl with hm | hm | hm
    · rcases List.mem_cons.mp hm with rfl | hm
      · exact Or.inr (Or.inr (hd hl))
      · exact Or.inl hm
    · exact Or.inr (Or.inl hm)
    · exact Or.inr (Or.inr hm)

lemma Search.skip_expanded (h : Search a u reaching (⟨c, d :: pending⟩ :: path)) (hu : u.of d = ∅)
    (hp : ¬ contains (⟨c, pending⟩ :: path) d = true) (hm : d ∉ reaching) :
    Search a u reaching (⟨c, pending⟩ :: path) := by
  -- The search of `d` is over, so no mark means no cycle.
  refine h.skip fun hl => absurd (h.finished d hu ?_ hl) hm
  simpa [contains] using hp

lemma Search.insert (h : Search a u reaching path) (hc : LeadsToCycle a.Edge c) :
    Search a u (reaching.insert c) path where
  kept := h.kept
  sound d hd := by
    rcases Std.ExtTreeSet.mem_insert.mp hd with hd | hd
    · rwa [← Std.compare_eq_iff_eq.mp hd]
    · exact h.sound d hd
  finished d hu hp hl := Std.ExtTreeSet.mem_insert.mpr (Or.inr (h.finished d hu hp hl))
  frames := h.frames.mono fun _ hd => Std.ExtTreeSet.mem_insert.mpr (Or.inr hd)

lemma Search.push (h : Search a u reaching (⟨c, d :: pending⟩ :: path)) (hd : u.of d ≠ ∅) :
    Search a (u.clear d) reaching (⟨d, (u.of d).toList⟩ :: ⟨c, pending⟩ :: path) where
  kept e := by
    rw [Adjacency.clear]
    rw [Adjacency.of_set]
    split
    · exact Or.inr rfl
    · exact h.kept e
  sound := h.sound
  finished e hu hp hl := by
    have hde : d ≠ e := by
      rintro rfl
      simp [contains] at hp
    refine h.finished e ?_ ?_ hl
    · simpa [Adjacency.clear, Adjacency.of_set, hde] using hu
    · simpa [contains, hde] using hp
  frames := by
    obtain ⟨hp, hn, ht⟩ := h.frames
    have hu : u.of d = a.of d := (h.kept d).resolve_right hd
    refine ⟨?_, ?_, ?_, ?_, ht⟩
    · intro e he
      simpa [hu] using! he
    · intro e he _
      exact Or.inl (by simpa [hu] using! he)
    · intro e he
      rcases he with he | he
      · exact hp e (Or.inl (List.mem_cons_of_mem _ he))
      · cases he
        exact hp d (Or.inl List.mem_cons_self)
    · intro e he hl
      rcases hn e he hl with hm | hm | hm
      · rcases List.mem_cons.mp hm with rfl | hm
        · exact Or.inr (Or.inl rfl)
        · exact Or.inl hm
      · cases hm
      · exact Or.inr (Or.inr hm)

lemma mem_inherit (hd : d ∈ inherit reaching c path) :
    d ∈ reaching ∨ (c ∈ reaching ∧ ∃ f rest, path = f :: rest ∧ f.cell = d) := by
  cases path with
  | nil => exact Or.inl hd
  | cons f path =>
    simp only [inherit] at hd
    split at hd
    · rename_i hc
      rcases Std.ExtTreeSet.mem_insert.mp hd with hd | hd
      · exact Or.inr ⟨hc, f, path, rfl, Std.compare_eq_iff_eq.mp hd⟩
      · exact Or.inl hd
    · exact Or.inl hd

lemma mem_inherit_of_mem (hd : d ∈ reaching) : d ∈ inherit reaching c path := by
  cases path with
  | nil => exact hd
  | cons f path =>
    simp only [inherit]
    split
    · exact Std.ExtTreeSet.mem_insert.mpr (Or.inr hd)
    · exact hd

lemma head_mem_inherit {f : Frame} (hc : c ∈ reaching) :
    f.cell ∈ inherit reaching c (f :: path) := by
  simp [inherit, hc]

lemma Search.pop (h : Search a u reaching (⟨c, []⟩ :: path)) :
    Search a u (inherit reaching c path) path where
  kept := h.kept
  sound d hd := by
    rcases mem_inherit hd with hd | ⟨hc, f, rest, rfl, rfl⟩
    · exact h.sound d hd
    · have hf : a.Edge f.cell c := h.frames.2.2.1 c (Or.inr rfl)
      exact leadsToCycle_iff_step.mpr ⟨c, hf, h.sound c hc⟩
  finished d hu hp hl := by
    apply mem_inherit_of_mem
    by_cases hd : c = d
    · subst hd
      exact h.verdict hl
    · exact h.finished d hu (by simpa [contains, hd] using hp) hl
  frames := by
    have ht := h.frames.2.2
    cases path with
    | nil => trivial
    | cons f path =>
      obtain ⟨hp, hn, ht⟩ := ht
      refine ⟨fun d hd => hp d (hd.imp_right (by simp)), fun d hd hl => ?_,
        ht.mono fun _ => mem_inherit_of_mem⟩
      rcases hn d hd hl with hm | hm | hm
      · exact Or.inl hm
      · cases hm
        exact Or.inr (Or.inr (head_mem_inherit (h.verdict hl)))
      · exact Or.inr (Or.inr (mem_inherit_of_mem hm))

lemma Search.start (h : Search a u reaching []) (c : Cell) :
    Search a (start u c).1 reaching (start u c).2 where
  kept d := by
    simp only [CycleSearch.start, Adjacency.clear, Adjacency.of_set]
    split
    · exact Or.inr rfl
    · exact h.kept d
  sound := h.sound
  finished d hu hp hl := by
    have hcd : c ≠ d := by
      rintro rfl
      simp [CycleSearch.start, contains] at hp
    refine h.finished d ?_ rfl hl
    simpa [CycleSearch.start, Adjacency.clear, Adjacency.of_set, hcd] using hu
  frames := by
    refine ⟨fun d hd => ?_, fun d hd hl => ?_, trivial⟩
    · rcases hd with hd | hd
      · rcases h.kept c with hk | hk
        · simpa [hk] using! hd
        · simp [hk] at hd
      · cases hd
    · rcases h.kept c with hk | hk
      · exact Or.inl (by simpa [hk] using! hd)
      · exact Or.inr (Or.inr (h.finished c hk rfl (leadsToCycle_iff_step.mpr ⟨d, hd, hl⟩)))

lemma search_nil (a : Adjacency) : Search a a ∅ [] where
  kept c := Or.inl rfl
  sound c hc := absurd hc Std.ExtTreeSet.not_mem_empty
  finished c hu _ hl := by
    obtain ⟨d, hd, _⟩ := leadsToCycle_iff_step.mp hl
    simp [Adjacency.Edge, hu] at hd
  frames := trivial

lemma inherit_empty : inherit ∅ c path = ∅ := by
  cases path <;> simp [inherit]

lemma isSome_find (h : Search a u ∅ path) :
    (find u path).isSome ↔ ∃ f ∈ path, LeadsToCycle a.Edge f.cell := by
  fun_induction find u path with
  | case1 => simp
  | case2 u c path ih =>
    have hc : ¬ LeadsToCycle a.Edge c := fun hc => Std.ExtTreeSet.not_mem_empty (h.verdict hc)
    have hp := h.pop
    rw [inherit_empty] at hp
    rw [ih hp]
    simp [hc]
  | case3 u c d pending path hu hd =>
    exact iff_of_true rfl ⟨_, List.mem_cons_self, h.loop hd⟩
  | case4 u c d pending path hu hd ih =>
    rw [ih (h.skip_expanded hu hd Std.ExtTreeSet.not_mem_empty)]
    simp
  | case5 u c d pending path hu ih =>
    have hcd : a.Edge c d := h.frames.1 d (Or.inl List.mem_cons_self)
    have hl : LeadsToCycle a.Edge d → LeadsToCycle a.Edge c := fun hd =>
      leadsToCycle_iff_step.mpr ⟨d, hcd, hd⟩
    rw [ih (h.push hu)]
    simp only [List.exists_mem_cons_iff]
    tauto

lemma search_mark (h : Search a u reaching path) :
    Search a (mark u reaching path).1 (mark u reaching path).2 [] := by
  fun_induction mark u reaching path with
  | case1 => exact h
  | case2 u reaching c path ih => exact ih h.pop
  | case3 u reaching c d pending path hu hd ih =>
    have hc : LeadsToCycle a.Edge c := by
      rcases hd with hd | hd
      · exact h.loop hd
      · have hcd : a.Edge c d := h.frames.1 d (Or.inl List.mem_cons_self)
        exact leadsToCycle_iff_step.mpr ⟨d, hcd, h.sound d hd⟩
    exact ih ((h.insert hc).skip fun _ => by simp)
  | case4 u reaching c d pending path hu hd ih =>
    obtain ⟨hp, hm⟩ := not_or.mp hd
    exact ih (h.skip_expanded hu hp hm)
  | case5 u reaching c d pending path hu ih => exact ih (h.push hu)

lemma mark_keeps_empty (h : u.of c = ∅) : (mark u reaching path).1.of c = ∅ := by
  fun_induction mark u reaching path with
  | case1 => exact h
  | case2 u reaching d path ih => exact ih h
  | case3 u reaching d e pending path hu hd ih => exact ih h
  | case4 u reaching d e pending path hu hd ih => exact ih h
  | case5 u reaching d e pending path hu ih =>
    apply ih
    simp [Adjacency.clear, Adjacency.of_set, h]

lemma search_markAll (starts : List Cell) (state : Adjacency × CellSet)
    (h : Search a state.1 state.2 []) :
    Search a (markAll starts state).1 (markAll starts state).2 [] ∧
      ∀ c, c ∈ starts ∨ state.1.of c = ∅ → (markAll starts state).1.of c = ∅ := by
  induction starts generalizing state with
  | nil => exact ⟨h, fun c hc => hc.resolve_left List.not_mem_nil⟩
  | cons d starts ih =>
    obtain ⟨hs, he⟩ := ih _ (search_mark (h.start d))
    refine ⟨hs, fun c hc => he c ?_⟩
    rcases hc with hc | hc
    · rcases List.mem_cons.mp hc with rfl | hc
      · exact Or.inr (mark_keeps_empty (by simp [start, Adjacency.clear, Adjacency.of_set]))
      · exact Or.inl hc
    · exact Or.inr (mark_keeps_empty (by simp [start, Adjacency.clear, Adjacency.of_set, hc]))

end CycleSearch

open CycleSearch

namespace Graph

lemma reachesCycle_iff {g : Graph} {c : Cell} :
    g.reachesCycle c = true ↔ LeadsToCycle g.Edge c := by
  have h := isSome_find ((search_nil g.forward).start c)
  simpa [reachesCycle, cycleFrom?, start] using! h

lemma mem_cyclicAmong {g : Graph} {starts : List Cell} {c : Cell} :
    c ∈ g.cyclicAmong starts ↔ c ∈ starts ∧ LeadsToCycle g.Edge c := by
  obtain ⟨h, he⟩ := search_markAll starts (g.forward, ∅) (search_nil g.forward)
  have hm : c ∈ g.cyclicAmong starts ↔ c ∈ starts ∧ c ∈ (markAll starts (g.forward, ∅)).2 := by
    simp [cyclicAmong, Std.ExtTreeSet.mem_filter, Std.ExtTreeSet.mem_ofList]
  rw [hm]
  refine and_congr_right fun hc => ⟨h.sound c, h.finished c (he c (Or.inl hc)) rfl⟩

theorem cyclicAmong_eq_filter (g : Graph) (starts : List Cell) :
    g.cyclicAmong starts = (Std.ExtTreeSet.ofList starts).filter fun c => g.reachesCycle c := by
  apply Std.ExtTreeSet.ext_mem
  intro c
  have hf : c ∈ (Std.ExtTreeSet.ofList starts).filter (fun c => g.reachesCycle c) ↔
      c ∈ starts ∧ g.reachesCycle c = true := by
    simp [Std.ExtTreeSet.mem_filter, Std.ExtTreeSet.mem_ofList]
  rw [mem_cyclicAmong, hf, reachesCycle_iff]

end Graph

end Spreadsheet
