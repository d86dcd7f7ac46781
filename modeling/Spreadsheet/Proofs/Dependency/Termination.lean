import Spreadsheet.Proofs.Dependency.FoundCycle
import Spreadsheet.Proofs.Dependency.Rounds

/-! A search in rounds is at each of them where the recursion over paths would be, up to cells
without neighbours, which the recursion passes over. -/

namespace Spreadsheet

open Relation
open Cell (a1 b1)

namespace CycleSearch

open Walk (InStep children effort Moves)

/-- A walk has come along the path. What it has pushed has no edges left. -/
structure Tracks (g : Graph) (w : Walk) (u : Adjacency) (path : Path) : Prop where
  cells : path.cells = w.path
  pending : path.map Frame.pending = w.stack
  spent : ∀ c, c ∈ w.path ∨ c ∈ w.finished → u.of c = ∅
  left : ∀ c, c ∉ w.path → c ∉ w.finished → u.of c = g.reads c

variable {g : Graph} {w v : Walk} {u : Adjacency} {path : Path} {c d : Cell}
  {pending : List Cell} {stack : List (List Cell)} {reaching : CellSet}

section Tracks

lemma clear_eq_self (h : u.of c = ∅) : u.clear c = u := by
  ext1 d
  rw [Adjacency.clear, Adjacency.of_set]
  split
  · rename_i hcd
    rw [← hcd, h]
  · rfl

lemma Tracks.exists_frame (h : Tracks g w u path) (hs : w.stack = pending :: stack) :
    ∃ c rest, path = ⟨c, pending⟩ :: rest ∧ rest.map Frame.pending = stack := by
  have hp := h.pending
  rw [hs, List.map_eq_cons_iff] at hp
  obtain ⟨⟨c, _⟩, rest, rfl, rfl, hrest⟩ := hp
  exact ⟨c, rest, rfl, hrest⟩

lemma Tracks.exists_frame_of_path {cells : List Cell} (h : Tracks g w u path)
    (hs : w.stack = pending :: stack) (hc : w.path = c :: cells) :
    ∃ rest, path = ⟨c, pending⟩ :: rest ∧ rest.map Frame.pending = stack := by
  obtain ⟨c', rest, rfl, hrest⟩ := h.exists_frame hs
  have hp : c' :: Path.cells rest = c :: cells := h.cells.trans hc
  exact ⟨rest, by rw [(List.cons_eq_cons.mp hp).1], hrest⟩

lemma Tracks.retreat (h : Tracks g w u (⟨c, []⟩ :: path)) (hs : path.map Frame.pending = stack) :
    Tracks g (w.retreat stack) u path := by
  have hp : w.path = c :: path.cells := h.cells.symm
  rw [Walk.retreat_eq hp]
  have hpushed : ∀ d, d ∈ path.cells ∨ d ∈ w.finished.insert c ↔ d ∈ w.path ∨ d ∈ w.finished := by
    intro d
    simp only [hp, List.mem_cons, Std.ExtTreeSet.mem_insert, Std.compare_eq_iff_eq, @eq_comm _ c]
    tauto
  refine ⟨rfl, hs, fun d hd => h.spent d ((hpushed d).mp hd), fun d hd hf => ?_⟩
  have hn : ¬ (d ∈ w.path ∨ d ∈ w.finished) := mt (hpushed d).mpr (not_or.mpr ⟨hd, hf⟩)
  exact h.left d (not_or.mp hn).1 (not_or.mp hn).2

lemma Tracks.pass (h : Tracks g w u (⟨c, d :: pending⟩ :: path))
    (hs : path.map Frame.pending = stack) :
    Tracks g { w with stack := pending :: stack } u (⟨c, pending⟩ :: path) where
  cells := h.cells
  pending := by rw [List.map_cons, hs]
  spent := h.spent
  left := h.left

lemma Tracks.enter (h : Tracks g w u path) (hp : d ∉ w.path) (hf : d ∉ w.finished) :
    Tracks g (w.enter g d) (u.clear d) (⟨d, (u.of d).toList⟩ :: path) where
  cells := by
    rw [Walk.enter, ← h.cells]
    rfl
  pending := by
    rw [Walk.enter, List.map_cons, h.pending, h.left d hp hf]
    rfl
  spent e he := by
    rw [Adjacency.clear, Adjacency.of_set]
    split
    · rfl
    · rename_i hne
      apply h.spent
      simpa [Walk.enter, Ne.symm hne] using he
  left e he hf := by
    obtain ⟨hne, hp⟩ := not_or.mp (mt List.mem_cons.mpr he)
    rw [Adjacency.clear, Adjacency.of_set, if_neg (Ne.symm hne)]
    exact h.left e hp hf

lemma tracks_empty : Tracks g ⟨∅, ∅, [], []⟩ g.forward [] where
  cells := rfl
  pending := rfl
  spent c hc := by simp at hc
  left c _ _ := rfl

lemma Tracks.start (h : Tracks g w u []) (hf : c ∉ w.finished) :
    Tracks g (.start g w.finished c) (start u c).1 (start u c).2 := by
  have hp : w.path = [] := h.cells.symm
  have hs : w.stack = [] := h.pending.symm
  have ht : Tracks g (w.enter g c) (u.clear c) [⟨c, (u.of c).toList⟩] :=
    h.enter (by simp [hp]) hf
  -- The two walks differ in nothing but the set of the cells on the path.
  have hpath : (w.enter g c).path = (Walk.start g w.finished c).path := by
    rw [Walk.enter, Walk.start, hp]
  have hstack : (w.enter g c).stack = (Walk.start g w.finished c).stack := by
    rw [Walk.enter, Walk.start, hs]
  exact ⟨ht.cells.trans hpath, ht.pending.trans hstack, hpath ▸ ht.spent, hpath ▸ ht.left⟩

end Tracks

section Find

lemma idxOf?_append_cons {as bs : List Cell} (hd : d ∉ as) :
    (as ++ d :: bs).idxOf? d = some as.length := by
  induction as with
  | nil => simp [List.idxOf?_cons]
  | cons a as ih =>
    obtain ⟨ha, has⟩ := not_or.mp (mt List.mem_cons.mpr hd)
    rw [List.cons_append, List.idxOf?_cons, ih has]
    simp [Ne.symm ha]

lemma loop_eq (h : path.cells = w.path) (hn : w.path.Nodup) (hd : d ∈ w.path) :
    w.loop d = path.loop d := by
  obtain ⟨as, bs, he, has⟩ := List.eq_append_cons_of_mem hd
  have hbs : d ∉ bs.reverse := by
    rw [he] at hn
    simpa using (List.nodup_cons.mp hn.of_append_right).1
  have hr : (as ++ d :: bs).reverse = bs.reverse ++ d :: as.reverse := by simp
  rw [Walk.loop, Path.loop, h, he, takeWhile_ne_append has, hr, idxOf?_append_cons hbs]
  simp

lemma not_contains (h : Tracks g w u path) (hd : d ∉ w.path) : ¬ path.contains d = true := by
  rw [contains_iff, h.cells]
  exact hd

lemma find_pass (hu : u.of d = ∅) (hd : ¬ Path.contains (⟨c, pending⟩ :: path) d = true) :
    find u (⟨c, d :: pending⟩ :: path) = find u (⟨c, pending⟩ :: path) := by
  rw [find, if_pos hu, if_neg hd]

lemma find_enter (hd : ¬ Path.contains (⟨c, pending⟩ :: path) d = true) :
    find (u.clear d) (⟨d, (u.of d).toList⟩ :: ⟨c, pending⟩ :: path) =
      find u (⟨c, d :: pending⟩ :: path) := by
  by_cases hu : u.of d = ∅
  · have hl : (u.of d).toList = [] := by simp [hu]
    rw [find_pass hu hd, clear_eq_self hu, hl, find]
  · conv_rhs => rw [find, if_neg hu]

lemma Tracks.find_eq {a : Option (List Cell)} (h : Tracks g w u path) (hi : InStep g w)
    (ha : w.seek g = .stop a) : find u path = a := by
  simp only [Walk.seek] at ha
  split at ha
  · rename_i hs
    have hp : path = [] := by simpa [hs] using h.pending
    cases ha
    rw [hp, find]
  · cases ha
  · rename_i d pending stack hs
    obtain ⟨c, rest, rfl, hrest⟩ := h.exists_frame hs
    have ht := h.pass hrest
    split at ha
    · rename_i hd
      have hm : d ∈ w.path := (hi.onPath d).mp hd
      have hc : Path.contains (⟨c, pending⟩ :: rest) d = true := by
        rw [contains_iff, ht.cells]
        exact hm
      cases ha
      rw [find, if_pos (h.spent d (Or.inl hm)), if_pos hc, loop_eq ht.cells hi.nodup hm]
    · split at ha <;> cases ha

lemma Tracks.next {more : List Cell} (h : Tracks g w u path) (hi : InStep g w)
    (hv : w.seek g = .go more v) :
    ∃ u' path', Tracks g v u' path' ∧ find u' path' = find u path := by
  simp only [Walk.seek] at hv
  split at hv
  · cases hv
  · rename_i stack hs
    obtain ⟨c, rest, rfl, hrest⟩ := h.exists_frame hs
    cases hv
    exact ⟨u, rest, h.retreat hrest, by rw [find]⟩
  · rename_i d pending stack hs
    obtain ⟨c, rest, rfl, hrest⟩ := h.exists_frame hs
    have ht := h.pass hrest
    split at hv
    · cases hv
    · rename_i hd
      have hm : d ∉ w.path := mt (hi.onPath d).mpr hd
      split at hv
      · rename_i hf
        cases hv
        exact ⟨u, _, ht, (find_pass (h.spent d (Or.inr hf)) (not_contains ht hm)).symm⟩
      · rename_i hf
        cases hv
        exact ⟨u.clear d, _, ht.enter hm hf, find_enter (not_contains ht hm)⟩

lemma tracks_of_seek {n : ℕ} {pushed : List Cell}
    (h : Runs (Walk.seek g) (.start g ∅ c) n pushed w) :
    ∃ u path, Tracks g w u path ∧ find u path = g.cycleFrom? c := by
  induction h with
  | nil => exact ⟨_, _, tracks_empty.start Std.ExtTreeSet.not_mem_empty, rfl⟩
  | next h hv ih =>
    obtain ⟨u, path, ht, hf⟩ := ih
    obtain ⟨u', path', ht', hf'⟩ := ht.next (Walk.progress_of_seek h).1.toInStep hv
    exact ⟨u', path', ht', hf'.trans hf⟩

end Find

section Mark

variable {s t : Sweep} {starts pushed more : List Cell}

lemma passOn_eq_inherit : Sweep.passOn reaching (c :: path.cells) = inherit reaching c path := by
  cases path with
  | nil => rfl
  | cons f path => rfl

lemma mark_meet (hu : u.of d = ∅)
    (hd : Path.contains (⟨c, pending⟩ :: path) d = true ∨ d ∈ reaching) :
    mark u reaching (⟨c, d :: pending⟩ :: path) =
      mark u (reaching.insert c) (⟨c, pending⟩ :: path) := by
  rw [mark, if_pos hu, if_pos hd]

lemma mark_pass (hu : u.of d = ∅) (hd : ¬ Path.contains (⟨c, pending⟩ :: path) d = true)
    (hr : d ∉ reaching) :
    mark u reaching (⟨c, d :: pending⟩ :: path) = mark u reaching (⟨c, pending⟩ :: path) := by
  rw [mark, if_pos hu, if_neg (not_or.mpr ⟨hd, hr⟩)]

lemma mark_enter (hd : ¬ Path.contains (⟨c, pending⟩ :: path) d = true) (hr : d ∉ reaching) :
    mark (u.clear d) reaching (⟨d, (u.of d).toList⟩ :: ⟨c, pending⟩ :: path) =
      mark u reaching (⟨c, d :: pending⟩ :: path) := by
  by_cases hu : u.of d = ∅
  · have hl : (u.of d).toList = [] := by simp [hu]
    rw [mark_pass hu hd hr, clear_eq_self hu, hl, mark, inherit, if_neg hr]
  · conv_rhs => rw [mark, if_neg hu]

lemma Tracks.steps (h : Tracks g s.walk u path) (hp : Sweep.Progress g starts pushed s)
    (hs : Sweep.Steps g s more t) :
    ∃ u' path', Tracks g t.walk u' path' ∧
      markAll t.starts (mark u' t.reaching path') = markAll s.starts (mark u s.reaching path) := by
  cases hs with
  | @spare c left hs hc hf =>
    have hpath : path = [] := by simpa [hs] using h.pending
    subst hpath
    have hu : u.of c = ∅ := h.spent c (Or.inr hf)
    have hl : (u.of c).toList = [] := by simp [hu]
    refine ⟨u, [], h, ?_⟩
    rw [hc, mark, markAll, CycleSearch.start, clear_eq_self hu, hl]
    simp only [mark, inherit]
  | @start c left hs hc hf =>
    have hpath : path = [] := by simpa [hs] using h.pending
    subst hpath
    refine ⟨_, _, h.start hf, ?_⟩
    rw [hc, mark, markAll]
  | retreat hs =>
    obtain ⟨c, rest, rfl, hrest⟩ := h.exists_frame hs
    refine ⟨u, rest, h.retreat hrest, ?_⟩
    rw [← h.cells, mark]
    exact congrArg (fun r => markAll s.starts (mark u r rest)) passOn_eq_inherit
  | @meet c _ d pending stack hs hc hd =>
    obtain ⟨rest, rfl, hrest⟩ := h.exists_frame_of_path hs hc
    have ht := h.pass hrest
    have hm : d ∈ s.walk.path := (hp.walk.onPath d).mp hd
    refine ⟨u, _, ht, ?_⟩
    rw [mark_meet (h.spent d (Or.inl hm))]
    rw [contains_iff, ht.cells]
    exact Or.inl hm
  | @known c _ d pending stack hs hc hd hf =>
    obtain ⟨rest, rfl, hrest⟩ := h.exists_frame_of_path hs hc
    have ht := h.pass hrest
    have hm : d ∉ s.walk.path := mt (hp.walk.onPath d).mpr hd
    refine ⟨u, _, ht, ?_⟩
    have hu : u.of d = ∅ := h.spent d (Or.inr hf)
    split
    · rename_i hr
      rw [mark_meet hu (Or.inr hr)]
    · rename_i hr
      rw [mark_pass hu (not_contains ht hm) hr]
  | @enter d pending stack hs hd hf =>
    obtain ⟨c, rest, rfl, hrest⟩ := h.exists_frame hs
    have ht := h.pass hrest
    have hm : d ∉ s.walk.path := mt (hp.walk.onPath d).mpr hd
    have hr : d ∉ s.reaching := by
      intro hr
      exact ((hp.walk.mem_pushed d).mp (hp.reaching d hr)).elim hm hf
    refine ⟨u.clear d, _, ht.enter hm hf, ?_⟩
    rw [mark_enter (not_contains ht hm) hr]

lemma tracks_of_round {n : ℕ} (h : Runs (Sweep.round g) (.ofStarts starts) n pushed s) :
    ∃ u path, Tracks g s.walk u path ∧
      markAll s.starts (mark u s.reaching path) = markAll starts (g.forward, ∅) := by
  induction h with
  | nil => exact ⟨_, _, tracks_empty, by rw [mark]; rfl⟩
  | next h hr ih =>
    obtain ⟨u, path, ht, hm⟩ := ih
    have hp := (Sweep.progress_of_round h).1
    obtain ⟨u', path', ht', hm'⟩ := ht.steps hp (Sweep.steps_of_round hp.walk.toInStep hr)
    exact ⟨u', path', ht', hm'.trans hm⟩

lemma cyclicAmong_of_stop {n : ℕ} (h : Runs (Sweep.round g) (.ofStarts starts) n pushed s)
    (hs : s.round g = .stop reaching) :
    (Std.ExtTreeSet.ofList starts).filter (· ∈ reaching) = g.cyclicAmong starts := by
  obtain ⟨u, path, ht, hm⟩ := tracks_of_round h
  obtain ⟨hstack, hstarts, rfl⟩ := Sweep.of_round_stop hs
  have hpath : path = [] := by simpa [hstack] using ht.pending
  rw [hpath, hstarts, mark, markAll] at hm
  rw [Graph.cyclicAmong, ← hm]

end Mark

end CycleSearch

namespace Closure

variable {g : Graph} {readers : Cell → List Cell} {seeds pushed more : List Cell} {s t : Spread}
  {c d : Cell}

structure Progress (g : Graph) (seeds pushed : List Cell) (s : Spread) : Prop where
  once : pushed.Nodup
  mem_found : ∀ c, c ∈ s.found ↔ c ∈ pushed
  reached : ∀ c ∈ pushed, ∃ d ∈ seeds, TransGen g.Edge c d
  work : ∀ c ∈ s.work, c ∈ seeds ∨ c ∈ pushed
  expanded : ∀ c, c ∈ seeds ∨ c ∈ pushed → c ∈ s.work ∨ ∀ d, g.Edge d c → d ∈ pushed

lemma mem_of_perm (h : (readers c).Perm (g.readers c).toList) : d ∈ readers c ↔ g.Edge d c := by
  rw [h.mem_iff, Std.ExtTreeSet.mem_toList, Graph.mem_readers]
  rfl

lemma nodup_of_perm (h : (readers c).Perm (g.readers c).toList) : (readers c).Nodup :=
  h.nodup_iff.mpr (Std.ExtTreeSet.distinct_toList.imp (mt Std.compare_eq_iff_eq.mpr))

lemma Progress.round (hreaders : ∀ c, (readers c).Perm (g.readers c).toList)
    (h : Progress g seeds pushed s) (hr : s.round readers = .go more t) :
    Progress g seeds (more ++ pushed) t ∧ t.work.length + 1 = s.work.length + more.length := by
  simp only [Spread.round] at hr
  split at hr
  · cases hr
  · rename_i c work hw
    cases hr
    have hnew : ∀ d, d ∈ ((readers c).filter (· ∉ s.found)).reverse ↔ g.Edge d c ∧ d ∉ pushed := by
      intro d
      rw [List.mem_reverse, List.mem_filter, mem_of_perm (hreaders c), decide_eq_true_eq,
        h.mem_found]
    have hnodup : ((readers c).filter (· ∉ s.found)).reverse.Nodup :=
      List.nodup_reverse.mpr ((nodup_of_perm (hreaders c)).filter _)
    have hfound : ∀ d, d ∈ s.found ∪ .ofList ((readers c).filter (· ∉ s.found)) ↔
        d ∈ ((readers c).filter (· ∉ s.found)).reverse ++ pushed := by
      intro d
      rw [Std.ExtTreeSet.mem_union_iff, h.mem_found, List.mem_append, List.mem_reverse, or_comm]
      simp [Std.ExtTreeSet.mem_ofList]
    generalize ((readers c).filter (· ∉ s.found)).reverse = new at hnew hnodup hfound ⊢
    have hc : c ∈ seeds ∨ c ∈ pushed := h.work c (hw ▸ List.mem_cons_self)
    refine ⟨⟨?_, hfound, ?_, ?_, ?_⟩, by simp [hw]; omega⟩
    · exact hnodup.append h.once fun d hd hp => ((hnew d).mp hd).2 hp
    · intro d hd
      rcases List.mem_append.mp hd with hd | hd
      · have hdc : g.Edge d c := ((hnew d).mp hd).1
        rcases hc with hc | hc
        · exact ⟨c, hc, .single hdc⟩
        · obtain ⟨e, he, hce⟩ := h.reached c hc
          exact ⟨e, he, hce.head hdc⟩
      · exact h.reached d hd
    · intro d hd
      rcases List.mem_append.mp hd with hd | hd
      · exact Or.inr (List.mem_append_left _ hd)
      · exact (h.work d (hw ▸ List.mem_cons_of_mem _ hd)).imp_right (List.mem_append_right _)
    · intro d hd
      by_cases hdn : d ∈ new
      · exact Or.inl (List.mem_append_left _ hdn)
      by_cases hdc : d = c
      · -- The cell of this round has all its readers found now.
        subst hdc
        refine Or.inr fun e he => List.mem_append.mpr ?_
        by_cases hp : e ∈ pushed
        · exact Or.inr hp
        · exact Or.inl ((hnew e).mpr ⟨he, hp⟩)
      · have hd : d ∈ seeds ∨ d ∈ pushed :=
          hd.imp_right fun hd => (List.mem_append.mp hd).resolve_left hdn
        rcases h.expanded d hd with hd | hd
        · rw [hw] at hd
          exact Or.inl (List.mem_append_right _ ((List.mem_cons.mp hd).resolve_left hdc))
        · exact Or.inr fun e he => List.mem_append_right _ (hd e he)

lemma progress_of_runs {n : ℕ} (hreaders : ∀ c, (readers c).Perm (g.readers c).toList)
    (h : Runs (Spread.round readers) ⟨∅, seeds⟩ n pushed s) :
    Progress g seeds pushed s ∧ n + s.work.length = seeds.length + pushed.length := by
  induction h with
  | nil =>
    refine ⟨⟨List.nodup_nil, by simp, by simp, fun c hc => Or.inl hc, fun c hc => ?_⟩, by simp⟩
    exact Or.inl (hc.resolve_right List.not_mem_nil)
  | next h hr ih =>
    obtain ⟨hp, he⟩ := ih
    obtain ⟨hp', hl⟩ := hp.round hreaders hr
    refine ⟨hp', ?_⟩
    rw [List.length_append]
    omega

lemma Progress.mem_of_transGen (h : Progress g seeds pushed s) (hw : s.work = [])
    (hd : d ∈ seeds) (hcd : TransGen g.Edge c d) : c ∈ pushed := by
  have hexpanded : ∀ e, e ∈ seeds ∨ e ∈ pushed → ∀ b, g.Edge b e → b ∈ pushed := by
    intro e he
    exact (h.expanded e he).resolve_left (hw ▸ List.not_mem_nil)
  induction hcd using TransGen.head_induction_on with
  | single hcd => exact hexpanded d (Or.inl hd) _ hcd
  | head hcb _ ih => exact hexpanded _ (Or.inr ih) _ hcb

lemma downstream_of_stop {n : ℕ} {found : CellSet}
    (hreaders : ∀ c, (readers c).Perm (g.readers c).toList)
    (h : Runs (Spread.round readers) ⟨∅, seeds⟩ n pushed s)
    (hs : s.round readers = .stop found) :
    found \ .ofList seeds = g.downstream (.ofList seeds) := by
  have hp := (progress_of_runs hreaders h).1
  simp only [Spread.round] at hs
  split at hs
  · rename_i hw
    cases hs
    have hseed : ∀ d, d ∈ Std.ExtTreeSet.ofList seeds ↔ d ∈ seeds := by
      simp [Std.ExtTreeSet.mem_ofList]
    ext1 c
    rw [Std.ExtTreeSet.mem_diff_iff, Graph.mem_downstream, hp.mem_found, and_comm]
    simp only [hseed]
    refine and_congr_right fun _ => ⟨hp.reached c, ?_⟩
    rintro ⟨d, hd, hcd⟩
    exact hp.mem_of_transGen hw hd hcd
  · cases hs

end Closure

namespace Graph

open CycleSearch Closure Walk

lemma seek_ends (g : Graph) (c : Cell) : ∃ n pushed w,
    Runs (Walk.seek g) (.start g ∅ c) n pushed w ∧ w.seek g = .stop (g.cycleFrom? c) := by
  have hbound : ∀ n pushed w, Runs (Walk.seek g) (.start g ∅ c) n pushed w →
      n ≤ ∑ d ∈ ([c] ++ g.cells.toList).toFinset, ((children g d).length + 1) := by
    intro n pushed w hr
    obtain ⟨hp, he⟩ := progress_of_seek hr
    exact (he ▸ Nat.le_add_right n _ : n ≤ effort g (pushed ++ [c])).trans hp.effort_le
  obtain ⟨n, pushed, w, a, hr, hs⟩ := exists_stop hbound
  obtain ⟨u, path, ht, hf⟩ := tracks_of_seek hr
  have ha : find u path = a := ht.find_eq (progress_of_seek hr).1.toInStep hs
  exact ⟨n, pushed, w, hr, by rw [hs, ← ha, hf]⟩

lemma sweep_ends (g : Graph) (starts : List Cell) : ∃ n pushed s reaching,
    Runs (Sweep.round g) (.ofStarts starts) n pushed s ∧ s.round g = .stop reaching ∧
      (Std.ExtTreeSet.ofList starts).filter (· ∈ reaching) = g.cyclicAmong starts := by
  have hbound : ∀ n pushed s, Runs (Sweep.round g) (.ofStarts starts) n pushed s →
      n ≤ starts.length +
        ∑ d ∈ (starts ++ g.cells.toList).toFinset, ((children g d).length + 1) := by
    intro n pushed s hr
    obtain ⟨hp, he⟩ := Sweep.progress_of_round hr
    have hle := hp.walk.effort_le
    omega
  obtain ⟨n, pushed, s, reaching, hr, hs⟩ := exists_stop hbound
  exact ⟨n, pushed, s, reaching, hr, hs, cyclicAmong_of_stop hr hs⟩

lemma spread_ends (g : Graph) (seeds : List Cell) {readers : Cell → List Cell}
    (h : ∀ c, (readers c).Perm (g.readers c).toList) : ∃ n pushed s found,
    Runs (Spread.round readers) ⟨∅, seeds⟩ n pushed s ∧ s.round readers = .stop found ∧
      found \ .ofList seeds = g.downstream (.ofList seeds) := by
  have hbound : ∀ n pushed s, Runs (Spread.round readers) ⟨∅, seeds⟩ n pushed s →
      n ≤ seeds.length + g.cells.toList.length := by
    intro n pushed s hr
    obtain ⟨hp, he⟩ := progress_of_runs h hr
    have hcells : pushed ⊆ g.cells.toList := by
      intro c hc
      obtain ⟨d, -, hcd⟩ := hp.reached c hc
      obtain ⟨e, hce, -⟩ := TransGen.head'_iff.mp hcd
      exact Std.ExtTreeSet.mem_toList.mpr (mem_cells_iff_edge.mpr ⟨e, Or.inl hce⟩)
    have hlength : pushed.length ≤ g.cells.toList.length :=
      (hp.once.subperm hcells).length_le
    omega
  obtain ⟨n, pushed, s, found, hr, hs⟩ := exists_stop hbound
  exact ⟨n, pushed, s, found, hr, hs, downstream_of_stop h hr hs⟩

/-- The three searches come to an end, with the answers of the graph. No cell is pushed twice, and
what was pushed accounts for all rounds. The searches for cycles keep their path in step and never
fall back. -/
theorem searches_end (g : Graph) :
    (∀ c,
      (∃ n pushed w, Runs (Walk.seek g) (.start g ∅ c) n pushed w ∧
        w.seek g = .stop (g.cycleFrom? c)) ∧
      ∀ n pushed w, Runs (Walk.seek g) (.start g ∅ c) n pushed w →
        (pushed ++ [c]).Nodup ∧ n ≤ effort g (pushed ++ [c]) ∧ w.InStep g ∧ w.OnTrack) ∧
    (∀ starts,
      (∃ n pushed s reaching, Runs (Sweep.round g) (.ofStarts starts) n pushed s ∧
        s.round g = .stop reaching ∧
        (Std.ExtTreeSet.ofList starts).filter (· ∈ reaching) = g.cyclicAmong starts) ∧
      ∀ n pushed s, Runs (Sweep.round g) (.ofStarts starts) n pushed s →
        pushed.Nodup ∧ n ≤ starts.length + effort g pushed ∧ s.walk.InStep g ∧ s.walk.OnTrack) ∧
    ∀ seeds readers, (∀ c, (readers c).Perm (g.readers c).toList) →
      (∃ n pushed s found, Runs (Spread.round readers) ⟨∅, seeds⟩ n pushed s ∧
        s.round readers = .stop found ∧
        found \ .ofList seeds = g.downstream (.ofList seeds)) ∧
      ∀ n pushed s, Runs (Spread.round readers) ⟨∅, seeds⟩ n pushed s →
        pushed.Nodup ∧ n ≤ seeds.length + pushed.length := by
  refine ⟨fun c => ⟨seek_ends g c, fun n pushed w hr => ?_⟩,
    fun starts => ⟨sweep_ends g starts, fun n pushed s hr => ?_⟩,
    fun seeds readers h => ⟨spread_ends g seeds h, fun n pushed s hr => ?_⟩⟩
  · obtain ⟨hp, he⟩ := progress_of_seek hr
    exact ⟨hp.once, he ▸ Nat.le_add_right _ _, hp.toInStep, hp.onTrack⟩
  · obtain ⟨hp, he⟩ := Sweep.progress_of_round hr
    exact ⟨hp.walk.once, by omega, hp.walk.toInStep, hp.walk.onTrack⟩
  · obtain ⟨hp, he⟩ := progress_of_runs h hr
    exact ⟨hp.once, he ▸ Nat.le_add_right _ _⟩

theorem searches_end_of_cycle :
    let g := (empty.setReads a1 {b1}).setReads b1 {a1}
    let readers := fun c => (g.readers c).toList
    (∀ c, (readers c).Perm (g.readers c).toList) ∧
      (∃ n pushed w, Runs (Walk.seek g) (.start g ∅ a1) n pushed w ∧
        w.seek g = .stop (g.cycleFrom? a1)) ∧
      ∃ n pushed s found, Runs (Spread.round readers) ⟨∅, [a1]⟩ n pushed s ∧
        s.round readers = .stop found ∧ found \ .ofList [a1] = g.downstream (.ofList [a1]) := by
  intro g readers
  have h : ∀ c, (readers c).Perm (g.readers c).toList := fun c => List.Perm.refl _
  obtain ⟨hseek, -, hspread⟩ := searches_end g
  exact ⟨h, (hseek a1).1, (hspread [a1] readers h).1⟩

end Graph

end Spreadsheet
