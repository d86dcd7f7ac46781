import Mathlib.Algebra.BigOperators.Group.Finset.Basic
import Mathlib.Algebra.Order.BigOperators.Group.Finset
import Spreadsheet.Dependency.Rounds
import Spreadsheet.Proofs.Dependency.Changes

/-! Every round takes one piece of work from what the pushed cells brought in, so their number
bounds the number of rounds. -/

namespace Spreadsheet

section Runs

variable {σ α : Type} {round : σ → Round σ α} {s : σ}

/-- So many rounds lead to a state and push the cells, the last one first. -/
inductive Runs (round : σ → Round σ α) (s : σ) : ℕ → List Cell → σ → Prop
  | nil : Runs round s 0 [] s
  | next {n pushed more t u} (h : Runs round s n pushed t) (ht : round t = .go more u) :
    Runs round s (n + 1) (more ++ pushed) u

lemma exists_stop {bound : ℕ} (h : ∀ n pushed t, Runs round s n pushed t → n ≤ bound) :
    ∃ n pushed t a, Runs round s n pushed t ∧ round t = .stop a := by
  by_contra hstop
  have hruns : ∀ n, ∃ pushed t, Runs round s n pushed t := by
    intro n
    induction n with
    | zero => exact ⟨[], s, .nil⟩
    | succ n ih =>
      obtain ⟨pushed, t, hr⟩ := ih
      cases ht : round t with
      | stop a => exact absurd ⟨n, pushed, t, a, hr, ht⟩ hstop
      | go more u => exact ⟨more ++ pushed, u, hr.next ht⟩
  obtain ⟨pushed, t, hr⟩ := hruns (bound + 1)
  exact Nat.not_succ_le_self bound (h _ _ _ hr)

end Runs

namespace CycleSearch

namespace Walk

structure InStep (g : Graph) (w : Walk) : Prop where
  nodup : w.path.Nodup
  onPath : ∀ c, c ∈ w.onPath ↔ c ∈ w.path
  stack : List.Forall₂ (fun c pending => pending <:+ children g c) w.path w.stack

structure OnTrack (w : Walk) : Prop where
  path_ne_nil : w.stack ≠ [] → w.path ≠ []
  position : ∀ d ∈ w.onPath, (w.path.reverse.idxOf? d).isSome

inductive Moves (g : Graph) (w : Walk) : List Cell → Walk → Prop
  | retreat {stack} (hs : w.stack = [] :: stack) : Moves g w [] (w.retreat stack)
  | pass {d pending stack} (hs : w.stack = (d :: pending) :: stack) :
    Moves g w [] { w with stack := pending :: stack }
  | enter {d pending stack} (hs : w.stack = (d :: pending) :: stack) (hp : d ∉ w.onPath)
    (hf : d ∉ w.finished) : Moves g w [d] (enter g { w with stack := pending :: stack } d)

/-- The rounds that the search of cells takes, one for each neighbour and one to leave the cell. -/
def effort (g : Graph) (cs : List Cell) : ℕ :=
  (cs.map fun c => (children g c).length + 1).sum

def load (stack : List (List Cell)) : ℕ :=
  (stack.map fun pending => pending.length + 1).sum

structure Progress (g : Graph) (starts pushed : List Cell) (w : Walk) : Prop extends
    InStep g w where
  once : pushed.Nodup
  mem_pushed : ∀ c, c ∈ pushed ↔ c ∈ w.path ∨ c ∈ w.finished
  known : ∀ c ∈ pushed, c ∈ starts ∨ c ∈ g.cells

variable {g : Graph} {w v : Walk} {c d : Cell} {pending path pushed more starts cs us : List Cell}
  {stack : List (List Cell)} {finished : CellSet} {n : ℕ}

section Path

lemma mem_children : d ∈ children g c ↔ g.Edge c d :=
  Std.ExtTreeSet.mem_toList

lemma InStep.exists_cons (h : InStep g w) (hs : w.stack = pending :: stack) :
    ∃ c path, w.path = c :: path ∧ pending <:+ children g c ∧
      List.Forall₂ (fun c pending => pending <:+ children g c) path stack := by
  have hf := h.stack
  rw [hs, List.forall₂_cons_right_iff] at hf
  obtain ⟨c, path, hc, hpath, he⟩ := hf
  exact ⟨c, path, he, hc, hpath⟩

lemma InStep.path_eq_nil (h : InStep g w) (hs : w.stack = []) : w.path = [] := by
  have hf := h.stack
  rwa [hs, List.forall₂_nil_right_iff] at hf

lemma InStep.onTrack (h : InStep g w) : OnTrack w where
  path_ne_nil hs hp := by
    have hf := h.stack
    rw [hp, List.forall₂_nil_left_iff] at hf
    exact hs hf
  position d hd := by
    have hm : d ∈ w.path.reverse := List.mem_reverse.mpr ((h.onPath d).mp hd)
    rw [Option.isSome_iff_ne_none, Ne, List.idxOf?_eq_none_iff]
    exact not_not.mpr hm

lemma inStep_start : InStep g (start g finished c) where
  nodup := List.nodup_singleton c
  onPath d := by simp [start, @eq_comm _ d]
  stack := .cons List.suffix_rfl .nil

lemma retreat_eq (hp : w.path = c :: path) :
    w.retreat stack = ⟨w.finished.insert c, w.onPath.erase c, path, stack⟩ := by
  rw [retreat, hp]

lemma InStep.move (h : InStep g w) (hm : Moves g w more v) : InStep g v := by
  cases hm with
  | retreat hs =>
    obtain ⟨c, path, hp, -, hstack⟩ := h.exists_cons hs
    have hn : (c :: path).Nodup := hp ▸ h.nodup
    rw [retreat_eq hp]
    refine ⟨hn.of_cons, fun d => ?_, hstack⟩
    have hd := h.onPath d
    rw [hp, List.mem_cons] at hd
    have hc : c ∉ path := (List.nodup_cons.mp hn).1
    simp only [Std.ExtTreeSet.mem_erase, hd, Ne, Std.compare_eq_iff_eq]
    grind
  | pass hs =>
    obtain ⟨c, path, hp, hc, hstack⟩ := h.exists_cons hs
    refine ⟨h.nodup, h.onPath, ?_⟩
    rw [hp]
    exact .cons ((List.suffix_cons _ _).trans hc) hstack
  | enter hs hd hf =>
    obtain ⟨c, path, hp, hc, hstack⟩ := h.exists_cons hs
    refine ⟨List.nodup_cons.mpr ⟨mt (h.onPath _).mpr hd, h.nodup⟩, fun e => ?_, ?_⟩
    · simp [enter, Std.ExtTreeSet.mem_insert, h.onPath, @eq_comm _ e]
    · refine .cons List.suffix_rfl ?_
      rw [hp]
      exact .cons ((List.suffix_cons _ _).trans hc) hstack

end Path

section Progress

lemma Progress.move (h : Progress g starts pushed w) (hm : Moves g w more v) :
    Progress g starts (more ++ pushed) v := by
  refine ⟨h.toInStep.move hm, ?_, ?_, ?_⟩
  · cases hm with
    | retreat hs => exact h.once
    | pass hs => exact h.once
    | @enter d pending stack hs hp hf =>
      have hd : d ∉ pushed := by
        rw [h.mem_pushed, ← h.onPath]
        exact not_or.mpr ⟨hp, hf⟩
      exact List.nodup_cons.mpr ⟨hd, h.once⟩
  · intro e
    cases hm with
    | retreat hs =>
      obtain ⟨c, path, hp, -⟩ := h.exists_cons hs
      rw [retreat_eq hp, List.nil_append, h.mem_pushed, hp]
      simp only [List.mem_cons, Std.ExtTreeSet.mem_insert, Std.compare_eq_iff_eq, @eq_comm _ c]
      tauto
    | pass hs => exact h.mem_pushed e
    | enter hs hp hf =>
      simp only [enter, List.singleton_append, List.mem_cons, h.mem_pushed, or_assoc]
  · intro e he
    rcases List.mem_append.mp he with he | he
    · cases hm with
      | retreat hs => simp at he
      | pass hs => simp at he
      | @enter d pending stack hs hp hf =>
        obtain ⟨c, path, -, hc, -⟩ := h.exists_cons hs
        obtain rfl := List.mem_singleton.mp he
        have hce : g.Edge c e := mem_children.mp (hc.subset List.mem_cons_self)
        exact Or.inr (Graph.mem_cells_iff_edge.mpr ⟨c, Or.inr hce⟩)
    · exact h.known e he

lemma Progress.start (h : Progress g starts pushed w) (hs : w.stack = []) (hc : c ∉ w.finished)
    (hm : c ∈ starts) : Progress g starts (c :: pushed) (start g w.finished c) := by
  have hpushed : ∀ e, e ∈ pushed ↔ e ∈ w.finished := by
    intro e
    rw [h.mem_pushed, h.path_eq_nil hs]
    simp
  refine ⟨inStep_start, ?_, fun e => ?_, fun e he => ?_⟩
  · exact List.nodup_cons.mpr ⟨mt (hpushed c).mp hc, h.once⟩
  · simp only [Walk.start, List.mem_cons, hpushed, List.not_mem_nil, or_false]
  · rcases List.mem_cons.mp he with rfl | he
    · exact Or.inl hm
    · exact h.known e he

lemma load_move (hm : Moves g w more v) : load v.stack + 1 = load w.stack + effort g more := by
  cases hm with
  | retreat hs =>
    have hv : ∀ stack, (w.retreat stack).stack = stack := by
      intro stack
      rw [Walk.retreat]
      split <;> rfl
    simp [hv, hs, load, effort]
    omega
  | pass hs =>
    simp [hs, load, effort]
    omega
  | enter hs hp hf =>
    simp [hs, Walk.enter, load, effort]
    omega

lemma effort_append : effort g (cs ++ us) = effort g cs + effort g us := by
  simp [effort]

lemma effort_le (hn : cs.Nodup) (h : ∀ c ∈ cs, c ∈ us) :
    effort g cs ≤ ∑ c ∈ us.toFinset, ((children g c).length + 1) := by
  rw [effort, ← List.sum_toFinset _ hn]
  refine Finset.sum_le_sum_of_subset fun c hc => ?_
  exact List.mem_toFinset.mpr (h c (List.mem_toFinset.mp hc))

lemma Progress.effort_le (h : Progress g starts pushed w) :
    effort g pushed ≤
      ∑ c ∈ (starts ++ g.cells.toList).toFinset, ((children g c).length + 1) := by
  refine Walk.effort_le h.once fun c hc => ?_
  rcases h.known c hc with hc | hc
  · exact List.mem_append_left _ hc
  · exact List.mem_append_right _ (Std.ExtTreeSet.mem_toList.mpr hc)

end Progress

section Seek

lemma moves_of_seek (h : w.seek g = .go more v) : Moves g w more v := by
  simp only [seek] at h
  split at h
  · cases h
  · rename_i stack hs
    cases h
    exact .retreat hs
  · rename_i d pending stack hs
    split at h
    · cases h
    · rename_i hp
      split at h
      · cases h
        exact .pass hs
      · rename_i hf
        cases h
        exact .enter hs hp hf

lemma progress_of_seek (h : Runs (seek g) (.start g ∅ c) n pushed w) :
    Progress g [c] (pushed ++ [c]) w ∧ n + load w.stack = effort g (pushed ++ [c]) := by
  induction h with
  | nil =>
    refine ⟨⟨inStep_start, List.nodup_singleton c, fun d => ?_, fun d hd => Or.inl hd⟩, ?_⟩
    · simp [start]
    · simp [start, load, effort]
  | @next n pushed more w v h hw ih =>
    obtain ⟨hp, he⟩ := ih
    have hm : Moves g w more v := moves_of_seek hw
    rw [List.append_assoc]
    refine ⟨hp.move hm, ?_⟩
    have hl := load_move hm
    rw [effort_append]
    omega

end Seek

end Walk

namespace Sweep

open Walk

inductive Steps (g : Graph) (s : Sweep) : List Cell → Sweep → Prop
  | spare {c starts} (hs : s.walk.stack = []) (hc : s.starts = c :: starts)
    (hf : c ∈ s.walk.finished) : Steps g s [] { s with starts }
  | start {c starts} (hs : s.walk.stack = []) (hc : s.starts = c :: starts)
    (hf : c ∉ s.walk.finished) :
    Steps g s [c] ⟨starts, .start g s.walk.finished c, s.reaching⟩
  | retreat {stack} (hs : s.walk.stack = [] :: stack) :
    Steps g s [] ⟨s.starts, s.walk.retreat stack, passOn s.reaching s.walk.path⟩
  | meet {c path d pending stack} (hs : s.walk.stack = (d :: pending) :: stack)
    (hc : s.walk.path = c :: path) (hp : d ∈ s.walk.onPath) :
    Steps g s [] ⟨s.starts, { s.walk with stack := pending :: stack }, s.reaching.insert c⟩
  | known {c path d pending stack} (hs : s.walk.stack = (d :: pending) :: stack)
    (hc : s.walk.path = c :: path) (hp : d ∉ s.walk.onPath) (hf : d ∈ s.walk.finished) :
    Steps g s [] ⟨s.starts, { s.walk with stack := pending :: stack },
      if d ∈ s.reaching then s.reaching.insert c else s.reaching⟩
  | enter {d pending stack} (hs : s.walk.stack = (d :: pending) :: stack)
    (hp : d ∉ s.walk.onPath) (hf : d ∉ s.walk.finished) :
    Steps g s [d] ⟨s.starts, Walk.enter g { s.walk with stack := pending :: stack } d, s.reaching⟩

structure Progress (g : Graph) (starts pushed : List Cell) (s : Sweep) : Prop where
  walk : s.walk.Progress g starts pushed
  starts : s.starts <:+ starts
  reaching : ∀ c ∈ s.reaching, c ∈ pushed

variable {g : Graph} {s t : Sweep} {c : Cell} {pushed more starts : List Cell} {n : ℕ}

lemma steps_of_round (h : s.walk.InStep g) (hr : s.round g = .go more t) : Steps g s more t := by
  simp only [Sweep.round] at hr
  split at hr
  · rename_i hs
    split at hr
    · cases hr
    · rename_i c starts hc
      split at hr
      · rename_i hf
        cases hr
        exact .spare hs hc hf
      · rename_i hf
        cases hr
        exact .start hs hc hf
  · rename_i stack hs
    cases hr
    exact .retreat hs
  · rename_i d pending stack hs
    split at hr
    · rename_i hc
      exact absurd hc (h.onTrack.path_ne_nil (by simp [hs]))
    · rename_i c path hc
      split at hr
      · rename_i hp
        cases hr
        exact .meet hs hc hp
      · rename_i hp
        split at hr
        · rename_i hf
          cases hr
          exact .known hs hc hp hf
        · rename_i hf
          cases hr
          exact .enter hs hp hf

lemma of_round_stop {reaching : CellSet} (hr : s.round g = .stop reaching) :
    s.walk.stack = [] ∧ s.starts = [] ∧ s.reaching = reaching := by
  simp only [Sweep.round] at hr
  split at hr
  · rename_i hs
    split at hr
    · rename_i hc
      cases hr
      exact ⟨hs, hc, rfl⟩
    · split at hr <;> cases hr
  · cases hr
  · split at hr
    · cases hr
    · split at hr
      · cases hr
      · split at hr <;> cases hr

lemma mem_passOn {reaching : CellSet} {path : List Cell} (hc : c ∈ passOn reaching path) :
    c ∈ reaching ∨ c ∈ path := by
  simp only [passOn] at hc
  split at hc
  · split at hc
    · rcases Std.ExtTreeSet.mem_insert.mp hc with hc | hc
      · exact Or.inr (by simp [Std.compare_eq_iff_eq.mp hc])
      · exact Or.inl hc
    · exact Or.inl hc
  · exact Or.inl hc

lemma Progress.steps (h : Progress g starts pushed s) (hs : Steps g s more t) :
    Progress g starts (more ++ pushed) t := by
  have hpath : ∀ {c path}, s.walk.path = c :: path → c ∈ pushed := by
    intro c path hc
    rw [h.walk.mem_pushed, hc]
    exact Or.inl List.mem_cons_self
  have hinsert : ∀ {c path}, s.walk.path = c :: path → ∀ d ∈ s.reaching.insert c, d ∈ pushed := by
    intro c path hc d hd
    rcases Std.ExtTreeSet.mem_insert.mp hd with hd | hd
    · exact Std.compare_eq_iff_eq.mp hd ▸ hpath hc
    · exact h.reaching d hd
  cases hs with
  | spare hs hc hf => exact ⟨h.walk, (List.suffix_cons _ _).trans (hc ▸ h.starts), h.reaching⟩
  | @start c left hs hc hf =>
    have hleft : c :: left <:+ starts := hc ▸ h.starts
    refine ⟨h.walk.start hs hf (hleft.subset List.mem_cons_self),
      (List.suffix_cons _ _).trans hleft, fun d hd => List.mem_cons_of_mem _ (h.reaching d hd)⟩
  | retreat hs =>
    refine ⟨h.walk.move (.retreat hs), h.starts, fun d hd => ?_⟩
    rcases mem_passOn hd with hd | hd
    · exact h.reaching d hd
    · exact (h.walk.mem_pushed d).mpr (Or.inl hd)
  | meet hs hc hp => exact ⟨h.walk.move (.pass hs), h.starts, hinsert hc⟩
  | known hs hc hp hf =>
    refine ⟨h.walk.move (.pass hs), h.starts, fun d hd => ?_⟩
    split at hd
    · exact hinsert hc d hd
    · exact h.reaching d hd
  | enter hs hp hf =>
    exact ⟨h.walk.move (.enter hs hp hf), h.starts,
      fun d hd => List.mem_cons_of_mem _ (h.reaching d hd)⟩

lemma load_steps (hs : Steps g s more t) :
    load t.walk.stack + t.starts.length + 1 =
      load s.walk.stack + s.starts.length + effort g more := by
  cases hs with
  | spare hs hc hf =>
    simp [hs, hc, load, effort]
  | start hs hc hf =>
    simp [hs, hc, Walk.start, load, effort]
    omega
  | retreat hs =>
    have hl := load_move (.retreat hs : Moves g s.walk _ _)
    dsimp only
    omega
  | meet hs hc hp =>
    have hl := load_move (.pass hs : Moves g s.walk _ _)
    dsimp only at hl ⊢
    omega
  | known hs hc hp hf =>
    have hl := load_move (.pass hs : Moves g s.walk _ _)
    dsimp only at hl ⊢
    omega
  | enter hs hp hf =>
    have hl := load_move (.enter hs hp hf : Moves g s.walk _ _)
    dsimp only
    omega

lemma progress_of_round (h : Runs (Sweep.round g) (.ofStarts starts) n pushed s) :
    Progress g starts pushed s ∧
      n + load s.walk.stack + s.starts.length = starts.length + effort g pushed := by
  induction h with
  | nil =>
    refine ⟨⟨⟨⟨List.nodup_nil, ?_, .nil⟩, List.nodup_nil, ?_, ?_⟩, List.suffix_rfl, ?_⟩, ?_⟩
    · simp [ofStarts]
    · simp [ofStarts]
    · simp
    · simp [ofStarts]
    · simp [ofStarts, load, effort]
  | @next n pushed more s t h hr ih =>
    obtain ⟨hp, he⟩ := ih
    have hs : Steps g s more t := steps_of_round hp.walk.toInStep hr
    refine ⟨hp.steps hs, ?_⟩
    have hl := load_steps hs
    rw [effort_append]
    omega

end Sweep

end CycleSearch

end Spreadsheet
