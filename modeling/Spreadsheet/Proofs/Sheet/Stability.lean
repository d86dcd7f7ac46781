import Spreadsheet.Proofs.Sheet.Editing

/-! A pass without a change evaluates every listed cell on the sheet that it leaves. -/

namespace Spreadsheet

open Cell (a1 b1)

namespace Sheet

variable {s : Sheet} {policy : Policy} {ids order : List Cell} {state : Sheet × Bool} {cap : ℕ}

lemma settled_of_foldl_step (h : (order.foldl (step policy) state).2 = false) :
    ∀ id ∈ order, Settled policy state.1 id := by
  induction order generalizing state with
  | nil => simp
  | cons id order ih =>
    rw [List.foldl_cons] at h
    obtain ⟨-, hs⟩ := step_snd (foldl_step_snd h).1
    have hsame : (step policy state id).1 = state.1 := step_fst.trans (refresh_eq_self hs)
    intro x hx
    rcases List.mem_cons.mp hx with rfl | hx
    · exact hs
    · exact hsame ▸ ih h x hx

lemma settled_of_passes (done : ℕ) (h : (passes policy order cap done s).2.2 = true) :
    0 < cap ∧ ∀ id ∈ order, Settled policy (passes policy order cap done s).1 id := by
  induction cap generalizing s done with
  | zero => cases h
  | succ cap ih =>
    refine ⟨cap.succ_pos, ?_⟩
    rw [passes] at h ⊢
    cases hc : (pass policy order s).2 with
    | true =>
      simp only [hc, if_true] at h ⊢
      exact (ih (done + 1) h).2
    | false =>
      have hs : (pass policy order s).1 = s := foldl_step_fst.trans (foldl_step_snd hc).2
      simp only [hc, Bool.false_eq_true, if_false, hs]
      exact settled_of_foldl_step hc

lemma settled_of_stable (h : (s.settle policy cap ids).2.stable = true) :
    0 < cap ∧ ∀ id ∈ ids, Settled policy (s.settle policy cap ids).1 id := by
  obtain ⟨hcap, hs⟩ := settled_of_passes 0 h
  exact ⟨hcap, fun id hid => hs id (mem_passOrder.mpr hid)⟩

lemma settle_of_settled (h : ∀ id ∈ ids, Settled policy s id) (hcap : 0 < cap) :
    s.settle policy cap ids =
      (s, ⟨1, true, (s.counts (passOrder ids)).1, (s.counts (passOrder ids)).2⟩) := by
  obtain ⟨cap, rfl⟩ := Nat.exists_eq_succ_of_ne_zero hcap.ne'
  have hp : pass policy (passOrder ids) s = (s, false) :=
    pass_of_settled fun id hid => h id (mem_passOrder.mp hid)
  simp [settle, passes, hp]

lemma settle_of_stable {cap' : ℕ} (h : (s.settle policy cap ids).2.stable = true)
    (hcap : 0 < cap') : (s.settle policy cap ids).1.settle policy cap' ids =
      ((s.settle policy cap ids).1,
        ⟨1, true, (s.settle policy cap ids).2.valid, (s.settle policy cap ids).2.errors⟩) :=
  settle_of_settled (settled_of_stable h).2 hcap

theorem settle_settle (s : Sheet) (policy : Policy) (ids : List Cell) :
    (∀ cap, (s.settle policy cap ids).2.stable = true →
      let t := (s.settle policy cap ids).1
      let stats := (s.settle policy cap ids).2
      (∀ id ∈ ids, ∀ r, t.get? id = some r → r.apply (t.evaluate policy r.raw) = r) ∧
        ∀ cap', 0 < cap' →
          t.settle policy cap' ids = (t, ⟨1, true, stats.valid, stats.errors⟩)) ∧
      ∀ a b, ((s.settle policy a ids).1.settle policy b ids).1 =
        (s.settle policy (a + b) ids).1 := by
  refine ⟨fun cap h => ⟨fun id hid r hr => ?_, fun cap' hcap => settle_of_stable h hcap⟩,
    fun a b => ?_⟩
  · exact (settled_iff hr).mp ((settled_of_stable h).2 id hid)
  · rw [settle_fst, settle_fst, settle_fst, Nat.add_comm a b, Function.iterate_add_apply]

theorem settle_settle_of_cycle :
    let s : Sheet := (Sheet.empty.enter [(a1, "=B1"), (b1, "=A1")]).fail .cycle [a1]
    let t := (s.settle .strict 3 [b1, a1, b1]).1
    s.Mentions a1 b1 ∧ s.Mentions b1 a1 ∧ (s.settle .strict 3 [b1, a1, b1]).2.stable = true ∧
      (∀ r, t.get? b1 = some r → r.apply (t.evaluate .strict r.raw) = r) ∧
      t.settle .strict 1 [b1, a1, b1] = (t, ⟨1, true, 0, 2⟩) := by
  intro s t
  have hstats : (s.settle .strict 3 [b1, a1, b1]).2 = ⟨2, true, 0, 2⟩ := by
    decide +kernel
  have hstable : (s.settle .strict 3 [b1, a1, b1]).2.stable = true := congrArg Stats.stable hstats
  obtain ⟨hfixed, hagain⟩ := (settle_settle s .strict [b1, a1, b1]).1 3 hstable
  have hstop := hagain 1 Nat.one_pos
  rw [hstats] at hstop
  exact ⟨by decide +kernel, by decide +kernel, hstable, hfixed b1 List.mem_cons_self, hstop⟩

end Sheet

end Spreadsheet
