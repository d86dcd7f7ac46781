import Spreadsheet.Proofs.Sheet.Solution

namespace Spreadsheet

open Cell (a1 b1 c1 d1)

namespace Sheet

variable {s t : Sheet} {policy : Policy} {cap : ℕ} {ids ids' : List Cell} {id : Cell}

section Order

lemma sorted_passOrder : (passOrder ids).Pairwise fun a b => compare b a = .lt :=
  List.pairwise_reverse.mpr Std.ExtTreeSet.ordered_toList

lemma nodup_passOrder : (passOrder ids).Nodup :=
  sorted_passOrder.imp fun h he => by simp [he] at h

lemma passOrder_congr (h : ∀ id, id ∈ ids' ↔ id ∈ ids) : passOrder ids' = passOrder ids := by
  have hs : (Std.ExtTreeSet.ofList ids' : CellSet) = .ofList ids :=
    Std.ExtTreeSet.ext_mem fun id => by simp [Std.ExtTreeSet.mem_ofList, h]
  rw [passOrder, hs, passOrder]

lemma settle_congr (h : ∀ id, id ∈ ids' ↔ id ∈ ids) :
    s.settle policy cap ids' = s.settle policy cap ids := by
  rw [settle, settle, passOrder_congr h]

end Order

section Counts

lemma countP_passOrder (p : Cell → Bool) :
    (passOrder ids).countP p = (ids.toFinset.filter (p · = true)).card := by
  have hs : ids.toFinset.filter (p · = true) = ((passOrder ids).filter p).toFinset := by
    ext id
    simp [mem_passOrder]
  rw [hs, List.toFinset_card_of_nodup (nodup_passOrder.filter p), List.countP_eq_length_filter]

lemma counts_errors (order : List Cell) :
    (s.counts order).2 = order.countP fun id => (s.get? id).any (·.error?.isSome) := by
  rw [counts, List.countP_filterMap]
  refine List.countP_congr fun id _ => ?_
  cases s.get? id <;> simp

lemma counts_total (order : List Cell) :
    (s.counts order).1 + (s.counts order).2 = order.countP fun id => (s.get? id).isSome := by
  have hle : (s.counts order).2 ≤ (order.filterMap s.get?).length := List.countP_le_length
  rw [← List.length_filterMap_eq_countP]
  exact Nat.sub_add_cancel hle

end Counts

lemma shown_settle_of_literal {r : Record} (hcap : 0 < cap) (hid : id ∈ ids)
    (hr : (s.settle policy cap ids).1.get? id = some r) (hl : Raw.isFormula r.raw = false) :
    r.shown = .text r.raw := by
  have hreads : ∀ t x, SameTexts t s → ∀ raw, t.text? id = some raw → x ∉ Raw.references raw := by
    intro t x ht raw hraw hx
    have hsame : t.text? id = (s.settle policy cap ids).1.text? id :=
      (ht.trans (sameTexts_settle cap).symm).1 id
    rw [hsame, text?_of_get? hr, Option.some_inj] at hraw
    subst hraw
    exact Bool.false_ne_true (hl.symm.trans (Raw.isFormula_of_mem_references hx))
  -- A literal reads no cell, so nothing undoes its evaluation.
  have hsettled : Settled policy (s.settle policy cap ids).1 id :=
    settle_attains hcap hid (fun t ht => settled_refresh (Or.inl rfl) (hreads t id ht))
      fun t x ht h => settled_refresh (Or.inr h) (hreads t x ht)
  rw [hsettled r hr, evaluate, Raw.evaluate_literal hl]
  rfl

theorem settle_listed (s : Sheet) (policy : Policy) (cap : ℕ) (ids : List Cell) :
    let t := (s.settle policy cap ids).1
    let stats := (s.settle policy cap ids).2
    (∀ ids', (∀ id, id ∈ ids' ↔ id ∈ ids) →
        s.settle policy cap ids' = s.settle policy cap ids) ∧
      (SameTexts t s ∧ t.ids = s.ids ∧ ∀ id ∉ ids, t.get? id = s.get? id) ∧
      (stats.valid + stats.errors = (ids.toFinset.filter fun id => (s.get? id).isSome).card ∧
        stats.errors = (ids.toFinset.filter fun id => (t.get? id).any (·.error?.isSome)).card) ∧
      (0 < cap → ∀ id ∈ ids, ∀ r, t.get? id = some r → Raw.isFormula r.raw = false →
        r.shown = .text r.raw) := by
  intro t stats
  have htexts : SameTexts t s := sameTexts_settle cap
  refine ⟨fun ids' h => settle_congr h, ⟨htexts, ids_congr htexts.1, fun id hid => ?_⟩, ⟨?_, ?_⟩,
    fun hcap id hid r hr hl => shown_settle_of_literal hcap hid hr hl⟩
  · exact get?_settle_of_not_mem cap hid
  · have hrecords : ∀ id, (t.get? id).isSome = (s.get? id).isSome := by
      intro id
      have := congrArg Option.isSome (htexts.1 id)
      simpa [text?] using this
    calc stats.valid + stats.errors
        = (passOrder ids).countP fun id => (t.get? id).isSome := counts_total _
      _ = (passOrder ids).countP fun id => (s.get? id).isSome := by simp only [hrecords]
      _ = _ := countP_passOrder _
  · exact (counts_errors _).trans (countP_passOrder _)

theorem settle_listed_of_cycle :
    let s : Sheet := (Sheet.empty.enter [(a1, "=B1+1"), (b1, "=A1+1"), (c1, "7")]).fail .cycle [c1]
    s.settle .lenient 1 [b1, a1, c1, d1] = s.settle .lenient 1 [c1, a1, d1, a1, b1] ∧
      (s.settle .lenient 1 [c1, a1, d1, a1, b1]).2 = ⟨1, false, 3, 0⟩ ∧
      ∃ r, (s.settle .lenient 1 [c1, a1, d1, a1, b1]).1.get? c1 = some r ∧ r.shown = .text "7" := by
  intro s
  obtain ⟨hset, ⟨htexts, -, -⟩, -, hliteral⟩ := settle_listed s .lenient 1 [c1, a1, d1, a1, b1]
  have hmem : ∀ id, id ∈ [b1, a1, c1, d1] ↔ id ∈ [c1, a1, d1, a1, b1] := by
    intro id
    simp only [List.mem_cons, List.not_mem_nil]
    tauto
  have hc : s.text? c1 = some "7" := by
    decide +kernel
  obtain ⟨r, hr, hraw⟩ := exists_of_text? ((htexts.1 c1).trans hc)
  refine ⟨hset _ hmem, by decide +kernel, r, hr, ?_⟩
  rw [← hraw]
  exact hliteral Nat.one_pos c1 List.mem_cons_self r hr (by rw [hraw]; decide +kernel)

end Sheet

end Spreadsheet
