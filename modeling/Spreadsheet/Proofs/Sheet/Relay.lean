import Spreadsheet.Proofs.Cell.Name
import Spreadsheet.Proofs.Formula.Spelled
import Spreadsheet.Proofs.Sheet.Listed

/-! A pass goes up a column, so it hands the value at the top down by one cell. -/

namespace Spreadsheet

open Cell (c4)

namespace Cell

variable {id : Cell} (h : 1 < id.row)

def above : Cell where
  col := id.col
  row := id.row - 1
  col_bound := id.col_bound
  row_bound := by
    have := id.row_bound
    omega

lemma compare_above : compare (id.above h) id = .lt := by
  have hrow : compare (id.row - 1) id.row = .lt := Nat.compare_eq_lt.mpr (by omega)
  have hcol : compare id.col id.col = .eq := Std.ReflCmp.compare_self
  have hc : compare (id.above h) id =
      (compare id.col id.col).then (compare (id.row - 1) id.row) := rfl
  rw [hc, hcol, hrow]
  rfl

end Cell

namespace Sheet

variable {s t : Sheet} {policy : Policy} {order : List Cell} {id x : Cell}

section Passes

lemma get?_passed (hn : order.Nodup) (h : order.Pairwise fun a b => ¬ s.Mentions b a) :
    (passed policy order s).get? x = if x ∈ order then
      (s.get? x).map fun r => r.apply (s.evaluate policy r.raw) else s.get? x := by
  induction order generalizing s with
  | nil => rfl
  | cons id order ih =>
    obtain ⟨hid, hn⟩ := List.nodup_cons.mp hn
    obtain ⟨hreads, h⟩ := List.pairwise_cons.mp h
    have ht : SameTexts (s.refresh policy id) s := sameTexts_refresh
    have ih := @ih (s.refresh policy id) hn (ht.mentions ▸ h)
    rw [passed, List.foldl_cons, ← passed, ih]
    by_cases hx : x ∈ order
    · have hne : id ≠ x := fun he => hid (he ▸ hx)
      rw [if_pos hx, if_pos (List.mem_cons_of_mem id hx), get?_refresh, if_neg hne]
      cases hr : s.get? x with
      | none => rfl
      | some r =>
        -- What `x` reads has not changed with `id`.
        have he : (s.refresh policy id).evaluate policy r.raw = s.evaluate policy r.raw := by
          refine evaluate_congr fun y hy => reading_congr ?_ (by rw [ht.2])
          rw [get?_refresh, if_neg]
          rintro rfl
          exact hreads x hx ((mentions_iff (text?_of_get? hr)).mpr hy)
        rw [Option.map_some, Option.map_some, he]
    · rw [if_neg hx, get?_refresh]
      by_cases hxi : id = x
      · rw [if_pos hxi, if_pos (hxi ▸ List.mem_cons_self)]
      · rw [if_neg hxi, if_neg]
        rintro hm
        exact (List.mem_cons.mp hm).elim (fun he => hxi he.symm) hx

lemma passes_exact {n : ℕ} (cap done : ℕ)
    (hc : ∀ i < n, (passed policy order)^[i + 1] s ≠ (passed policy order)^[i] s)
    (hs : ∀ id ∈ order, Settled policy ((passed policy order)^[n] s) id) :
    (passes policy order cap done s).2 = (done + min cap (n + 1), decide (n < cap)) := by
  induction cap generalizing s n done with
  | zero => simp [passes]
  | succ cap ih =>
    cases n with
    | zero =>
      have hp : pass policy order s = (s, false) := pass_of_settled hs
      simp [passes, hp]
    | succ n =>
      have hp : (pass policy order s).1 = passed policy order s := foldl_step_fst
      have hchanged : (pass policy order s).2 = true := by
        by_contra hf
        exact hc 0 n.succ_pos (foldl_step_snd (Bool.eq_false_of_not_eq_true hf)).2
      have hrest : ∀ i < n, (passed policy order)^[i + 1] (passed policy order s) ≠
          (passed policy order)^[i] (passed policy order s) :=
        fun i hi => hc (i + 1) (Nat.succ_lt_succ hi)
      rw [passes]
      simp only [hchanged, if_true, hp, ih (done + 1) hrest hs]
      refine Prod.ext ?_ ?_
      · simp only
        omega
      · simp

end Passes

def relayText (id : Cell) : String :=
  if h : 1 < id.row then "=+" ++ (id.above h).name else "1"

def relayCells (last : Cell) : List Cell :=
  (List.range' 1 last.row).filterMap (Cell.of? last.col)

def relay (last : Cell) : Sheet :=
  (relayCells last).foldl (fun s id => s.write id (relayText id)) .empty

/-- What the cell shows after `p` passes. -/
def relayed (p : ℕ) (id : Cell) : String :=
  if id.row ≤ p + 1 then "1" else if p = 0 then "" else "0"

structure Relayed (last : Cell) (p : ℕ) (s : Sheet) : Prop where
  record : ∀ id ∈ relayCells last, s.get? id = some ⟨relayText id, .text (relayed p id)⟩
  absent : ∀ id ∉ relayCells last, s.get? id = none

variable {last : Cell} {p : ℕ} {lookup : Lookup}

lemma mem_relayCells : id ∈ relayCells last ↔ id.col = last.col ∧ id.row ≤ last.row := by
  have := id.row_bound
  rw [relayCells, Cell.mem_filterMap_of?]
  omega

section Texts

lemma relayText_of_lt (h : 1 < id.row) : relayText id = "=" ++ ("+" ++ (id.above h).name) := by
  rw [relayText, dif_pos h, ← String.append_assoc]
  rfl

lemma relayText_of_le (h : id.row ≤ 1) : relayText id = "1" := by
  rw [relayText, dif_neg (not_lt.mpr h)]

lemma spelled_plus_name : Formula.Spelled [.operator .add, .cell id] ("+" ++ id.name) := by
  have htext : ("+" ++ id.name).toList = '+' :: id.chars := by
    simp [Cell.name]
  have hcell : IsLayout [.cell id] id.chars :=
    Layout.isLayout_singleton (.cell (Cell.ofChars?_chars id))
  refine ⟨?_, List.cons_ne_nil _ _, ?_⟩
  · rw [htext]
    exact Layout.isLayout_mark_cons hcell rfl
  · rw [htext]
    exact List.forall_mem_cons.mpr ⟨rfl, fun c hc => Text.not_isBlank (Cell.mem_chars hc)⟩

lemma mem_references_relayText (h : 1 < id.row) :
    x ∈ Raw.references (relayText id) ↔ x = id.above h := by
  rw [relayText_of_lt h, spelled_plus_name.mem_references]
  simp [Token.cells]

lemma references_relayText (hx : x ∈ Raw.references (relayText id)) : compare x id = .lt := by
  by_cases h : 1 < id.row
  · rw [(mem_references_relayText h).mp hx]
    exact Cell.compare_above h
  · rw [relayText_of_le (not_lt.mp h)] at hx
    exact absurd (Raw.isFormula_of_mem_references hx) (by decide)

lemma evaluate_relayText (h : 1 < id.row) : Raw.evaluate policy lookup (relayText id) = (do
    let x ← Reduction.operand (lookup (id.above h))
    return .number (← Arithmetic.result [x])) := by
  rw [relayText_of_lt h, spelled_plus_name.evaluate (by simp),
    Reduction.arithmetic_plain (by simp) (by simp) (by simp), Reduction.arithmetic_cell,
    Reduction.arithmetic_nil]
  cases Reduction.operand (lookup (id.above h)) <;> rfl

end Texts

section Steps

lemma get?_foldl_write {f : Cell → String} {cells : List Cell}
    (hs : s.get? x = none ∨ s.get? x = some (.ofRaw (f x))) :
    (cells.foldl (fun s id => s.write id (f id)) s).get? x =
      if x ∈ cells then some (.ofRaw (f x)) else s.get? x := by
  induction cells generalizing s with
  | nil => rfl
  | cons id cells ih =>
    rw [List.foldl_cons]
    by_cases hx : x = id
    · subst hx
      have hw : (s.write x (f x)).get? x = some (.ofRaw (f x)) := by
        rw [get?_write_self]
        rcases hs with hs | hs <;> simp [hs, Record.rewrite]
      rw [ih (Or.inr hw), hw, ite_self, if_pos List.mem_cons_self]
    · have hw : (s.write id (f id)).get? x = s.get? x := get?_write_of_ne hx
      rw [ih (by rwa [hw]), hw]
      simp [hx]

lemma get?_relay : (relay last).get? id =
    if id ∈ relayCells last then some (.ofRaw (relayText id)) else none := by
  have hs : empty.get? id = none := by simp [empty, get?]
  rw [relay, get?_foldl_write (Or.inl hs), hs]

lemma ofRaw_relayText : Record.ofRaw (relayText id) = ⟨relayText id, .text (relayed 0 id)⟩ := by
  by_cases h : 1 < id.row
  · have hf : Raw.isFormula (relayText id) = true := by
      rw [relayText_of_lt h, Raw.isFormula, Raw.formula?_append]
      rfl
    simp [Record.ofRaw, hf, relayed, h]
  · rw [relayText_of_le (not_lt.mp h), relayed, if_pos (not_lt.mp h)]
    rfl

lemma relayed_relay : Relayed last 0 (relay last) where
  record id hid := by
    rw [get?_relay, if_pos hid, ofRaw_relayText]
  absent id hid := by
    rw [get?_relay, if_neg hid]

def handedOn (v : Value) : Shown :=
  .ofResult do
    let x ← Reduction.operand v
    return .number (← Arithmetic.result [x])

lemma handedOn_relayed : handedOn (Record.reading ⟨relayText x, .text (relayed p x)⟩) =
    .text (if x.row ≤ p + 1 then "1" else "0") := by
  simp only [Record.reading, relayed]
  split
  · decide +kernel
  · split <;> decide +kernel

lemma shown_relayText (h : Relayed last p s) (hid : id ∈ relayCells last) :
    Shown.ofResult (s.evaluate policy (relayText id)) = .text (relayed (p + 1) id) := by
  by_cases hrow : 1 < id.row
  · have habove : id.above hrow ∈ relayCells last := by
      rw [mem_relayCells] at hid ⊢
      exact ⟨hid.1, (Nat.sub_le _ _).trans hid.2⟩
    have hle : (id.above hrow).row ≤ p + 1 ↔ id.row ≤ p + 1 + 1 := Nat.sub_le_iff_le_add
    have heval : Shown.ofResult (s.evaluate policy (relayText id)) =
        handedOn (s.reading (id.above hrow)) := by
      rw [evaluate, evaluate_relayText hrow, handedOn]
    have hreading : s.reading (id.above hrow) =
        Record.reading ⟨relayText (id.above hrow), .text (relayed p (id.above hrow))⟩ := by
      rw [reading, h.record _ habove]
    rw [heval, hreading, handedOn_relayed, relayed, if_neg p.succ_ne_zero]
    simp only [hle]
  · rw [relayText_of_le (not_lt.mp hrow), evaluate, Raw.evaluate_literal (by decide), relayed,
      if_pos (by omega)]
    rfl

variable (h : Relayed last p s)
include h

lemma Relayed.pairwise : (passOrder (relayCells last)).Pairwise fun a b => ¬ s.Mentions b a := by
  refine sorted_passOrder.imp_of_mem fun {a b} _ hb hab hm => ?_
  have hraw : s.text? b = some (relayText b) := text?_of_get? (h.record b (mem_passOrder.mp hb))
  have hba : compare a b = .lt := references_relayText ((mentions_iff hraw).mp hm)
  exact Std.OrientedCmp.not_lt_of_lt hab hba

lemma Relayed.passed :
    Relayed last (p + 1) (Sheet.passed policy (passOrder (relayCells last)) s) where
  record id hid := by
    rw [get?_passed nodup_passOrder h.pairwise, if_pos (mem_passOrder.mpr hid), h.record id hid,
      Option.map_some, Record.apply, shown_relayText h hid]
  absent id hid := by
    rw [get?_passed nodup_passOrder h.pairwise, if_neg (mt mem_passOrder.mp hid), h.absent id hid]

lemma Relayed.ne (hp : p + 1 < last.row) (ht : Relayed last (p + 1) t) : t ≠ s := by
  rintro rfl
  have hbound : p + 2 ≤ Column.maxCoordinate := Nat.le_trans hp last.row_bound.2
  let id : Cell := ⟨last.col, p + 2, last.col_bound, Nat.succ_pos _, hbound⟩
  have hid : id ∈ relayCells last := mem_relayCells.mpr ⟨rfl, hp⟩
  have hr : relayed (p + 1) id = relayed p id := by
    simpa using (ht.record id hid).symm.trans (h.record id hid)
  rw [relayed, if_pos le_rfl, relayed, if_neg (Nat.not_succ_le_self _)] at hr
  split at hr <;> simp at hr

lemma Relayed.settled (hp : last.row ≤ p + 1) (hid : id ∈ relayCells last) :
    Settled policy s id := by
  intro r hr
  have hrow : id.row ≤ p + 1 := (mem_relayCells.mp hid).2.trans hp
  have hsame : relayed p id = relayed (p + 1) id := by
    rw [relayed, relayed, if_pos hrow, if_pos (Nat.le_succ_of_le hrow)]
  rw [h.record id hid, Option.some_inj] at hr
  rw [← hr, shown_relayText h hid, hsame]

omit h in
lemma relayed_iterate (p : ℕ) :
    Relayed last p ((Sheet.passed policy (passOrder (relayCells last)))^[p] (relay last)) := by
  induction p with
  | zero => exact relayed_relay
  | succ p ih =>
    rw [Function.iterate_succ_apply']
    exact ih.passed

end Steps

lemma settleAll_relay (cap : ℕ) :
    (relay last).settleAll policy cap = (relay last).settle policy cap (relayCells last) := by
  refine settle_congr fun id => ?_
  rw [mem_ids, Ne, text?_eq_none, get?_relay]
  simp

lemma passes_relay (cap : ℕ) :
    (passes policy (passOrder (relayCells last)) cap 0 (relay last)).2 =
      (min cap last.row, decide (last.row ≤ cap)) := by
  obtain ⟨n, hn⟩ := Nat.exists_eq_add_one_of_ne_zero last.row_bound.1.ne'
  have hs : ∀ id ∈ passOrder (relayCells last),
      Settled policy ((passed policy (passOrder (relayCells last)))^[n] (relay last)) id :=
    fun id hid => (relayed_iterate n).settled hn.le (mem_passOrder.mp hid)
  have hc : ∀ i < n, (passed policy (passOrder (relayCells last)))^[i + 1] (relay last) ≠
      (passed policy (passOrder (relayCells last)))^[i] (relay last) :=
    fun i hi => (relayed_iterate i).ne (by omega) (relayed_iterate (i + 1))
  rw [passes_exact cap 0 hc hs, hn, Nat.zero_add]
  rfl

theorem settleAll_relay_exact (last : Cell) (policy : Policy) (cap : ℕ) :
    let t := ((relay last).settleAll policy cap).1
    let stats := ((relay last).settleAll policy cap).2
    stats.passes = min cap last.row ∧ (stats.stable = true ↔ last.row ≤ cap) ∧
      (0 < cap → ∀ id, id.col = last.col → id.row ≤ last.row →
        t.get? id = some ⟨relayText id, .text (if id.row ≤ cap + 1 then "1" else "0")⟩) ∧
      ∀ id r, t.get? id = some r → r.error? = none := by
  rw [settleAll_relay]
  intro t stats
  have ht : Relayed last cap t := by
    have hs : t = _ := settle_fst cap
    rw [hs]
    exact relayed_iterate cap
  have hstats : (stats.passes, stats.stable) = (min cap last.row, decide (last.row ≤ cap)) :=
    passes_relay cap
  obtain ⟨hmade, hstable⟩ := Prod.mk.inj hstats
  refine ⟨hmade, ?_, fun hcap id hcol hid => ?_, fun id r hr => ?_⟩
  · rw [hstable, decide_eq_true_iff]
  · rw [ht.record id (mem_relayCells.mpr ⟨hcol, hid⟩), relayed, if_neg hcap.ne']
  · by_cases hid : id ∈ relayCells last
    · rw [ht.record id hid, Option.some_inj] at hr
      rw [← hr]
      rfl
    · rw [ht.absent id hid] at hr
      cases hr

theorem settleAll_relay_exact_four :
    let s := ((relay c4).settleAll .strict 2).1
    relayText c4 = "=+C3" ∧ ((relay c4).settleAll .strict 2).2 = ⟨2, false, 4, 0⟩ ∧
      s.get? c4 = some ⟨"=+C3", .text "0"⟩ := by
  intro s
  obtain ⟨-, -, hshown, -⟩ := settleAll_relay_exact c4 .strict 2
  have hc := hshown Nat.two_pos c4 rfl le_rfl
  exact ⟨by decide +kernel, by decide +kernel, hc.trans (by decide +kernel)⟩

end Sheet

end Spreadsheet
