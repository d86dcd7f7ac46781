import Mathlib.Logic.Function.Iterate
import Spreadsheet.Sheet.Passes
import Spreadsheet.Proofs.Formula.Reading

/-! If the listed cells have ranks that fall from each of them to those it reads, then each pass
settles one more rank for good. -/

namespace Spreadsheet

namespace Sheet

variable {s t : Sheet} {id x : Cell} {policy : Policy} {ids : List Cell}

def text? (s : Sheet) (id : Cell) : Option String :=
  (s.get? id).map Record.raw

def SameTexts (s t : Sheet) : Prop :=
  (∀ id, s.text? id = t.text? id) ∧ s.deleted = t.deleted

lemma SameTexts.refl (s : Sheet) : SameTexts s s :=
  ⟨fun _ => rfl, rfl⟩

lemma SameTexts.symm (h : SameTexts s t) : SameTexts t s :=
  ⟨fun id => (h.1 id).symm, h.2.symm⟩

lemma SameTexts.trans {u : Sheet} (h : SameTexts s t) (h' : SameTexts t u) : SameTexts s u :=
  ⟨fun id => (h.1 id).trans (h'.1 id), h.2.trans h'.2⟩

lemma text?_eq_none : s.text? id = none ↔ s.get? id = none := by
  simp [text?]

lemma text?_of_get? {r : Record} (h : s.get? id = some r) : s.text? id = some r.raw := by
  simp [text?, h]

lemma exists_of_text? {raw : String} (h : s.text? id = some raw) :
    ∃ r, s.get? id = some r ∧ r.raw = raw := by
  simpa [text?] using h

lemma get?_eq_of_shown (ht : s.text? id = t.text? id)
    (h : ∀ r r', s.get? id = some r → t.get? id = some r' → r.raw = r'.raw → r.shown = r'.shown) :
    s.get? id = t.get? id := by
  cases hr' : t.get? id with
  | none => rw [← text?_eq_none, ht, text?_eq_none, hr']
  | some r' =>
    obtain ⟨r, hr, hraw⟩ := exists_of_text? (ht.trans (text?_of_get? hr'))
    rw [hr]
    exact congrArg some (congrArg₂ Record.mk hraw (h r r' hr hr' hraw))

lemma isDeleted_iff : s.isDeleted id = true ↔ id ∈ s.deleted :=
  Std.ExtTreeSet.contains_iff_mem

lemma reading_congr (hr : s.get? id = t.get? id) (hd : id ∈ s.deleted ↔ id ∈ t.deleted) :
    s.reading id = t.reading id := by
  have hd' : s.isDeleted id = t.isDeleted id := by
    rw [Bool.eq_iff_iff, isDeleted_iff, isDeleted_iff, hd]
  simp [reading, hr, hd']

lemma evaluate_congr {raw : String} (h : ∀ x ∈ Raw.references raw, s.reading x = t.reading x) :
    s.evaluate policy raw = t.evaluate policy raw := by
  have hs : Outcome.SameUpTo (fun _ => False) (s.evaluate policy raw) (t.evaluate policy raw) :=
    Raw.evaluate_sameUpTo fun x hx => Or.inl (h x hx).symm
  simpa [Outcome.SameUpTo, eq_comm] using hs

section Modify

variable {f : Record → Record}

@[simp] lemma deleted_modify : (s.modify id f).deleted = s.deleted := by
  rw [modify]
  split <;> rfl

lemma modify_eq_self (h : ∀ r, s.get? id = some r → f r = r) : s.modify id f = s := by
  apply Sheet.ext
  · intro x
    rw [get?_modify]
    split
    · rename_i hx
      subst hx
      cases hr : s.get? id with
      | none => rfl
      | some r => rw [Option.map_some, h r hr]
    · rfl
  · simp

lemma sameTexts_modify (h : ∀ r, (f r).raw = r.raw) : SameTexts (s.modify id f) s := by
  refine ⟨fun x => ?_, deleted_modify⟩
  simp only [text?, get?_modify]
  split
  · cases s.get? x <;> simp [h]
  · rfl

end Modify

section Fail

variable {code : CellError}

lemma get?_fail : (s.fail code ids).get? x =
    if x ∈ ids then (s.get? x).map (·.fail code) else s.get? x := by
  rw [fail]
  induction ids generalizing s with
  | nil => simp
  | cons id ids ih =>
    rw [List.foldl_cons, ih, get?_modify]
    by_cases hx : id = x <;> by_cases hm : x ∈ ids <;> cases s.get? x <;>
      simp [hx, hm, Ne.symm, Record.fail]

lemma sameTexts_fail : SameTexts (s.fail code ids) s := by
  rw [fail]
  induction ids generalizing s with
  | nil => exact .refl s
  | cons id ids ih => exact ih.trans (sameTexts_modify fun _ => rfl)

lemma fail_eq_self (h : ∀ x ∈ ids, ∀ r, s.get? x = some r → r.shown = .error code) :
    s.fail code ids = s := by
  refine Sheet.ext (fun x => ?_) fun x => by rw [sameTexts_fail.2]
  rw [get?_fail]
  split
  · rename_i hx
    cases hr : s.get? x with
    | none => rfl
    | some r => rw [Option.map_some, Record.fail, ← h x hx r hr]
  · rfl

end Fail

def Settled (policy : Policy) (s : Sheet) (id : Cell) : Prop :=
  ∀ r, s.get? id = some r → r.shown = .ofResult (s.evaluate policy r.raw)

lemma settled_iff {r : Record} (h : s.get? id = some r) :
    Settled policy s id ↔ r.apply (s.evaluate policy r.raw) = r := by
  constructor
  · intro hs
    rw [Record.apply, ← hs r h]
  · intro he r' hr
    rw [h] at hr
    cases hr
    exact (congrArg Record.shown he).symm

section Refresh

lemma get?_refresh : (s.refresh policy id).get? x =
    if id = x then (s.get? x).map fun r => r.apply (s.evaluate policy r.raw) else s.get? x :=
  get?_modify ..

lemma sameTexts_refresh : SameTexts (s.refresh policy id) s :=
  sameTexts_modify fun _ => rfl

lemma refresh_eq_self (h : Settled policy s id) : s.refresh policy id = s := by
  apply modify_eq_self
  intro r hr
  exact (settled_iff hr).mp h

lemma settled_refresh (h : x = id ∨ Settled policy s x)
    (hr : ∀ raw, s.text? x = some raw → id ∉ Raw.references raw) :
    Settled policy (s.refresh policy id) x := by
  intro r hx
  have hraw : s.text? x = some r.raw := by
    rw [← sameTexts_refresh.1 x]
    exact text?_of_get? hx
  have he : (s.refresh policy id).evaluate policy r.raw = s.evaluate policy r.raw := by
    refine evaluate_congr fun y hy => reading_congr ?_ (by rw [sameTexts_refresh.2])
    rw [get?_refresh, if_neg]
    rintro rfl
    exact hr _ hraw hy
  rw [he]
  rw [get?_refresh] at hx
  split at hx
  · obtain ⟨r', _, rfl⟩ := Option.map_eq_some_iff.mp hx
    rfl
  · rename_i hid
    exact h.resolve_left (Ne.symm hid) r hx

end Refresh

section Passes

variable {order : List Cell} {state : Sheet × Bool}

def passed (policy : Policy) (order : List Cell) (s : Sheet) : Sheet :=
  order.foldl (fun s id => s.refresh policy id) s

lemma step_fst : (step policy state id).1 = state.1.refresh policy id := by
  obtain ⟨s, changed⟩ := state
  cases h : s.get? id with
  | none => simp [step, refresh, modify, h]
  | some r =>
    by_cases he : r.apply (s.evaluate policy r.raw) = r
    · rw [refresh_eq_self ((settled_iff h).mpr he)]
      simp [step, h, he]
    · simp [step, refresh, modify, h, he]

lemma step_snd (h : (step policy state id).2 = false) :
    state.2 = false ∧ Settled policy state.1 id := by
  obtain ⟨s, changed⟩ := state
  cases hr : s.get? id with
  | none => simpa [step, hr, Settled] using h
  | some r =>
    by_cases he : r.apply (s.evaluate policy r.raw) = r
    · exact ⟨by simpa [step, hr, he] using h, (settled_iff hr).mpr he⟩
    · simp [step, hr, he] at h

lemma step_of_settled (h : Settled policy state.1 id) : step policy state id = state := by
  obtain ⟨s, changed⟩ := state
  cases hr : s.get? id with
  | none => simp [step, hr]
  | some r => simp [step, hr, (settled_iff hr).mp h]

lemma foldl_step_fst :
    (order.foldl (step policy) state).1 = passed policy order state.1 := by
  induction order generalizing state with
  | nil => rfl
  | cons id order ih =>
    rw [List.foldl_cons, ih, step_fst]
    rfl

lemma foldl_step_snd (h : (order.foldl (step policy) state).2 = false) :
    state.2 = false ∧ passed policy order state.1 = state.1 := by
  induction order generalizing state with
  | nil => exact ⟨h, rfl⟩
  | cons id order ih =>
    rw [List.foldl_cons] at h
    obtain ⟨hc, hp⟩ := ih h
    obtain ⟨hc, hs⟩ := step_snd hc
    have hr : state.1.refresh policy id = state.1 := refresh_eq_self hs
    rw [step_fst, hr] at hp
    refine ⟨hc, ?_⟩
    rw [passed, List.foldl_cons, hr]
    exact hp

lemma pass_of_settled (h : ∀ id ∈ order, Settled policy s id) :
    pass policy order s = (s, false) := by
  refine List.foldlRecOn (motive := (· = (s, false))) order _ rfl fun state hstate id hid => ?_
  subst hstate
  exact step_of_settled (h id hid)

lemma passes_fst (cap done : ℕ) :
    (passes policy order cap done s).1 = (passed policy order)^[cap] s := by
  induction cap generalizing done s with
  | zero => rfl
  | succ cap ih =>
    have hp : (pass policy order s).1 = passed policy order s := foldl_step_fst
    rw [passes]
    cases hc : (pass policy order s).2 with
    | true => simp only [hc, if_true, ih, hp, Function.iterate_succ_apply]
    | false =>
      have hs : passed policy order s = s := (foldl_step_snd hc).2
      simp only [hc, Bool.false_eq_true, if_false, hp]
      rw [Function.iterate_fixed hs, hs]

lemma passes_snd {n cap : ℕ} (done : ℕ)
    (h : ∀ id ∈ order, Settled policy ((passed policy order)^[n] s) id) (hn : n < cap) :
    (passes policy order cap done s).2.2 = true ∧
      (passes policy order cap done s).2.1 ≤ done + (n + 1) := by
  induction n generalizing s cap done with
  | zero =>
    obtain ⟨cap, rfl⟩ := Nat.exists_eq_succ_of_ne_zero hn.ne'
    have hp : pass policy order s = (s, false) := pass_of_settled h
    simp [passes, hp]
  | succ n ih =>
    obtain ⟨cap, rfl⟩ := Nat.exists_eq_succ_of_ne_zero (Nat.ne_zero_of_lt hn)
    have hp : (pass policy order s).1 = passed policy order s := foldl_step_fst
    rw [passes]
    cases hc : (pass policy order s).2 with
    | true =>
      obtain ⟨hstable, hmade⟩ := ih (done + 1) h (Nat.lt_of_succ_lt_succ hn)
      simp only [hc, if_true, hp]
      exact ⟨hstable, by omega⟩
    | false =>
      -- Settling ends here, earlier than after `n` passes.
      simp only [hc, Bool.false_eq_true, if_false]
      exact ⟨trivial, by omega⟩

lemma mem_passOrder : x ∈ passOrder ids ↔ x ∈ ids := by
  simp [passOrder, Std.ExtTreeSet.mem_ofList]

lemma settle_fst (cap : ℕ) :
    (s.settle policy cap ids).1 = (passed policy (passOrder ids))^[cap] s :=
  passes_fst cap 0

lemma settle_snd {n cap : ℕ} (h : ∀ x ∈ ids, Settled policy (s.settle policy n ids).1 x)
    (hn : n < cap) : (s.settle policy cap ids).2.stable = true ∧
      (s.settle policy cap ids).2.passes ≤ n + 1 := by
  have hs : ∀ id ∈ passOrder ids, Settled policy ((passed policy (passOrder ids))^[n] s) id :=
    fun id hid => settle_fst n ▸ h id (mem_passOrder.mp hid)
  simpa [settle] using passes_snd 0 hs hn

lemma settle_induction {P : Sheet → Prop} (cap : ℕ) (hs : P s)
    (h : ∀ t, ∀ id ∈ ids, P t → P (t.refresh policy id)) : P (s.settle policy cap ids).1 := by
  have hpass : ∀ t, P t → P (passed policy (passOrder ids) t) := by
    intro t ht
    refine List.foldlRecOn (passOrder ids) _ ht fun t ht id hid => ?_
    exact h t id (mem_passOrder.mp hid) ht
  rw [settle_fst]
  exact Function.Iterate.rec P hs hpass cap

lemma sameTexts_settle (cap : ℕ) : SameTexts (s.settle policy cap ids).1 s :=
  settle_induction (P := (SameTexts · s)) cap (.refl s) fun _ _ _ h => sameTexts_refresh.trans h

lemma get?_settle_of_not_mem (cap : ℕ) (h : x ∉ ids) :
    (s.settle policy cap ids).1.get? x = s.get? x := by
  refine settle_induction (P := fun t => t.get? x = s.get? x) cap rfl fun t id hid ht => ?_
  rw [get?_refresh, if_neg, ht]
  rintro rfl
  exact h hid

lemma settle_attains {P : Sheet → Prop} {cap : ℕ} (hcap : 0 < cap) (hx : x ∈ ids)
    (hat : ∀ t, SameTexts t s → P (t.refresh policy x))
    (hkeep : ∀ t id, SameTexts t s → P t → P (t.refresh policy id)) :
    P (s.settle policy cap ids).1 := by
  have hpass : ∀ order t, SameTexts t s → x ∈ order ∨ P t → P (passed policy order t) := by
    intro order
    induction order with
    | nil =>
      intro t _ h
      exact h.resolve_left List.not_mem_nil
    | cons id order ih =>
      intro t ht h
      refine ih _ (sameTexts_refresh.trans ht) ?_
      rcases h with h | h
      · rcases List.mem_cons.mp h with rfl | h
        · exact Or.inr (hat t ht)
        · exact Or.inl h
      · exact Or.inr (hkeep t id ht h)
  obtain ⟨cap, rfl⟩ := Nat.exists_eq_succ_of_ne_zero hcap.ne'
  rw [settle_fst, Function.iterate_succ_apply', ← settle_fst]
  exact hpass _ _ (sameTexts_settle cap) (Or.inl (mem_passOrder.mpr hx))

end Passes

section Ranks

variable {rank : Cell → ℕ} {n : ℕ}

/-- Among the listed cells with a record, ranks fall from a cell to those that it reads. -/
def RankFalls (s : Sheet) (ids : List Cell) (rank : Cell → ℕ) : Prop :=
  ∀ x ∈ ids, ∀ raw, s.text? x = some raw →
    ∀ y ∈ Raw.references raw, y ∈ ids → s.text? y ≠ none → rank y < rank x

lemma RankFalls.congr (h : RankFalls s ids rank) (ht : SameTexts t s) : RankFalls t ids rank := by
  intro x hx raw hraw y hy hyi hty
  rw [ht.1] at hraw hty
  exact h x hx raw hraw y hy hyi hty

lemma settled_foldl {order : List Cell} (hr : RankFalls s ids rank) (ho : ∀ id ∈ order, id ∈ ids)
    (hs : ∀ x ∈ ids, rank x < n → Settled policy s x) :
    ∀ x ∈ ids, rank x < n ∨ (rank x = n ∧ (x ∈ order ∨ Settled policy s x)) →
      Settled policy (passed policy order s) x := by
  induction order generalizing s with
  | nil =>
    intro x hx hn
    rcases hn with hn | ⟨_, hn⟩
    · exact hs x hx hn
    · exact hn.resolve_left List.not_mem_nil
  | cons id order ih =>
    have hid : id ∈ ids := ho id List.mem_cons_self
    have ho' : ∀ id ∈ order, id ∈ ids := fun id hm => ho id (List.mem_cons_of_mem _ hm)
    rw [passed, List.foldl_cons]
    by_cases hset : Settled policy s id
    · rw [refresh_eq_self hset]
      intro x hx hn
      refine ih hr ho' hs x hx (hn.imp_right (And.imp_right ?_))
      rintro (hm | hm)
      · rcases List.mem_cons.mp hm with rfl | hm
        · exact Or.inr hset
        · exact Or.inl hm
      · exact Or.inr hm
    · -- The cell has a record and a rank of at least `n`, so no cell of rank up to `n` reads it.
      have hrank : n ≤ rank id := by
        by_contra hlt
        exact hset (hs id hid (not_le.mp hlt))
      have htext : s.text? id ≠ none := by
        intro h
        refine hset fun r hr => ?_
        rw [text?_eq_none.mp h] at hr
        cases hr
      have hread : ∀ x ∈ ids, rank x ≤ n → ∀ raw, s.text? x = some raw →
          id ∉ Raw.references raw := by
        intro x hx hn raw hraw hmem
        have := hr x hx raw hraw id hmem hid htext
        omega
      intro x hx hn
      refine ih (hr.congr sameTexts_refresh) ho' (fun y hy hny => ?_) x hx ?_
      · exact settled_refresh (Or.inr (hs y hy hny)) (hread y hy (by omega))
      · rcases hn with hn | ⟨hn, hm⟩
        · exact Or.inl hn
        · refine Or.inr ⟨hn, ?_⟩
          rcases hm with hm | hm
          · rcases List.mem_cons.mp hm with rfl | hm
            · exact Or.inr (settled_refresh (Or.inl rfl) (hread x hx (by omega)))
            · exact Or.inl hm
          · exact Or.inr (settled_refresh (Or.inr hm) (hread x hx (by omega)))

lemma settled_settle (hr : RankFalls s ids rank) (hs : ∀ x ∈ ids, rank x < n → Settled policy s x)
    (cap : ℕ) (hx : x ∈ ids) (hcap : rank x < n + cap) :
    Settled policy (s.settle policy cap ids).1 x := by
  induction cap generalizing x with
  | zero => exact hs x hx hcap
  | succ cap ih =>
    have hr' : RankFalls (s.settle policy cap ids).1 ids rank := hr.congr (sameTexts_settle cap)
    rw [settle_fst, Function.iterate_succ_apply', ← settle_fst]
    refine settled_foldl hr' (fun id => mem_passOrder.mp) (fun y hy => ih hy) x hx ?_
    rcases Nat.lt_succ_iff_lt_or_eq.mp hcap with hlt | heq
    · exact Or.inl hlt
    · exact Or.inr ⟨heq, Or.inl (mem_passOrder.mpr hx)⟩

end Ranks

end Sheet

end Spreadsheet
