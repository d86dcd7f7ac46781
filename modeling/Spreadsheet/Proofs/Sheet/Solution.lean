import Spreadsheet.Proofs.Dependency.Chains
import Spreadsheet.Proofs.Sheet.Editing

namespace Spreadsheet

open Relation
open Cell (a1 b1 c1)

namespace Raw

variable {raw : String} {x : Cell} {policy : Policy} {lookup : Lookup}

lemma formula?_eq_none : formula? raw = none ↔ isFormula raw = false := by
  simp [isFormula]

lemma evaluate_literal (h : isFormula raw = false) :
    evaluate policy lookup raw = .ok (.text raw) := by
  rw [evaluate, formula?_eq_none.mpr h]

lemma isFormula_of_mem_references (h : x ∈ references raw) : isFormula raw = true := by
  by_contra hf
  rw [references, formula?_eq_none.mpr (Bool.eq_false_of_not_eq_true hf)] at h
  exact Std.ExtTreeSet.not_mem_empty h

end Raw

namespace Sheet

variable {s t u : Sheet} {c x : Cell} {policy : Policy}

def isFormula (s : Sheet) (c : Cell) : Bool :=
  (s.text? c).any Raw.isFormula

lemma SameTexts.isFormula (h : SameTexts s t) : s.isFormula = t.isFormula := by
  funext c
  rw [Sheet.isFormula, Sheet.isFormula, h.1]

lemma isFormula_of_get? {r : Record} (h : s.get? c = some r) :
    s.isFormula c = Raw.isFormula r.raw := by
  rw [isFormula, text?_of_get? h, Option.any_some]

lemma mem_ids_of_isFormula (h : s.isFormula c = true) : c ∈ s.ids := by
  rw [mem_ids]
  intro hc
  simp [isFormula, hc] at h

lemma isFormula_of_mentions (h : s.Mentions c x) : s.isFormula c = true := by
  obtain ⟨raw, hc, hx⟩ := h
  simpa [isFormula, hc] using Raw.isFormula_of_mem_references hx

def LiteralsShown (s : Sheet) : Prop :=
  ∀ c r, s.get? c = some r → Raw.isFormula r.raw = false → r.shown = .text r.raw

structure Solution (policy : Policy) (s : Sheet) : Prop where
  literals : s.LiteralsShown
  formulas : ∀ c r, s.get? c = some r → Raw.isFormula r.raw = true →
    r.shown = .ofResult (s.evaluate policy r.raw)

lemma LiteralsShown.settled (h : s.LiteralsShown) (hc : s.isFormula c = false) :
    Settled policy s c := by
  intro r hr
  have hl : Raw.isFormula r.raw = false := isFormula_of_get? hr ▸ hc
  rw [evaluate, Raw.evaluate_literal hl]
  exact h c r hr hl

lemma solution_iff : Solution policy s ↔ ∀ c, Settled policy s c := by
  constructor
  · intro h c r hr
    cases hf : Raw.isFormula r.raw with
    | false => exact h.literals.settled ((isFormula_of_get? hr).trans hf) r hr
    | true => exact h.formulas c r hr hf
  · intro h
    refine ⟨fun c r hr hf => ?_, fun c r hr _ => h c r hr⟩
    rw [h c r hr, evaluate, Raw.evaluate_literal hf]
    rfl

lemma eq_of_settled {rank : Cell → ℕ} (hr : RankFalls t t.ids rank) (hu : SameTexts u t)
    (ht : ∀ c, Settled policy t c) (hs : ∀ c, Settled policy u c) : u = t := by
  have hget : ∀ c, u.get? c = t.get? c := by
    intro c
    induction hn : rank c using Nat.strong_induction_on generalizing c with
    | _ n ih =>
      subst hn
      refine get?_eq_of_shown (hu.1 c) fun r' r hc' hc hraw => ?_
      have hct : t.text? c = some r.raw := text?_of_get? hc
      have hreading : ∀ x ∈ Raw.references r.raw, u.reading x = t.reading x := by
        intro x hx
        refine reading_congr ?_ (by rw [hu.2])
        by_cases hxt : t.text? x = none
        · rw [text?_eq_none.mp hxt, text?_eq_none.mp ((hu.1 x).trans hxt)]
        · exact ih _ (hr c (mem_ids.mpr (by simp [hct])) _ hct x hx (mem_ids.mpr hxt) hxt) x rfl
      rw [hs c r' hc', ht c r hc, hraw, evaluate_congr hreading]
  exact Sheet.ext hget fun c => by rw [hu.2]

def Acyclic (s : Sheet) : Prop :=
  ∀ c, ¬ TransGen s.Mentions c c

lemma Acyclic.congr (h : s.Acyclic) (ht : SameTexts t s) : t.Acyclic := by
  rw [Acyclic, ht.mentions]
  exact h

structure SettlesTo (policy : Policy) (cap made : ℕ) (s t : Sheet) : Prop where
  sheet : (s.settleAll policy cap).1 = t
  stable : (s.settleAll policy cap).2.stable = true
  passes : (s.settleAll policy cap).2.passes ≤ made

lemma acyclic_of_lt {f : Cell → ℕ}
    (h : ∀ p ∈ s.records.toList, ∀ x ∈ (Raw.references p.2.raw).toList, f x < f p.1) :
    s.Acyclic := by
  have hstep : ∀ c x, s.Mentions c x → f c > f x := by
    rintro c x ⟨raw, hc, hx⟩
    obtain ⟨r, hr, rfl⟩ := exists_of_text? hc
    exact h (c, r) (mem_records.mpr hr) x (Std.ExtTreeSet.mem_toList.mpr hx)
  intro c hc
  have hlt : TransGen (· > ·) (f c) (f c) := hc.lift f hstep
  rw [transGen_eq_self] at hlt
  exact lt_irrefl _ hlt

section Acyclic

variable {n m k cap : ℕ} (hs : s.Acyclic)
include hs

lemma Acyclic.rankFalls : RankFalls s s.ids (chainDepth s.Mentions s.isFormula) := by
  intro x _ raw hraw y hy _ _
  have hxy : s.Mentions x y := ⟨raw, hraw, hy⟩
  exact chainDepth_lt_chainDepth hs (fun _ => mem_ids_of_isFormula) hxy (isFormula_of_mentions hxy)

lemma Acyclic.unique (h : Solution policy s) (hu : Solution policy u) (ht : SameTexts u s) :
    u = s :=
  eq_of_settled hs.rankFalls ht (solution_iff.mp h) (solution_iff.mp hu)

lemma Acyclic.settled_of_chainDepth (h : s.LiteralsShown)
    (hc : chainDepth s.Mentions s.isFormula c < 1) : Settled policy s c := by
  refine h.settled (Bool.eq_false_of_not_eq_true fun hf => ?_)
  have hpos : 0 < chainDepth s.Mentions s.isFormula c :=
    chainDepth_pos hs (fun _ => mem_ids_of_isFormula) hf
  exact absurd hc (Nat.not_lt.mpr hpos)

variable (hn : IsGreatest (chainWeights s.Mentions s.isFormula) n)
  (h : ∀ c ∈ s.ids, chainDepth s.Mentions s.isFormula c < m → Settled policy s c)
include hn h

lemma Acyclic.solution_settleAll (hcap : n < m + cap) :
    Solution policy (s.settleAll policy cap).1 := by
  rw [solution_iff]
  intro c r hr
  have hc : c ∈ s.ids := by
    have ht : (s.settleAll policy cap).1.text? c = s.text? c := (sameTexts_settle cap).1 c
    rw [mem_ids, ← ht, text?_of_get? hr]
    exact Option.some_ne_none _
  have hdepth : chainDepth s.Mentions s.isFormula c ≤ n :=
    chainDepth_le hs (fun _ => mem_ids_of_isFormula) hn
  -- A pass settles the cells from which chains have one formula more than before.
  exact settled_settle hs.rankFalls h cap hc (hdepth.trans_lt hcap) r hr

lemma Acyclic.settlesTo (ht : SameTexts t s) (hsol : Solution policy t) (hk : n < m + k)
    (hcap : k < cap) : SettlesTo policy cap (k + 1) s t := by
  have hend : Solution policy (s.settleAll policy cap).1 :=
    hs.solution_settleAll hn h (hk.trans (Nat.add_lt_add_left hcap m))
  have hsettled : Solution policy (s.settleAll policy k).1 := hs.solution_settleAll hn h hk
  obtain ⟨hstable, hpasses⟩ := settle_snd (fun c _ => solution_iff.mp hsettled c) hcap
  refine ⟨?_, hstable, hpasses⟩
  exact (hs.congr ht).unique hsol hend ((sameTexts_settle cap).trans ht.symm)

end Acyclic

/-- A sheet without a reference cycle has one solution. With at most `n` formulas on a chain of
references, settling ends there whatever the cells show before, after at most `n + 2` passes, or one
less if the literals show their texts already. -/
theorem settleAll_of_acyclic (s : Sheet) (policy : Policy) (hs : s.Acyclic) :
    ∃ n, IsGreatest (chainWeights s.Mentions s.isFormula) n ∧
      ∃ t, SameTexts t s ∧ Solution policy t ∧
        (∀ u, SameTexts u s → Solution policy u → u = t) ∧
        ∀ u, SameTexts u s → ∀ cap,
          (n + 2 ≤ cap → SettlesTo policy cap (n + 2) u t) ∧
          (u.LiteralsShown → n + 1 ≤ cap → SettlesTo policy cap (n + 1) u t) := by
  have hn : IsGreatest (chainWeights s.Mentions s.isFormula) _ :=
    isGreatest_chainWeights hs fun _ => mem_ids_of_isFormula
  set n := sSup (chainWeights s.Mentions s.isFormula)
  set t := (s.settleAll policy (n + 1)).1
  have ht : SameTexts t s := sameTexts_settle _
  have hsol : Solution policy t :=
    hs.solution_settleAll (m := 0) hn (fun _ _ hc => absurd hc (Nat.not_lt_zero _)) (by omega)
  refine ⟨n, hn, t, ht, hsol, fun u hu hsol' => ?_, fun u hu cap => ?_⟩
  · exact (hs.congr ht).unique hsol hsol' (hu.trans ht.symm)
  · have hnu : IsGreatest (chainWeights u.Mentions u.isFormula) n := by
      rw [hu.mentions, hu.isFormula]
      exact hn
    have htu : SameTexts t u := ht.trans hu.symm
    constructor
    · intro hcap
      exact (hs.congr hu).settlesTo (m := 0) hnu (fun _ _ hc => absurd hc (Nat.not_lt_zero _))
        htu hsol (k := n + 1) (by omega) (by omega)
    · intro hl hcap
      exact (hs.congr hu).settlesTo (m := 1) hnu
        (fun _ _ hc => (hs.congr hu).settled_of_chainDepth hl hc) htu hsol (by omega) hcap

theorem settleAll_of_acyclic_of_stale :
    let s : Sheet := Sheet.empty.enter [(a1, "=B1+1"), (b1, "=C1*2"), (c1, "7")]
    s.Acyclic ∧ IsGreatest (chainWeights s.Mentions s.isFormula) 2 ∧
      ∃ t, SettlesTo .lenient 3 3 s t ∧ SettlesTo .lenient 4 4 (s.fail .cycle [b1, c1]) t := by
  intro s
  have hs : s.Acyclic := by
    refine acyclic_of_lt (f := fun x => 3 - x.col) ?_
    decide +kernel
  have hformula : ∀ p ∈ s.records.toList, Raw.isFormula p.2.raw = true → p.1 ∈ [a1, b1] := by
    decide +kernel
  have hliteral : ∀ p ∈ s.records.toList, Raw.isFormula p.2.raw = false →
      p.2.shown = .text p.2.raw := by
    decide +kernel
  have hmarked : ∀ x, s.isFormula x = true → x ∈ [a1, b1] := by
    intro x hx
    cases hr : s.get? x with
    | none => simp [isFormula, text?, hr] at hx
    | some r => exact hformula (x, r) (mem_records.mpr hr) (isFormula_of_get? hr ▸ hx)
  have hl : s.LiteralsShown := fun x r hr hf => hliteral (x, r) (mem_records.mpr hr) hf
  have hab : s.Mentions a1 b1 := by decide +kernel
  have htwo : IsGreatest (chainWeights s.Mentions s.isFormula) 2 := by
    refine ⟨⟨[a1, b1], .cons_cons hab (.singleton b1), by decide +kernel⟩, ?_⟩
    rintro n ⟨cs, hcs, rfl⟩
    exact countP_le_of_isChain hs hmarked hcs
  obtain ⟨n, hn, t, -, -, -, ht⟩ := settleAll_of_acyclic s .lenient hs
  obtain rfl : n = 2 := hn.unique htwo
  exact ⟨hs, htwo, t, (ht s (.refl s) 3).2 hl le_rfl, (ht _ sameTexts_fail 4).1 le_rfl⟩

end Sheet

end Spreadsheet
