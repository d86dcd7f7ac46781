import Mathlib.Data.List.Chain
import Spreadsheet.Formula.Evaluation
import Spreadsheet.Proofs.Formula.Lexing

/-! Where a piece is dropped, a blank takes its place, so nothing is joined that was apart. -/

namespace Spreadsheet

namespace Lexeme

def isStray : Lexeme → Bool
  | stray _ => true
  | _ => false

def isUnknown : Lexeme → Bool
  | word letters => (Aggregate.ofName? (String.ofList letters)).isNone
  | _ => false

/-- One blank for all stray characters that are side by side, and one for each unknown word. -/
def blankOut : List Lexeme → List Lexeme
  | [] => []
  | l :: ls =>
    if l.isStray then blank ' ' :: blankOut (ls.dropWhile isStray)
    else (if l.isUnknown then blank ' ' else l) :: blankOut ls
termination_by ls => ls.length
decreasing_by
  · exact Nat.lt_succ_of_le (List.dropWhile_suffix _).length_le
  · exact Nat.lt_succ_self _

variable {l m : Lexeme} {ls ms : List Lexeme} {ts : List Token}

section Text

structure Apart (ls : List Lexeme) : Prop where
  form : ∀ l ∈ ls, l.HasForm
  chain : ls.IsChain fun l m => ∀ d ∈ m.spelling.head?, l.takesUp d = false

lemma apart_cons : Apart (l :: ls) ↔
    l.HasForm ∧ (∀ m ∈ ls.head?, ∀ d ∈ m.spelling.head?, l.takesUp d = false) ∧ Apart ls := by
  constructor
  · rintro ⟨hf, hc⟩
    obtain ⟨hl, hf⟩ := List.forall_mem_cons.mp hf
    obtain ⟨hm, hc⟩ := List.isChain_cons.mp hc
    exact ⟨hl, hm, hf, hc⟩
  · rintro ⟨hl, hm, hf, hc⟩
    exact ⟨List.forall_mem_cons.mpr ⟨hl, hf⟩, List.isChain_cons.mpr ⟨hm, hc⟩⟩

lemma Apart.suffix (h : Apart ls) (hs : ms <:+ ls) : Apart ms :=
  ⟨fun m hm => h.form m (hs.subset hm), h.chain.suffix hs⟩

lemma apart_ofChars (cs : List Char) : Apart (ofChars cs) := by
  fun_induction ofChars cs with
  | case1 => exact ⟨by simp, .nil⟩
  | case2 c cs ih =>
    obtain ⟨hf, hs⟩ := next_stops c cs
    refine apart_cons.mpr ⟨hf, fun m hm d hd => hs d ?_, ih⟩
    obtain ⟨ms, hms⟩ := List.head?_eq_some_iff.mp hm
    rw [← flatMap_spelling_ofChars (next c cs).2, hms]
    simp [Option.mem_def.mp hd]

lemma Apart.ofChars_flatMap (h : Apart ls) (hs : ∀ l ∈ ls, l.isStray = false) :
    ofChars (ls.flatMap spelling) = ls := by
  induction ls with
  | nil => exact ofChars_nil
  | cons l ls ih =>
    obtain ⟨hf, hm, ha⟩ := apart_cons.mp h
    have hs' : ∀ l ∈ ls, l.isStray = false := fun m hm => hs m (List.mem_cons_of_mem l hm)
    rw [List.flatMap_cons, ofChars_spelling_append hf ?_, ih ha hs']
    intro d hd
    cases ls with
    | nil => cases hd
    | cons m ls =>
      have hmf : m.HasForm := ha.form m List.mem_cons_self
      rw [List.flatMap_cons, List.head?_append_of_ne_nil _ (spelling_ne_nil hmf)] at hd
      -- The characters that link, a colon and a point, are themselves stray.
      refine ⟨hm m rfl d hd, linksBy_eq_false (not_stray_head hmf ?_ d hd) l⟩
      rintro c rfl
      cases hs' _ List.mem_cons_self

end Text

section BlankOut

lemma mem_head?_blankOut (h : m ∈ (blankOut ls).head?) : m = blank ' ' ∨ m ∈ ls.head? := by
  cases ls with
  | nil => simp [blankOut] at h
  | cons l ls =>
    rw [blankOut] at h
    split at h
    · cases h
      exact Or.inl rfl
    · split at h
      · cases h
        exact Or.inl rfl
      · exact Or.inr h

lemma hasForm_blank : (blank ' ').HasForm := by
  rw [HasForm]
  decide

lemma Apart.blankOut (h : Apart ls) : Apart (blankOut ls) := by
  fun_induction Lexeme.blankOut ls with
  | case1 => exact h
  | case2 l ls _ ih =>
    have ha : Apart (ls.dropWhile isStray) :=
      h.suffix ((List.dropWhile_suffix _).trans (List.suffix_cons l ls))
    exact apart_cons.mpr ⟨hasForm_blank, fun _ _ _ _ => rfl, ih ha⟩
  | case3 l ls _ ih =>
    obtain ⟨hf, hm, ha⟩ := apart_cons.mp h
    split
    · exact apart_cons.mpr ⟨hasForm_blank, fun _ _ _ _ => rfl, ih ha⟩
    · refine apart_cons.mpr ⟨hf, fun m hmem d hd => ?_, ih ha⟩
      -- What follows is a new blank, or the lexeme that followed before.
      rcases mem_head?_blankOut hmem with rfl | hmem
      · cases hd
        exact takesUp_of_isBlank hasForm_blank l
      · exact hm m hmem d hd

lemma isStray_of_mem_blankOut : ∀ l ∈ blankOut ls, l.isStray = false := by
  fun_induction blankOut ls with
  | case1 => simp
  | case2 l ls _ ih => exact List.forall_mem_cons.mpr ⟨rfl, ih⟩
  | case3 l ls hs ih =>
    refine List.forall_mem_cons.mpr ⟨?_, ih⟩
    split
    · rfl
    · exact Bool.eq_false_iff.mpr hs

end BlankOut

section Tokens

lemma token?_dropped (h : l.isStray = true ∨ l.isUnknown = true) (policy : Policy) :
    l.token? policy = unmatched policy := by
  cases l with
  | word letters =>
    have hn : Aggregate.ofName? (String.ofList letters) = none := by
      simpa [isStray, isUnknown] using h
    rw [token?, hn]
  | stray c => rfl
  | _ => rcases h with h | h <;> cases h

lemma token?_known (hs : l.isStray = false) (hu : l.isUnknown = false) (policy : Policy) :
    l.token? policy = l.token? .strict := by
  cases l with
  | mention m => cases m <;> rfl
  | word letters =>
    rw [isUnknown, Option.isNone_eq_false_iff] at hu
    obtain ⟨f, hf⟩ := Option.isSome_iff_exists.mp hu
    simp [token?, hf]
  | stray c => cases hs
  | _ => rfl

lemma tokens_dropWhile (ls : List Lexeme) :
    tokens .lenient (ls.dropWhile isStray) = tokens .lenient ls := by
  induction ls with
  | nil => rfl
  | cons l ls ih =>
    by_cases hs : l.isStray = true
    · rw [List.dropWhile_cons_of_pos hs, ih, tokens_of_none (token?_dropped (Or.inl hs) _)]
    · rw [List.dropWhile_cons_of_neg hs]

lemma tokens_blankOut (ls : List Lexeme) : tokens .strict (blankOut ls) = tokens .lenient ls := by
  fun_induction blankOut ls with
  | case1 => rfl
  | case2 l ls hs ih =>
    rw [tokens_of_none rfl, ih, tokens_dropWhile, tokens_of_none (token?_dropped (Or.inl hs) _)]
  | case3 l ls hs ih =>
    split
    · rename_i hu
      rw [tokens_of_none rfl, ih, tokens_of_none (token?_dropped (Or.inr hu) _)]
    · rename_i hu
      rw [tokens, tokens, ih,
        token?_known (Bool.eq_false_iff.mpr hs) (Bool.eq_false_iff.mpr hu) .lenient]

lemma blankOut_eq_self (h : tokens .strict ls = .ok ts) : blankOut ls = ls := by
  induction ls generalizing ts with
  | nil => rw [blankOut]
  | cons l ls ih =>
    obtain ⟨found, ht, h⟩ := Outcome.bind_eq_ok.mp h
    obtain ⟨us, hu, -⟩ := Outcome.bind_eq_ok.mp h
    have hd : ¬ (l.isStray = true ∨ l.isUnknown = true) := by
      intro hd
      rw [token?_dropped hd] at ht
      cases ht
    rw [not_or] at hd
    rw [blankOut, if_neg hd.1, if_neg hd.2, ih hu]

end Tokens

end Lexeme

namespace Formula

def blankOut (cs : List Char) : List Char :=
  (Lexeme.blankOut (Lexeme.ofChars cs)).flatMap Lexeme.spelling

lemma ofChars_blankOut (cs : List Char) :
    Lexeme.ofChars (blankOut cs) = Lexeme.blankOut (Lexeme.ofChars cs) :=
  (Lexeme.apart_ofChars cs).blankOut.ofChars_flatMap Lexeme.isStray_of_mem_blankOut

lemma tokens_lenient (cs : List Char) : tokens .lenient cs = tokens .strict (blankOut cs) := by
  rw [tokens, tokens, ofChars_blankOut, Lexeme.tokens_blankOut]

lemma tokens_lenient_of_strict {cs : List Char} {ts : List Token}
    (h : tokens .strict cs = .ok ts) : tokens .lenient cs = .ok ts := by
  obtain ⟨hne, hl⟩ := tokens_eq_ok.mp h
  refine tokens_eq_ok.mpr ⟨hne, ?_⟩
  rw [← Lexeme.tokens_blankOut, Lexeme.blankOut_eq_self hl, hl]

lemma value_lenient {lookup : Lookup} {cs : List Char}
    (h : value .strict lookup cs ≠ .error .malformed) :
    value .lenient lookup cs = value .strict lookup cs := by
  rw [value] at h
  rw [value, value]
  cases ht : tokens .strict (Text.trim cs) with
  | error code =>
    obtain rfl : code = .malformed := tokens_failsOnly .strict _ code ht
    rw [ht] at h
    exact absurd rfl h
  | ok ts => rw [tokens_lenient_of_strict ht]

/-- Leniency reads a text as if blanks stood for all that it drops. Hence an evaluation that is not
malformed without leniency is the same with it. -/
theorem lenient_eq_strict :
    (∀ cs, tokens .lenient cs = tokens .strict (blankOut cs)) ∧
      ∀ lookup raw, Raw.evaluate .strict lookup raw ≠ .error .malformed →
        Raw.evaluate .lenient lookup raw = Raw.evaluate .strict lookup raw := by
  refine ⟨tokens_lenient, fun lookup raw h => ?_⟩
  rw [Raw.evaluate] at h
  rw [Raw.evaluate, Raw.evaluate]
  cases hf : Raw.formula? raw with
  | none => rfl
  | some formula => exact value_lenient (by simpa [hf] using h)

theorem lenient_eq_strict_of_sum :
    let lookup : Lookup := fun _ => .number 1
    Raw.evaluate .strict lookup "=A1+2" ≠ .error .malformed ∧
      Raw.evaluate .lenient lookup "=A1+2" = Raw.evaluate .strict lookup "=A1+2" := by
  intro lookup
  have hok : (Raw.evaluate .strict lookup "=A1+2").isOk = true := by decide +kernel
  have h : Raw.evaluate .strict lookup "=A1+2" ≠ .error .malformed := by
    intro h
    rw [h] at hok
    contradiction
  exact ⟨h, lenient_eq_strict.2 lookup _ h⟩

example : blankOut "1.@@FOO+A1:".toList = "1  +A1 ".toList := by decide +kernel

end Formula

end Spreadsheet
