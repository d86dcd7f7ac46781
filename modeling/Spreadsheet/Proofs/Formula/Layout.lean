import Spreadsheet.Proofs.Formula.Lexing

/-! The texts that spell given tokens. Blanks may be left out unless a spelling would run on into
the next. -/

namespace Spreadsheet

inductive Token.SpelledAs : Token → List Char → Prop
  | cell {name id} (h : Cell.ofChars? name = some id) : SpelledAs (.cell id) name
  | range {first last a b} (ha : Cell.ofChars? first = some a) (hb : Cell.ofChars? last = some b) :
    SpelledAs (.range ⟨a, b⟩) (first ++ ':' :: last)
  | whole {digits} (hd : digits ≠ []) (h : ∀ d ∈ digits, d.isDigit = true) :
    SpelledAs (.number (Number.ofMagnitude false (Number.readDigits digits [] 0))) digits
  | decimal {digits places} (hd : digits ≠ []) (hp : places ≠ [])
    (h : ∀ d ∈ digits, d.isDigit = true) (h' : ∀ d ∈ places, d.isDigit = true) :
    SpelledAs (.number (Number.ofMagnitude false (Number.readDigits digits places 0)))
      (digits ++ '.' :: places)
  | mark {t c} (h : Token.ofMark? c = some t) : SpelledAs t [c]
  | call (f : Aggregate) : SpelledAs (.call f) f.name.toList

namespace Layout

def EndsInDigit (s : List Char) : Prop :=
  ∃ c ∈ s.getLast?, c.isDigit = true

/-- Right behind the spelling, such a character would be read as part of it. -/
def Continues (s : List Char) (d : Char) : Prop :=
  (EndsInDigit s ∧ d.isDigit = true) ∨ ((∃ f : Aggregate, s = f.name.toList) ∧ d.isAlphanum = true)

structure Written where
  token : Token
  spelling : List Char
  gap : List Char
  spelled : token.SpelledAs spelling
  blank : ∀ c ∈ gap, Text.isBlank c = true

def Written.chars (w : Written) : List Char :=
  w.spelling ++ w.gap

def Written.Before (v w : Written) : Prop :=
  (∃ d ∈ w.spelling.head?, Continues v.spelling d) → v.gap ≠ []

end Layout

open Layout

def IsLayout (ts : List Token) (cs : List Char) : Prop :=
  ∃ (front : List Char) (ws : List Written), cs = front ++ ws.flatMap Written.chars ∧
    ws.map Written.token = ts ∧ (∀ c ∈ front, Text.isBlank c = true) ∧ ws.IsChain Written.Before

namespace Layout

variable {l : Lexeme} {t : Token} {s cs name : List Char} {c d : Char} {ts : List Token}

lemma isName_of_ofChars? {id : Cell} (h : Cell.ofChars? name = some id) : Mention.IsName name := by
  simp only [Cell.ofChars?, Option.ite_none_right_eq_some] at h
  obtain ⟨⟨hd, hdigits⟩, h⟩ := h
  obtain ⟨col, hcol, -⟩ := Option.bind_eq_some_iff.mp h
  simp only [Column.ofLetters?, Option.ite_none_left_eq_some] at hcol
  exact ⟨_, _, (List.takeWhile_append_dropWhile (p := Char.isUpper)).symm, hcol.1, hd,
    fun c => List.mem_takeWhile_imp, List.all_eq_true.mp hdigits⟩

lemma ofChars?_of_cell {id : Cell} (h : Lexeme.cell name = .ok id) :
    Cell.ofChars? name = some id := by
  rw [Lexeme.cell] at h
  split at h
  · cases h
    assumption
  · contradiction

lemma exists_lexeme (h : t.SpelledAs s) :
    ∃ l : Lexeme, l.HasForm ∧ l.spelling = s ∧ l.token? .strict = .ok (some t) := by
  cases h with
  | @cell _ id h =>
    refine ⟨.mention (.single s), isName_of_ofChars? h, rfl, ?_⟩
    simp only [Lexeme.token?, Lexeme.cell, h]
    rfl
  | @range first last a b ha hb =>
    refine ⟨.mention (.pair first last), ⟨isName_of_ofChars? ha, isName_of_ofChars? hb⟩, rfl, ?_⟩
    simp only [Lexeme.token?, Lexeme.cell, ha, hb]
    rfl
  | whole hd h => exact ⟨.number s [], ⟨hd, h, by simp⟩, List.append_nil s, rfl⟩
  | @decimal digits places hd hp h h' =>
    obtain ⟨d, places, rfl⟩ := List.exists_cons_of_ne_nil hp
    exact ⟨.number digits (d :: places), ⟨hd, h, h'⟩, rfl, rfl⟩
  | @mark _ c h => exact ⟨.mark c t, h, rfl, rfl⟩
  | call f =>
    refine ⟨.word f.name.toList, ?_, rfl, ?_⟩
    · cases f <;> simp [Lexeme.HasForm, Aggregate.name]
    · cases f <;> rfl

lemma name_of_ofName? {f : Aggregate} {letters : List Char}
    (h : Aggregate.ofName? (String.ofList letters) = some f) : letters = f.name.toList := by
  have hf : f.name = String.ofList letters := by simpa using List.find?_some h
  rw [hf, String.toList_ofList]

lemma of_token? {found : Option Token} (hf : l.HasForm) (h : l.token? .strict = .ok found) :
    (∃ c, l = .blank c ∧ found = none) ∨ ∃ t, found = some t ∧ t.SpelledAs l.spelling := by
  cases l with
  | mention m =>
    cases m with
    | single name =>
      obtain ⟨id, hid, h⟩ := Outcome.bind_eq_ok.mp h
      cases h
      exact Or.inr ⟨_, rfl, .cell (ofChars?_of_cell hid)⟩
    | pair first last =>
      obtain ⟨a, ha, h⟩ := Outcome.bind_eq_ok.mp h
      obtain ⟨b, hb, h⟩ := Outcome.bind_eq_ok.mp h
      cases h
      exact Or.inr ⟨_, rfl, .range (ofChars?_of_cell ha) (ofChars?_of_cell hb)⟩
  | number digits places =>
    cases h
    obtain ⟨hd, hdigits, hplaces⟩ := hf
    refine Or.inr ⟨_, rfl, ?_⟩
    cases places with
    | nil =>
      rw [Lexeme.spelling, Lexeme.pointed, List.append_nil]
      exact .whole hd hdigits
    | cons d places => exact .decimal hd (List.cons_ne_nil d places) hdigits hplaces
  | mark c t =>
    cases h
    exact Or.inr ⟨t, rfl, .mark hf⟩
  | word letters =>
    rw [Lexeme.token?] at h
    split at h
    · rename_i f hf
      cases h
      rw [Lexeme.spelling, name_of_ofName? hf]
      exact Or.inr ⟨_, rfl, .call f⟩
    · contradiction
  | blank c =>
    cases h
    exact Or.inl ⟨c, rfl, rfl⟩
  | stray c => contradiction

section Continues

lemma endsInDigit_append {s' : List Char} (hs : s' ≠ []) (h : ∀ d ∈ s', d.isDigit = true) :
    EndsInDigit (s ++ s') := by
  refine ⟨s'.getLast hs, ?_, h _ (List.getLast_mem hs)⟩
  rw [List.getLast?_append_of_ne_nil s hs, List.getLast?_eq_some_getLast hs]
  rfl

lemma endsInDigit_name (h : Mention.IsName name) : EndsInDigit (s ++ name) := by
  obtain ⟨letters, digits, rfl, -, hd, -, hdigits⟩ := h
  rw [← List.append_assoc]
  exact endsInDigit_append hd hdigits

lemma not_endsInDigit_name (f : Aggregate) : ¬ EndsInDigit f.name.toList := by
  rintro ⟨c, hc, hd⟩
  cases f <;> cases hc <;> contradiction

lemma continues_of_endsInDigit (h : EndsInDigit s) : Continues s d ↔ d.isDigit = true := by
  refine ⟨?_, fun hd => Or.inl ⟨h, hd⟩⟩
  rintro (⟨-, hd⟩ | ⟨⟨f, rfl⟩, -⟩)
  · exact hd
  · exact absurd h (not_endsInDigit_name f)

lemma continues_name (f : Aggregate) : Continues f.name.toList d ↔ d.isAlphanum = true := by
  refine ⟨?_, fun hd => Or.inr ⟨⟨f, rfl⟩, hd⟩⟩
  rintro (⟨h, -⟩ | ⟨-, hd⟩)
  · exact absurd h (not_endsInDigit_name f)
  · exact hd

lemma not_continues_mark (h : Token.ofMark? c = some t) : ¬ Continues [c] d := by
  rintro (⟨⟨c', hc, hd⟩, -⟩ | ⟨⟨f, hf⟩, -⟩)
  · obtain rfl : c = c' := by simpa using hc
    simp [(Lexeme.classes_of_ofMark? h).2.2.1] at hd
  · cases f <;> simp [Aggregate.name] at hf

lemma stray_of_isLower (h : d.isLower = true) : (Lexeme.stray d).HasForm := by
  have hd := isLower_iff.mp h
  refine ⟨?_, ?_, ?_, ?_⟩
  · rw [Bool.eq_false_iff, Ne, isUpper_iff]
    omega
  · rw [Bool.eq_false_iff, Ne, Char.isDigit_iff_toNat]
    simp only [Char.reduceToNat]
    omega
  · rw [Option.eq_none_iff_forall_ne_some]
    intro t ht
    simp [(Lexeme.classes_of_ofMark? ht).2.1] at h
  · simp only [Text.isBlank]
    grind

lemma isAlphanum_eq (h : ¬ (Lexeme.stray d).HasForm) : d.isAlphanum = (d.isUpper || d.isDigit) := by
  have hl : d.isLower = false := Bool.eq_false_iff.mpr fun hl => h (stray_of_isLower hl)
  have ha : d.isAlphanum = (d.isUpper || d.isLower || d.isDigit) := rfl
  rw [ha, hl, Bool.or_false]

lemma continues_iff (hf : l.HasForm) (ht : l.token? .strict = .ok (some t))
    (hd : ¬ (Lexeme.stray d).HasForm) : Continues l.spelling d ↔ l.takesUp d = true := by
  cases l with
  | mention m =>
    refine continues_of_endsInDigit ?_
    cases m with
    | single name => exact endsInDigit_name (s := []) hf
    | pair first last =>
      have hl : EndsInDigit ((first ++ [':']) ++ last) := endsInDigit_name hf.2
      rwa [List.append_assoc] at hl
  | number digits places =>
    refine continues_of_endsInDigit ?_
    obtain ⟨hn, hdigits, hplaces⟩ := hf
    cases places with
    | nil =>
      rw [Lexeme.spelling, Lexeme.pointed, List.append_nil]
      exact endsInDigit_append (s := []) hn hdigits
    | cons p places =>
      have hp : EndsInDigit ((digits ++ ['.']) ++ (p :: places)) :=
        endsInDigit_append (List.cons_ne_nil p places) hplaces
      rwa [List.append_assoc] at hp
  | mark c token =>
    exact iff_of_false (not_continues_mark hf) (by simp [Lexeme.takesUp])
  | word letters =>
    rw [Lexeme.token?] at ht
    split at ht
    · rename_i f hf
      rw [Lexeme.spelling, name_of_ofName? hf, continues_name, isAlphanum_eq hd]
      rfl
    · contradiction
  | blank c => cases ht
  | stray c => contradiction

end Continues

section Read

lemma isLayout_nil : IsLayout [] [] :=
  ⟨[], [], rfl, rfl, by simp, .nil⟩

lemma isLayout_blank_cons (h : IsLayout ts cs) (hc : Text.isBlank c = true) :
    IsLayout ts (c :: cs) := by
  obtain ⟨front, ws, rfl, rfl, hf, hw⟩ := h
  exact ⟨c :: front, ws, rfl, rfl, by simpa [hc] using hf, hw⟩

lemma isLayout_cons (h : IsLayout ts cs) (hs : t.SpelledAs s)
    (hr : ∀ d ∈ cs.head?, ¬ Continues s d) : IsLayout (t :: ts) (s ++ cs) := by
  obtain ⟨front, ws, rfl, rfl, hf, hw⟩ := h
  refine ⟨[], ⟨t, s, front, hs, hf⟩ :: ws, by simp [Written.chars], rfl, by simp, ?_⟩
  cases ws with
  | nil => exact .singleton _
  | cons w ws =>
    refine hw.cons_cons ?_
    -- Without blanks in between, the next spelling is right behind this one.
    rintro ⟨d, hd, hc⟩ rfl
    exact hr d (by simp [Written.chars, Option.mem_def.mp hd]) hc

lemma isLayout_singleton (hs : t.SpelledAs s) : IsLayout [t] s := by
  have h : IsLayout [t] (s ++ []) := isLayout_cons isLayout_nil hs (by simp)
  rwa [List.append_nil] at h

lemma isLayout_mark_cons (h : IsLayout ts cs) (hm : Token.ofMark? c = some t) :
    IsLayout (t :: ts) (c :: cs) :=
  isLayout_cons h (.mark hm) fun _ _ => not_continues_mark hm

lemma not_stray_of_tokens (h : Lexeme.tokens .strict (Lexeme.ofChars (d :: cs)) = .ok ts) :
    ¬ (Lexeme.stray d).HasForm := by
  intro hd
  have hl : Lexeme.ofChars (d :: cs) = .stray d :: Lexeme.ofChars cs :=
    Lexeme.ofChars_spelling_append hd fun _ _ => ⟨rfl, rfl⟩
  rw [hl] at h
  cases h

lemma isLayout_of_tokens (h : Lexeme.tokens .strict (Lexeme.ofChars cs) = .ok ts) :
    IsLayout ts cs := by
  fun_induction Lexeme.ofChars cs generalizing ts with
  | case1 =>
    cases h
    exact isLayout_nil
  | case2 c cs ih =>
    obtain ⟨found, ht, h⟩ := Outcome.bind_eq_ok.mp h
    obtain ⟨us, hu, h⟩ := Outcome.bind_eq_ok.mp h
    cases h
    obtain ⟨hf, hstop⟩ := Lexeme.next_stops c cs
    have hc : (Lexeme.next c cs).1.spelling ++ (Lexeme.next c cs).2 = c :: cs :=
      Lexeme.next_append c cs
    generalize Lexeme.next c cs = next at *
    obtain ⟨l, rest⟩ := next
    rw [← hc]
    rcases of_token? hf ht with ⟨b, rfl, rfl⟩ | ⟨t, rfl, hs⟩
    · exact isLayout_blank_cons (ih hu) hf
    · refine isLayout_cons (ih hu) hs fun d hd => ?_
      obtain ⟨tail, rfl⟩ := List.head?_eq_some_iff.mp hd
      rw [continues_iff hf ht (not_stray_of_tokens hu), hstop d hd]
      exact Bool.false_ne_true

lemma Written.head (w : Written) : ∃ d cs, w.spelling = d :: cs ∧ ¬ (Lexeme.stray d).HasForm := by
  obtain ⟨l, hf, hs, ht⟩ := exists_lexeme w.spelled
  rw [← hs]
  obtain ⟨d, cs, hd⟩ := List.exists_cons_of_ne_nil (Lexeme.spelling_ne_nil hf)
  refine ⟨d, cs, hd, Lexeme.not_stray_head hf ?_ d (hd ▸ rfl)⟩
  rintro c rfl
  cases ht

lemma tokens_of_chain {ws : List Written} (h : ws.IsChain Written.Before) :
    Lexeme.tokens .strict (Lexeme.ofChars (ws.flatMap Written.chars)) =
      .ok (ws.map Written.token) := by
  induction ws with
  | nil =>
    rw [List.flatMap_nil, Lexeme.ofChars_nil]
    rfl
  | cons w ws ih =>
    obtain ⟨l, hf, hs, ht⟩ := exists_lexeme w.spelled
    have hr : l.EndsBefore (w.gap ++ ws.flatMap Written.chars) := by
      cases hg : w.gap with
      | cons b bs =>
        have hb : Text.isBlank b = true := w.blank b (hg ▸ List.mem_cons_self)
        rintro d ⟨⟩
        have hnot : ¬ (Lexeme.stray b).HasForm := by simp [Lexeme.HasForm, hb]
        exact ⟨Lexeme.takesUp_of_isBlank hb l, Lexeme.linksBy_eq_false hnot l⟩
      | nil =>
        cases ws with
        | nil => rintro d ⟨⟩
        | cons w' ws =>
          obtain ⟨d', cs, hc, hd'⟩ := w'.head
          rw [List.flatMap_cons, Written.chars, hc]
          rintro d ⟨⟩
          refine ⟨?_, Lexeme.linksBy_eq_false hd' l⟩
          rw [Bool.eq_false_iff, Ne, ← continues_iff hf ht hd', hs]
          exact fun hd => (List.isChain_cons_cons.mp h).1 ⟨d', hc ▸ rfl, hd⟩ hg
    rw [List.flatMap_cons, Written.chars, List.append_assoc, ← hs,
      Lexeme.ofChars_spelling_append hf hr, Lexeme.ofChars_blanks_append w.blank,
      Lexeme.tokens_cons ht, Lexeme.tokens_blanks_append, ih h.of_cons]
    rfl

lemma tokens_eq_ok_iff :
    Lexeme.tokens .strict (Lexeme.ofChars cs) = .ok ts ↔ IsLayout ts cs := by
  refine ⟨isLayout_of_tokens, ?_⟩
  rintro ⟨front, ws, rfl, rfl, hf, hw⟩
  rw [Lexeme.ofChars_blanks_append hf, Lexeme.tokens_blanks_append, tokens_of_chain hw]

end Read

end Layout

theorem Formula.tokens_strict_iff_layout (cs : List Char) :
    (∀ ts, Formula.tokens .strict cs = .ok ts ↔ ts ≠ [] ∧ IsLayout ts cs) ∧
      (Formula.tokens .strict cs = .error .malformed ↔ ¬ ∃ ts, ts ≠ [] ∧ IsLayout ts cs) := by
  have hok : ∀ ts, Formula.tokens .strict cs = .ok ts ↔ ts ≠ [] ∧ IsLayout ts cs := by
    intro ts
    rw [Formula.tokens_eq_ok, tokens_eq_ok_iff]
  refine ⟨hok, ?_⟩
  simp only [← hok]
  cases h : Formula.tokens .strict cs with
  | ok ts => simp
  | error code => simp [Formula.tokens_failsOnly .strict cs code h]

end Spreadsheet
