import Spreadsheet.Proofs.Formula.Mentions
import Spreadsheet.Proofs.Outcome

namespace Spreadsheet

section Span

variable {p : Char → Bool} {cs rest : List Char}

lemma takeWhile_append_of_stop (h : ∀ c ∈ cs, p c = true) (hr : ∀ d ∈ rest.head?, p d = false) :
    (cs ++ rest).takeWhile p = cs := by
  rw [List.takeWhile_append_of_pos h]
  cases rest with
  | nil => simp
  | cons d rest => simp [hr d rfl]

lemma dropWhile_append_of_stop (h : ∀ c ∈ cs, p c = true) (hr : ∀ d ∈ rest.head?, p d = false) :
    (cs ++ rest).dropWhile p = rest := by
  rw [List.dropWhile_append_of_pos h]
  cases rest with
  | nil => rfl
  | cons d rest => simp [hr d rfl]

lemma head?_dropWhile_stop (cs : List Char) : ∀ d ∈ (cs.dropWhile p).head?, p d = false := by
  intro d hd
  have h := List.head?_dropWhile_not p cs
  rw [Option.mem_def.mp hd] at h
  exact h

end Span

namespace Mention

variable {cs name rest first last : List Char}

def IsName (name : List Char) : Prop :=
  ∃ letters digits, name = letters ++ digits ∧ letters ≠ [] ∧ digits ≠ [] ∧
    (∀ c ∈ letters, c.isUpper = true) ∧ ∀ c ∈ digits, c.isDigit = true

lemma splitName?_eq_some : splitName? cs = some (name, rest) ↔
    cs = name ++ rest ∧ IsName name ∧ ∀ d ∈ rest.head?, d.isDigit = false := by
  constructor
  · intro h
    have ha : name ++ rest = cs := (splitName?_append h).1
    simp only [splitName?, Option.ite_none_right_eq_some, Option.some.injEq, Prod.mk.injEq] at h
    obtain ⟨⟨hl, hd⟩, rfl, rfl⟩ := h
    exact ⟨ha.symm, ⟨_, _, rfl, hl, hd, fun c => List.mem_takeWhile_imp,
      fun c => List.mem_takeWhile_imp⟩, head?_dropWhile_stop _⟩
  · rintro ⟨rfl, ⟨letters, digits, rfl, hl, hd, hletters, hdigits⟩, hr⟩
    have hstop : ∀ d ∈ (digits ++ rest).head?, d.isUpper = false := by
      intro d hm
      refine not_isUpper_of_isDigit (hdigits d (List.mem_of_mem_head? ?_))
      rwa [List.head?_append_of_ne_nil _ hd] at hm
    rw [splitName?, List.append_assoc, takeWhile_append_of_stop hletters hstop,
      dropWhile_append_of_stop hletters hstop, takeWhile_append_of_stop hdigits hr,
      dropWhile_append_of_stop hdigits hr, if_pos ⟨hl, hd⟩]

lemma splitLast?_eq_some : splitLast? cs = some (name, rest) ↔
    ∃ tail, cs = ':' :: tail ∧ splitName? tail = some (name, rest) := by
  rw [splitLast?.eq_def]
  split <;> simp_all

lemma splitLast?_eq_none (h : ∀ d ∈ cs.head?, d ≠ ':') : splitLast? cs = none := by
  rw [Option.eq_none_iff_forall_ne_some]
  rintro ⟨last, rest⟩ hs
  obtain ⟨tail, rfl, -⟩ := splitLast?_eq_some.mp hs
  exact h ':' rfl rfl

def HasForm : Mention → Prop
  | single name => IsName name
  | pair first last => IsName first ∧ IsName last

variable {m : Mention}

lemma split?_stops (h : split? cs = some (m, rest)) :
    m.HasForm ∧ ∀ d ∈ rest.head?, d.isDigit = false := by
  simp only [split?, Option.bind_eq_bind, Option.bind_eq_some_iff] at h
  obtain ⟨⟨first, after⟩, hf, h⟩ := h
  obtain ⟨-, hfirst, hstop⟩ := splitName?_eq_some.mp hf
  split at h
  · rename_i last rest' hl
    cases h
    obtain ⟨tail, -, hl⟩ := splitLast?_eq_some.mp hl
    obtain ⟨-, hlast, hstop⟩ := splitName?_eq_some.mp hl
    exact ⟨⟨hfirst, hlast⟩, hstop⟩
  · cases h
    exact ⟨hfirst, hstop⟩

lemma split?_spelling (hm : m.HasForm) (hr : ∀ d ∈ rest.head?, d.isDigit = false ∧ d ≠ ':') :
    split? (m.spelling ++ rest) = some (m, rest) := by
  have hdigit : ∀ d ∈ rest.head?, d.isDigit = false := fun d hd => (hr d hd).1
  cases m with
  | single name =>
    have hs : splitName? (name ++ rest) = some (name, rest) :=
      splitName?_eq_some.mpr ⟨rfl, hm, hdigit⟩
    have hl : splitLast? rest = none := splitLast?_eq_none fun d hd => (hr d hd).2
    simp [split?, spelling, hs, hl]
  | pair first last =>
    have hcolon : ∀ d ∈ (':' :: (last ++ rest)).head?, d.isDigit = false := by
      rintro d ⟨⟩
      decide
    have hf : splitName? (first ++ ':' :: (last ++ rest)) = some (first, ':' :: (last ++ rest)) :=
      splitName?_eq_some.mpr ⟨rfl, hm.1, hcolon⟩
    have hl : splitLast? (':' :: (last ++ rest)) = some (last, rest) :=
      splitName?_eq_some.mpr ⟨rfl, hm.2, hdigit⟩
    simp [split?, spelling, hf, hl]

lemma IsName.exists_isUpper (h : IsName name) : ∃ c cs, name = c :: cs ∧ c.isUpper = true := by
  obtain ⟨letters, digits, rfl, hl, -, hletters, -⟩ := h
  obtain ⟨c, cs, rfl⟩ := List.exists_cons_of_ne_nil hl
  exact ⟨c, cs ++ digits, rfl, hletters c List.mem_cons_self⟩

lemma HasForm.exists_isUpper (h : m.HasForm) : ∃ c cs, m.spelling = c :: cs ∧ c.isUpper = true := by
  cases m with
  | single name => exact IsName.exists_isUpper h
  | pair first last =>
    obtain ⟨c, cs, hc, hu⟩ := h.1.exists_isUpper
    exact ⟨c, cs ++ ':' :: last, by rw [spelling, hc]; rfl, hu⟩

end Mention

namespace Lexeme

variable {c d : Char} {cs rest places : List Char} {l : Lexeme}

lemma splitPlaces_stops (h : ∀ d ∈ cs.head?, d.isDigit = false) :
    (∀ d ∈ (splitPlaces cs).1, d.isDigit = true) ∧
      ∀ d ∈ (splitPlaces cs).2.head?, d.isDigit = false := by
  rw [splitPlaces.eq_def]
  split
  · rename_i after
    dsimp only
    split
    · exact ⟨by simp, h⟩
    · exact ⟨fun d => List.mem_takeWhile_imp, head?_dropWhile_stop after⟩
  · exact ⟨by simp, h⟩

lemma splitPlaces_pointed (hp : ∀ d ∈ places, d.isDigit = true)
    (hr : ∀ d ∈ rest.head?, d.isDigit = false ∧ d ≠ '.') :
    splitPlaces (pointed places ++ rest) = (places, rest) := by
  cases places with
  | nil =>
    rw [pointed, List.nil_append, splitPlaces]
    rintro after rfl
    exact (hr '.' rfl).2 rfl
  | cons d places =>
    have hdigit : ∀ d ∈ rest.head?, d.isDigit = false := fun d hd => (hr d hd).1
    simp only [pointed, List.cons_append, splitPlaces]
    rw [← List.cons_append, takeWhile_append_of_stop hp hdigit, dropWhile_append_of_stop hp hdigit,
      if_neg (List.cons_ne_nil d places)]

def HasForm : Lexeme → Prop
  | mention m => m.HasForm
  | number whole places => whole ≠ [] ∧ (∀ d ∈ whole, d.isDigit = true) ∧
    ∀ d ∈ places, d.isDigit = true
  | mark c t => Token.ofMark? c = some t
  | word letters => letters ≠ [] ∧ ∀ d ∈ letters, d.isUpper = true
  | blank c => Text.isBlank c = true
  | stray c => c.isUpper = false ∧ c.isDigit = false ∧ Token.ofMark? c = none ∧
    Text.isBlank c = false

def takesUp : Lexeme → Char → Bool
  | mention _, d | number _ _, d => d.isDigit
  | word _, d => d.isUpper || d.isDigit
  | mark _ _, _ | blank _, _ | stray _, _ => false

def linksBy : Lexeme → Char → Bool
  | mention _, d => d = ':'
  | number _ _, d => d = '.'
  | word _, _ | mark _ _, _ | blank _, _ | stray _, _ => false

def EndsBefore (l : Lexeme) (rest : List Char) : Prop :=
  ∀ d ∈ rest.head?, l.takesUp d = false ∧ l.linksBy d = false

lemma classes_of_ofMark? {t : Token} (h : Token.ofMark? c = some t) :
    c.isUpper = false ∧ c.isLower = false ∧ c.isDigit = false ∧ Text.isBlank c = false := by
  simp only [Token.ofMark?] at h
  split at h <;> first | contradiction | simp [Text.isBlank]

lemma ofMark?_of_isBlank (h : Text.isBlank c = true) : Token.ofMark? c = none := by
  rw [Option.eq_none_iff_forall_ne_some]
  intro t ht
  simp [(classes_of_ofMark? ht).2.2.2] at h

lemma next_stops (c : Char) (cs : List Char) :
    (next c cs).1.HasForm ∧ ∀ d ∈ (next c cs).2.head?, (next c cs).1.takesUp d = false := by
  rw [next]
  split
  · rename_i m rest hm
    exact Mention.split?_stops hm
  · rename_i hm
    split
    · rename_i hd
      obtain ⟨hp, hr⟩ := splitPlaces_stops (head?_dropWhile_stop (p := Char.isDigit) cs)
      exact ⟨⟨by simp, by simpa [hd] using fun d => List.mem_takeWhile_imp, hp⟩, hr⟩
    · split
      · rename_i hu
        -- With digits behind its letters the word would be a mention.
        have hn : (cs.dropWhile Char.isUpper).takeWhile Char.isDigit = [] := by
          rcases Mention.split?_eq_none.mp hm with hl | hd
          · simp [hu] at hl
          · rwa [List.dropWhile_cons_of_pos hu] at hd
        refine ⟨⟨by simp, by simpa [hu] using fun d => List.mem_takeWhile_imp⟩, fun d hd => ?_⟩
        have hdigit : d.isDigit = false := by
          cases hw : cs.dropWhile Char.isUpper <;> simp_all
        simp [takesUp, hdigit, head?_dropWhile_stop cs d hd]
      · split
        · rename_i ht
          exact ⟨ht, by simp [takesUp]⟩
        · split
          · rename_i hb
            exact ⟨hb, by simp [takesUp]⟩
          · refine ⟨?_, by simp [takesUp]⟩
            simp_all [HasForm]

lemma spelling_ne_nil (h : l.HasForm) : l.spelling ≠ [] := by
  cases l with
  | mention m =>
    obtain ⟨c, cs, hc, -⟩ := Mention.HasForm.exists_isUpper h
    simp [spelling, hc]
  | number whole places => simp [spelling, h.1]
  | mark | blank | stray => simp [spelling]
  | word letters => exact h.1

lemma not_stray_head (hf : l.HasForm) (hs : ∀ c, l ≠ stray c) :
    ∀ d ∈ l.spelling.head?, ¬ (stray d).HasForm := by
  intro d hd
  rintro ⟨hu, hdigit, ht, hb⟩
  cases l with
  | mention m =>
    obtain ⟨c, cs, hc, hu'⟩ := Mention.HasForm.exists_isUpper hf
    rw [spelling, hc] at hd
    cases hd
    simp [hu] at hu'
  | number whole places =>
    obtain ⟨hw, hwhole, -⟩ := hf
    rw [spelling, List.head?_append_of_ne_nil _ hw] at hd
    simp [hwhole d (List.mem_of_mem_head? hd)] at hdigit
  | mark c t =>
    cases hd
    cases ht.symm.trans hf
  | word letters => simp [hf.2 d (List.mem_of_mem_head? hd)] at hu
  | blank c =>
    cases hd
    cases hb.symm.trans hf
  | stray c => exact hs c rfl

lemma linksBy_eq_false (h : ¬ (stray d).HasForm) (l : Lexeme) : l.linksBy d = false := by
  cases l with
  | mention | number =>
    refine decide_eq_false ?_
    rintro rfl
    exact h ⟨rfl, rfl, rfl, rfl⟩
  | _ => rfl

lemma takesUp_of_isBlank (h : Text.isBlank d = true) (l : Lexeme) : l.takesUp d = false := by
  have hu : d.isUpper = false := Text.not_isUpper_of_isBlank h
  have hd : d.isDigit = false := Text.not_isDigit_of_isBlank h
  cases l <;> simp [takesUp, hu, hd]

lemma next_eq (hf : l.HasForm) (hr : l.EndsBefore rest)
    (h : l.spelling ++ rest = c :: cs) : next c cs = (l, rest) := by
  cases l with
  | mention m =>
    have hs : Mention.split? (c :: cs) = some (m, rest) := by
      rw [← h]
      exact Mention.split?_spelling hf fun d hd =>
        ⟨(hr d hd).1, of_decide_eq_false (hr d hd).2⟩
    simp [next, hs]
  | number whole places =>
    obtain ⟨hw, hwhole, hplaces⟩ := hf
    obtain ⟨c, ds, rfl⟩ := List.exists_cons_of_ne_nil hw
    rw [spelling, List.append_assoc] at h
    cases h
    have hd : c.isDigit = true := hwhole c List.mem_cons_self
    have hstop : ∀ d ∈ (pointed places ++ rest).head?, d.isDigit = false := by
      cases places with
      | nil => exact fun d hd => (hr d hd).1
      | cons =>
        rintro d ⟨⟩
        decide
    have hds : ∀ d ∈ ds, d.isDigit = true := fun d hm => hwhole d (List.mem_cons_of_mem c hm)
    have hp : splitPlaces (pointed places ++ rest) = (places, rest) :=
      splitPlaces_pointed hplaces fun d hd =>
        ⟨(hr d hd).1, of_decide_eq_false (hr d hd).2⟩
    rw [next, Mention.split?_of_not_isUpper (not_isUpper_of_isDigit hd)]
    simp [hd, takeWhile_append_of_stop hds hstop, dropWhile_append_of_stop hds hstop, hp]
  | mark c t =>
    cases h
    obtain ⟨hu, -, hd, -⟩ := classes_of_ofMark? hf
    rw [HasForm] at hf
    simp [next, Mention.split?_of_not_isUpper hu, hu, hd, hf]
  | word letters =>
    obtain ⟨hl, hletters⟩ := hf
    obtain ⟨d, ds, rfl⟩ := List.exists_cons_of_ne_nil hl
    simp only [spelling, List.cons_append, List.cons.injEq] at h
    obtain ⟨rfl, rfl⟩ := h
    have hu : d.isUpper = true := hletters d List.mem_cons_self
    have hd : ¬ d.isDigit = true := fun hd => by simp [not_isUpper_of_isDigit hd] at hu
    have hds : ∀ d ∈ ds, d.isUpper = true := fun d hm => hletters _ (List.mem_cons_of_mem _ hm)
    have hstop : ∀ d ∈ rest.head?, d.isUpper = false ∧ d.isDigit = false :=
      fun d hm => by simpa [takesUp] using (hr d hm).1
    have hupper : ∀ d ∈ rest.head?, d.isUpper = false := fun d hm => (hstop d hm).1
    -- No digit follows the letters, so no mention starts here.
    have hs : Mention.split? (d :: (ds ++ rest)) = none := by
      refine Mention.split?_eq_none.mpr (Or.inr ?_)
      rw [List.dropWhile_cons_of_pos hu, dropWhile_append_of_stop hds hupper]
      cases rest with
      | nil => rfl
      | cons d rest => simp [(hstop d rfl).2]
    rw [next, hs]
    simp [hu, hd, takeWhile_append_of_stop hds hupper, dropWhile_append_of_stop hds hupper]
  | blank c =>
    cases h
    simp [next, Mention.split?_of_not_isUpper (Text.not_isUpper_of_isBlank hf),
      Text.not_isUpper_of_isBlank hf, Text.not_isDigit_of_isBlank hf, ofMark?_of_isBlank hf,
      show Text.isBlank c = true from hf]
  | stray c =>
    cases h
    obtain ⟨hu, hd, ht, hb⟩ := hf
    simp [next, Mention.split?_of_not_isUpper hu, hu, hd, ht, hb]

lemma ofChars_spelling_append (hf : l.HasForm) (hr : l.EndsBefore rest) :
    ofChars (l.spelling ++ rest) = l :: ofChars rest := by
  obtain ⟨c, cs, h⟩ := List.exists_cons_of_ne_nil
    (List.append_ne_nil_of_left_ne_nil (spelling_ne_nil hf) rest)
  rw [h, ofChars_cons, next_eq hf hr h]

lemma ofChars_blanks_append {bs : List Char} (h : ∀ b ∈ bs, Text.isBlank b = true) :
    ofChars (bs ++ cs) = bs.map blank ++ ofChars cs := by
  induction bs with
  | nil => rfl
  | cons b bs ih =>
    have hb : ofChars ([b] ++ (bs ++ cs)) = blank b :: ofChars (bs ++ cs) :=
      ofChars_spelling_append (l := blank b) (h b List.mem_cons_self) fun _ _ => ⟨rfl, rfl⟩
    rw [List.cons_append, List.map_cons, List.cons_append, ← ih fun c hc => h c (.tail b hc), ← hb]
    rfl

section Tokens

variable (policy : Policy)

lemma cell_failsOnly (name : List Char) : Outcome.FailsOnly (· = .malformed) (cell name) := by
  rw [cell]
  split
  · exact .ok _
  · exact .error rfl

lemma unmatched_failsOnly : Outcome.FailsOnly (· = .malformed) (unmatched policy) := by
  cases policy
  · exact .error rfl
  · exact .ok _

lemma token?_failsOnly (l : Lexeme) : Outcome.FailsOnly (· = .malformed) (l.token? policy) := by
  cases l with
  | mention m =>
    cases m with
    | single name => exact (cell_failsOnly name).bind fun _ _ => .ok _
    | pair first last =>
      exact (cell_failsOnly first).bind fun _ _ => (cell_failsOnly last).bind fun _ _ => .ok _
  | number whole places => exact .ok _
  | mark c token => exact .ok _
  | word letters =>
    rw [token?]
    split
    · exact .ok _
    · exact unmatched_failsOnly policy
  | blank c => exact .ok _
  | stray c => exact unmatched_failsOnly policy

lemma tokens_failsOnly (ls : List Lexeme) :
    Outcome.FailsOnly (· = .malformed) (tokens policy ls) := by
  induction ls with
  | nil => exact .ok _
  | cons l ls ih => exact (token?_failsOnly policy l).bind fun _ _ => ih.bind fun _ _ => .ok _

variable {policy} {ls : List Lexeme} {ts : List Token}

lemma tokens_cons {found : Option Token} (h : l.token? policy = .ok found) :
    tokens policy (l :: ls) = (do return found.toList ++ (← tokens policy ls)) := by
  rw [tokens, h]
  rfl

lemma tokens_of_none (h : l.token? policy = .ok none) :
    tokens policy (l :: ls) = tokens policy ls := by
  rw [tokens_cons h]
  cases tokens policy ls <;> rfl

lemma tokens_blanks_append (bs : List Char) :
    tokens policy (bs.map blank ++ ls) = tokens policy ls := by
  induction bs with
  | nil => rfl
  | cons b bs ih =>
    rw [List.map_cons, List.cons_append, tokens_of_none rfl]
    exact ih

end Tokens

end Lexeme

lemma Formula.tokens_failsOnly (policy : Policy) (cs : List Char) :
    Outcome.FailsOnly (· = .malformed) (Formula.tokens policy cs) := by
  refine (Lexeme.tokens_failsOnly policy _).bind fun ts _ => ?_
  split
  · exact .error rfl
  · exact .ok _

end Spreadsheet
