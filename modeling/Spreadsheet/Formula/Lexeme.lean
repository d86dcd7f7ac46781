import Spreadsheet.Formula.Mention
import Spreadsheet.Formula.Token

/-! The pieces that a formula text falls into, blanks and stray characters included. Joined again,
they give the text. -/

namespace Spreadsheet

inductive Policy
  | strict
  | lenient
deriving DecidableEq, Repr

inductive Lexeme
  | mention (m : Mention)
  | number (whole places : List Char)
  | mark (c : Char) (token : Token)
  | word (letters : List Char)
  | blank (c : Char)
  | stray (c : Char)
deriving DecidableEq

namespace Lexeme

def pointed : List Char → List Char
  | [] => []
  | places => '.' :: places

def spelling : Lexeme → List Char
  | mention m => m.spelling
  | number whole places => whole ++ pointed places
  | mark c _ | blank c | stray c => [c]
  | word letters => letters

def splitPlaces (cs : List Char) : List Char × List Char :=
  match cs with
  | '.' :: after =>
    let places := after.takeWhile Char.isDigit
    if places = [] then ([], cs) else (places, after.dropWhile Char.isDigit)
  | _ => ([], cs)

def next (c : Char) (cs : List Char) : Lexeme × List Char :=
  match Mention.split? (c :: cs) with
  | some (m, rest) => (mention m, rest)
  | none =>
    if c.isDigit then
      let (places, rest) := splitPlaces (cs.dropWhile Char.isDigit)
      (number (c :: cs.takeWhile Char.isDigit) places, rest)
    else if c.isUpper then
      (word (c :: cs.takeWhile Char.isUpper), cs.dropWhile Char.isUpper)
    else
      match Token.ofMark? c with
      | some token => (mark c token, cs)
      | none => if Text.isBlank c then (blank c, cs) else (stray c, cs)

theorem splitPlaces_append (cs : List Char) :
    pointed (splitPlaces cs).1 ++ (splitPlaces cs).2 = cs := by
  unfold splitPlaces
  split
  · rename_i after
    have h := List.takeWhile_append_dropWhile (p := Char.isDigit) (l := after)
    cases hp : after.takeWhile Char.isDigit with
    | nil => simp [pointed]
    | cons d ds =>
      rw [hp] at h
      simp only [reduceCtorEq, if_false, pointed, List.cons_append]
      exact congrArg _ h
  · rfl

theorem next_append (c : Char) (cs : List Char) :
    (next c cs).1.spelling ++ (next c cs).2 = c :: cs := by
  unfold next
  split
  · rename_i m rest h
    exact (Mention.split?_append h).1
  · split
    · simp only [spelling, List.append_assoc, splitPlaces_append, List.cons_append,
        List.takeWhile_append_dropWhile]
    · split
      · simp [spelling]
      · split
        · rfl
        · split <;> rfl

theorem spelling_next_ne_nil (c : Char) (cs : List Char) : (next c cs).1.spelling ≠ [] := by
  unfold next
  split
  · rename_i m rest h
    exact (Mention.split?_append h).2
  · split
    · simp [spelling]
    · split
      · simp [spelling]
      · split
        · simp [spelling]
        · split <;> simp [spelling]

theorem length_next (c : Char) (cs : List Char) : (next c cs).2.length < (c :: cs).length := by
  have := List.length_pos_iff.mpr (spelling_next_ne_nil c cs)
  rw [← next_append c cs, List.length_append]
  omega

def ofChars : List Char → List Lexeme
  | [] => []
  | c :: cs => (next c cs).1 :: ofChars (next c cs).2
termination_by cs => cs.length
decreasing_by exact length_next c cs

def cell (name : List Char) : Outcome Cell :=
  match Cell.ofChars? name with
  | some id => .ok id
  | none => .error .malformed

def unmatched : Policy → Outcome (Option Token)
  | .strict => .error .malformed
  | .lenient => .ok none

def token? (policy : Policy) : Lexeme → Outcome (Option Token)
  | mention (.single name) => do return some (.cell (← cell name))
  | mention (.pair first last) => do return some (.range ⟨← cell first, ← cell last⟩)
  | number whole places =>
    .ok (some (.number (Number.ofMagnitude false (Number.readDigits whole places 0))))
  | mark _ token => .ok (some token)
  | word letters =>
    match Aggregate.ofName? (String.ofList letters) with
    | some f => .ok (some (.call f))
    | none => unmatched policy
  | blank _ => .ok none
  | stray _ => unmatched policy

def tokens (policy : Policy) : List Lexeme → Outcome (List Token)
  | [] => .ok []
  | l :: ls => do
    let token ← l.token? policy
    let rest ← tokens policy ls
    return token.toList ++ rest

theorem ofChars_nil : ofChars [] = [] := by
  simp [ofChars]

theorem ofChars_cons (c : Char) (cs : List Char) :
    ofChars (c :: cs) = (next c cs).1 :: ofChars (next c cs).2 := by
  rw [ofChars]

theorem flatMap_spelling_ofChars (cs : List Char) : (ofChars cs).flatMap spelling = cs := by
  fun_induction ofChars cs with
  | case1 => rfl
  | case2 c cs ih => rw [List.flatMap_cons, ih, next_append]

end Lexeme

def Formula.tokens (policy : Policy) (cs : List Char) : Outcome (List Token) := do
  match ← Lexeme.tokens policy (Lexeme.ofChars cs) with
  | [] => .error .malformed
  | ts => return ts

end Spreadsheet
