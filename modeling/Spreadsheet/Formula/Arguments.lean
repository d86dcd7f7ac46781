import Spreadsheet.Formula.Token

namespace Spreadsheet

structure Arguments where
  args : List (List Token)
  rest : List Token

namespace Arguments

/-- The tokens of the current argument are in `piece` and the arguments before it in `args`, both
latest first. -/
def cut (depth : Nat) (piece : List Token) (args : List (List Token)) :
    List Token → Outcome Arguments
  | [] => .error .badValue
  | .openParen :: ts => cut (depth + 1) (.openParen :: piece) args ts
  | .closeParen :: ts =>
    match depth, piece, args with
    | depth + 1, _, _ => cut depth (.closeParen :: piece) args ts
    | 0, [], [] => .ok ⟨[], ts⟩
    | 0, [], _ :: _ => .error .malformed
    | 0, _ :: _, _ => .ok ⟨(piece.reverse :: args).reverse, ts⟩
  | .comma :: ts =>
    match depth, piece with
    | _ + 1, _ => cut depth (.comma :: piece) args ts
    | 0, [] => .error .malformed
    | 0, _ :: _ => cut 0 [] (piece.reverse :: args) ts
  | t :: ts => cut depth (t :: piece) args ts

def split (ts : List Token) : Outcome Arguments :=
  cut 0 [] [] ts

def balanced (depth : Nat) : List Token → Bool
  | [] => depth = 0
  | .openParen :: ts => balanced (depth + 1) ts
  | .closeParen :: ts =>
    match depth with
    | 0 => false
    | depth + 1 => balanced depth ts
  | _ :: ts => balanced depth ts

def inner? : List Token → Option (List Token)
  | .openParen :: ts =>
    if ts.getLast? = some .closeParen ∧ balanced 0 ts.dropLast then some ts.dropLast else none
  | _ => none

theorem length_of_inner? {ts us : List Token} (h : inner? ts = some us) :
    us.length < ts.length := by
  unfold inner? at h
  split at h
  · simp only [Option.ite_none_right_eq_some, Option.some.injEq] at h
    obtain ⟨-, rfl⟩ := h
    simp only [List.length_dropLast, List.length_cons]
    omega
  · contradiction

def strip (ts : List Token) : List Token :=
  match _hi : inner? ts with
  | some us => strip us
  | none => ts
termination_by ts.length
decreasing_by exact length_of_inner? _hi

theorem length_strip_le (ts : List Token) : (strip ts).length ≤ ts.length := by
  fun_induction strip ts with
  | case1 ts us h ih => exact Nat.le_trans ih (Nat.le_of_lt (length_of_inner? h))
  | case2 => exact Nat.le_refl _

theorem length_of_cut {ts : List Token} {depth : Nat} {piece : List Token}
    {args : List (List Token)} {a : Arguments} (h : cut depth piece args ts = .ok a) :
    a.rest.length < ts.length ∧
      ∀ arg ∈ a.args, arg ∈ args ∨ arg.length < piece.length + ts.length := by
  fun_induction cut depth piece args ts with
  | case1 | case5 | case8 => contradiction
  | case4 => cases h; simp
  | case6 => cases h; grind
  | case2 _ _ _ _ ih | case3 _ _ _ _ ih | case7 _ _ _ _ ih | case9 _ _ _ _ ih => grind
  | case10 _ _ _ _ _ _ _ _ ih => grind

theorem length_rest {ts : List Token} {a : Arguments} (h : split ts = .ok a) :
    a.rest.length < ts.length :=
  (length_of_cut h).1

theorem length_of_mem {ts : List Token} {a : Arguments} (h : split ts = .ok a) {arg : List Token}
    (hm : arg ∈ a.args) : arg.length < ts.length := by
  simpa using (length_of_cut h).2 arg hm

end Arguments

end Spreadsheet
