/-! The part of TOML that settings are written in. What no setting takes is refused. -/

namespace Spreadsheet.Toml

inductive Value
  | integer (n : Int)
  | text (cs : List Char)
  | hollow
  | single (key : List Char)
deriving DecidableEq

abbrev Path := List (List Char)

inductive Statement
  | assign (path : Path) (value : Value)
  | header (path : Path)
deriving DecidableEq

/-- A reader gives what it read and what follows, or nothing if the text is not as it should be. -/
abbrev Reader (α : Type) := List Char → Option (α × List Char)

def isSpace (c : Char) : Bool :=
  c = ' ' || c = '\t'

def skip (cs : List Char) : List Char :=
  cs.dropWhile isSpace

def isPrintable (c : Char) : Bool :=
  c = '\t' || (' ' ≤ c && c ≠ '\x7f')

def isKeyChar (c : Char) : Bool :=
  c.isAlphanum || c = '_' || c = '-'

def unifyLines (cs : List Char) : List Char :=
  (cs.zip (cs.drop 1 ++ [' '])).filterMap fun (c, next) =>
    if c = '\r' ∧ next = '\n' then none else some c

def endLine? (cs : List Char) : Option (List Char) :=
  let rest :=
    match skip cs with
    | '#' :: comment => comment.dropWhile isPrintable
    | other => other
  match rest with
  | [] => some []
  | '\n' :: next => some next
  | _ => none

def digitValue? (radix : Nat) (c : Char) : Option Nat :=
  let n :=
    if c.isDigit then c.toNat - 48
    else if 'a' ≤ c ∧ c ≤ 'f' then c.toNat - 87
    else if 'A' ≤ c ∧ c ≤ 'F' then c.toNat - 55
    else radix
  if n < radix then some n else none

def moreDigits (radix n : Nat) : Reader Nat
  | '_' :: c :: cs => do moreDigits radix (radix * n + (← digitValue? radix c)) cs
  | ['_'] => none
  | c :: cs =>
    match digitValue? radix c with
    | some d => moreDigits radix (radix * n + d) cs
    | none => some (n, c :: cs)
  | [] => some (n, [])

def digits (radix : Nat) : Reader Nat
  | [] => none
  | c :: cs => do moreDigits radix (← digitValue? radix c) cs

def decimal : Reader Nat
  | '0' :: cs => some (0, cs)
  | cs => digits 10 cs

def integer (cs : List Char) : Option (Value × List Char) := do
  let (n, rest) ←
    match cs with
    | '0' :: 'x' :: cs => (digits 16 cs).map (Prod.map Int.ofNat id)
    | '0' :: 'o' :: cs => (digits 8 cs).map (Prod.map Int.ofNat id)
    | '0' :: 'b' :: cs => (digits 2 cs).map (Prod.map Int.ofNat id)
    | '-' :: cs => (decimal cs).map (Prod.map (fun n => -Int.ofNat n) id)
    | '+' :: cs => (decimal cs).map (Prod.map Int.ofNat id)
    | cs => (decimal cs).map (Prod.map Int.ofNat id)
  if Int64.minValue.toInt ≤ n ∧ n ≤ Int64.maxValue.toInt then some (.integer n, rest) else none

def codePoint? (cs : List Char) : Option Char := do
  let n ← cs.foldlM (fun n c => (digitValue? 16 c).map (16 * n + ·)) 0
  if n.isValidChar ∧ cs ≠ [] then some (Char.ofNat n) else none

def plainEscape? : Char → Option Char
  | 'b' => some '\x08'
  | 't' => some '\t'
  | 'n' => some '\n'
  | 'f' => some '\x0c'
  | 'r' => some '\r'
  | '"' => some '"'
  | '\\' => some '\\'
  | _ => none

/-- What an escape stands for, behind its backslash: a character, or nothing where the backslash
ends its line. -/
def escape? : Reader (Option Char)
  | 'u' :: a :: b :: c :: d :: cs => (codePoint? [a, b, c, d]).map fun x => (some x, cs)
  | 'U' :: cs =>
    if 8 ≤ cs.length then (codePoint? (cs.take 8)).map fun x => (some x, cs.drop 8) else none
  | c :: cs =>
    match plainEscape? c, skip (c :: cs) with
    | some x, _ => some (some x, cs)
    | none, '\n' :: rest => some (none, rest.dropWhile fun c => isSpace c || c = '\n')
    | none, _ => none
  | [] => none

theorem length_skip_le (cs : List Char) : (skip cs).length ≤ cs.length :=
  (List.dropWhile_suffix _).length_le

theorem length_escape? {cs rest : List Char} {x : Option Char} (h : escape? cs = some (x, rest)) :
    rest.length < cs.length := by
  unfold escape? at h
  split at h
  · simp only [Option.map_eq_some_iff, Prod.mk.injEq] at h
    obtain ⟨_, -, -, rfl⟩ := h
    simp only [List.length_cons]
    omega
  · simp only [Option.ite_none_right_eq_some, Option.map_eq_some_iff, Prod.mk.injEq] at h
    obtain ⟨_, _, -, -, rfl⟩ := h
    simp only [List.length_drop, List.length_cons]
    omega
  · rename_i c cs _ _
    split at h
    · cases h
      simp
    · rename_i following _ hs
      cases h
      have h₁ := length_skip_le (c :: cs)
      have h₂ := (List.dropWhile_suffix (fun c => isSpace c || c = '\n') (l := following)).length_le
      rw [hs, List.length_cons] at h₁
      omega
    · contradiction
  · contradiction

def basic (multi : Bool) (done : List Char) : Reader (List Char)
  | [] => none
  | '\\' :: cs =>
    match _h : escape? cs with
    | some (some x, rest) => basic multi (x :: done) rest
    | some (none, rest) => if multi then basic multi done rest else none
    | none => none
  | '"' :: cs =>
    if !multi then some (done.reverse, cs)
    else if cs.take 2 = ['"', '"'] then some (done.reverse, cs.drop 2)
    else basic multi ('"' :: done) cs
  | c :: cs => if isPrintable c || (multi && c = '\n') then basic multi (c :: done) cs else none
termination_by cs => cs.length
decreasing_by
  · exact Nat.lt_succ_of_lt (length_escape? _h)
  · exact Nat.lt_succ_of_lt (length_escape? _h)
  · simp
  · simp

def literal (multi : Bool) (done : List Char) : Reader (List Char)
  | [] => none
  | '\'' :: cs =>
    if !multi then some (done.reverse, cs)
    else if cs.take 2 = ['\'', '\''] then some (done.reverse, cs.drop 2)
    else literal multi ('\'' :: done) cs
  | c :: cs => if isPrintable c || (multi && c = '\n') then literal multi (c :: done) cs else none

def dropFirstLine : List Char → List Char
  | '\n' :: cs => cs
  | cs => cs

def key (cs : List Char) : Option (List Char × List Char) :=
  match skip cs with
  | '"' :: cs => basic false [] cs
  | '\'' :: cs => literal false [] cs
  | cs =>
    match cs.takeWhile isKeyChar with
    | [] => none
    | name => some (name, cs.dropWhile isKeyChar)

def path (cs : List Char) : Option (Path × List Char) := do
  let (first, rest) ← key cs
  match skip rest with
  | '.' :: rest => do
    let (second, rest) ← key rest
    some ([first, second], skip rest)
  | rest => some ([first], rest)

def closeArray (inComment : Bool) : List Char → Option (List Char)
  | [] => none
  | '\n' :: cs => closeArray false cs
  | c :: cs =>
    if inComment then if isPrintable c then closeArray true cs else none
    else if isSpace c then closeArray false cs
    else if c = '#' then closeArray true cs
    else if c = ']' then some cs
    else none

def hollow? (cs : List Char) : Option (List Char) :=
  match cs with
  | '[' :: cs => closeArray false cs
  | '{' :: cs =>
    match skip cs with
    | '}' :: rest => some rest
    | _ => none
  | _ => none

def single (cs : List Char) : Option (Value × List Char) := do
  let (name, rest) ← key cs
  match skip rest with
  | '=' :: rest =>
    match skip (← hollow? (skip rest)) with
    | '}' :: rest => some (.single name, rest)
    | _ => none
  | _ => none

def value (cs : List Char) : Option (Value × List Char) :=
  match cs with
  | '"' :: '"' :: '"' :: cs => (basic true [] (dropFirstLine cs)).map (Prod.map .text id)
  | '"' :: cs => (basic false [] cs).map (Prod.map .text id)
  | '\'' :: '\'' :: '\'' :: cs => (literal true [] (dropFirstLine cs)).map (Prod.map .text id)
  | '\'' :: cs => (literal false [] cs).map (Prod.map .text id)
  | '[' :: _ => (hollow? cs).map fun rest => (.hollow, rest)
  | '{' :: inner =>
    match hollow? cs with
    | some rest => some (.hollow, rest)
    | none => single inner
  | _ => integer cs

def statement (cs : List Char) : Option (Statement × List Char) :=
  match skip cs with
  | '[' :: cs => do
    match ← path cs with
    | (p, ']' :: rest) => some (.header p, rest)
    | _ => none
  | cs => do
    match ← path cs with
    | (p, '=' :: rest) =>
      let (v, rest) ← value (skip rest)
      some (.assign p v, rest)
    | _ => none

/-- Every step reads at least one character, so the length of the text bounds the steps. -/
def statements (done : List Statement) : (steps : Nat) → List Char → Option (List Statement)
  | _, [] => some done.reverse
  | 0, _ => none
  | steps + 1, cs =>
    match endLine? cs with
    | some rest => statements done steps rest
    | none => do
      let (s, rest) ← statement cs
      statements (s :: done) steps (← endLine? rest)

def dropMark : List Char → List Char
  | '\ufeff' :: cs => cs
  | cs => cs

def statements? (cs : List Char) : Option (List Statement) :=
  let lines := unifyLines (dropMark cs)
  statements [] lines.length lines

end Spreadsheet.Toml
