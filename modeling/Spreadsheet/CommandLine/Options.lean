namespace Spreadsheet

structure Options where
  assignments : List String
  settingsFile : Option String
  maxPasses : Option Nat
  lenient : Bool
  bulk : Bool
  settle : Bool
  json : Bool
  deletedRows : List Nat
  deletedColumns : List String
deriving DecidableEq, Repr

namespace Options

def empty : Options := ⟨[], none, none, false, false, false, false, [], []⟩

inductive Request
  | run (options : Options)
  | help
  | version

def number? (cs : List Char) : Option Nat :=
  let digits :=
    match cs with
    | '+' :: rest => rest
    | other => other
  if digits ≠ [] ∧ digits.all Char.isDigit then some (Nat.ofDigitChars 10 digits 0) else none

def switch? (o : Options) (name : String) : Option Options :=
  match name with
  | "lenient" => if o.lenient then none else some { o with lenient := true }
  | "bulk" => if o.bulk then none else some { o with bulk := true }
  | "recompute" => if o.settle then none else some { o with settle := true }
  | "json" => if o.json then none else some { o with json := true }
  | _ => none

def takesValue (name : String) : Bool :=
  ["config", "max-iterations", "delete-row", "delete-column"].contains name

def set? (o : Options) (name value : String) : Option Options :=
  match name with
  | "config" =>
    if o.settingsFile.isSome ∨ value = "" then none else some { o with settingsFile := value }
  | "max-iterations" => do
    let n ← number? value.toList
    if o.maxPasses.isSome ∨ UInt64.size ≤ n then none else some { o with maxPasses := n }
  | "delete-row" => do
    let n ← number? value.toList
    if 0 < n ∧ n < UInt32.size then some { o with deletedRows := o.deletedRows ++ [n] } else none
  | "delete-column" => some { o with deletedColumns := o.deletedColumns ++ [value] }
  | _ => none

inductive Argument
  | dashes
  | long (name : String) (value : Option String)
  | short (letter : Char) (rest : List Char)
  | plain

def Argument.of (arg : String) : Argument :=
  match arg.toList with
  | ['-', '-'] => dashes
  | '-' :: '-' :: cs =>
    let name := String.ofList (cs.takeWhile (· ≠ '='))
    match cs.dropWhile (· ≠ '=') with
    | [] => long name none
    | _ :: value => long name (some (String.ofList value))
  | '-' :: c :: cs => short c cs
  | _ => plain

def Argument.isPlain : Argument → Bool
  | plain => true
  | _ => false

def attachedValue : List Char → String
  | '=' :: cs => String.ofList cs
  | cs => String.ofList cs

def read? (o : Options) : List String → Option Request
  | [] => some (.run o)
  | arg :: rest =>
    match Argument.of arg with
    | .dashes => some (.run { o with assignments := o.assignments ++ rest })
    | .plain => read? { o with assignments := o.assignments ++ [arg] } rest
    | .long "help" none => some .help
    | .long "version" none => some .version
    | .long name (some value) => do read? (← o.set? name value) rest
    | .long name none =>
      if takesValue name then
        match rest with
        | [] => none
        | value :: rest =>
          if (Argument.of value).isPlain then do read? (← o.set? name value) rest else none
      else do read? (← o.switch? name) rest
    | .short 'h' _ => some .help
    | .short 'V' _ => some .version
    | .short 'c' [] =>
      match rest with
      | [] => none
      | value :: rest =>
        if (Argument.of value).isPlain then do read? (← o.set? "config" value) rest else none
    | .short 'c' value => do read? (← o.set? "config" (attachedValue value)) rest
    | .short _ _ => none

end Options

end Spreadsheet
