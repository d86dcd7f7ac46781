import Spreadsheet.Settings.Basic
import Spreadsheet.Settings.Toml

namespace Spreadsheet

inductive File
  | missing
  | unreadable
  | bytes (content : ByteArray)

inductive SettingsError
  | unreadable
  | invalid
deriving DecidableEq, Repr

namespace Settings

inductive Definition
  | value (path : Toml.Path) (v : Toml.Value)
  | table (path : Toml.Path)
deriving DecidableEq

def definitions (table : Toml.Path) : List Toml.Statement → List Definition
  | [] => []
  | .assign path v :: rest => .value (table ++ path) v :: definitions table rest
  | .header path :: rest => .table path :: definitions path rest

def passesKey : List Char := "max_iterations".toList

def policyKey : List Char := "tokenizer".toList

def setsPasses : Definition → Bool
  | .value path _ => path = [passesKey]
  | .table _ => false

def maxPasses? : List Definition → Option Nat
  | [] => some standard.maxPasses
  | [.value _ (.integer n)] => if 0 ≤ n then some n.toNat else none
  | _ => none

def policyOfName? (name : List Char) : Option Policy :=
  if name = "strict".toList then some .strict
  else if name = "lenient".toList then some .lenient
  else none

def policy? : List Definition → Option Policy
  | [] => some standard.policy
  | [.value [key] (.text name)]
  | [.value [key] (.single name)]
  | [.value [key, name] .hollow]
  | [.table [key, name]] => if key = policyKey then policyOfName? name else none
  | [.table [outer], .value [key, name] .hollow]
  | [.table [outer], .table [key, name]]
  | [.table [key, name], .table [outer]] =>
    if outer = policyKey ∧ key = policyKey then policyOfName? name else none
  | _ => none

def ofStatements? (statements : List Toml.Statement) : Option Settings := do
  let (passes, others) := (definitions [] statements).partition setsPasses
  return ⟨← maxPasses? passes, ← policy? others⟩

def ofText (text : String) : Except SettingsError Settings :=
  match (Toml.statements? text.toList).bind ofStatements? with
  | some settings => .ok settings
  | none => .error .invalid

def maxFileSize : Nat := 1048576

def ofBytes (bytes : ByteArray) : Except SettingsError Settings :=
  if maxFileSize < bytes.size then .error .unreadable
  else
    match String.fromUTF8? bytes with
    | some text => ofText text
    | none => .error .unreadable

def ofFile : File → Except SettingsError Settings
  | .bytes content => ofBytes content
  | .missing | .unreadable => .error .unreadable

def ofOptionalFile : File → Except SettingsError Settings
  | .missing => .ok standard
  | file => ofFile file

end Settings

end Spreadsheet
