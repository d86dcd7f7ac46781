import Spreadsheet.Sheet.Passes

namespace Spreadsheet.Report

def line (id : Cell) (r : Record) : String :=
  id.name ++ "\t" ++ r.raw ++ "\t" ++ r.value ++ "\n"

def lines (s : Sheet) : String :=
  String.join (s.records.toList.map fun (id, r) => line id r)

def statsLine (stats : Stats) : String :=
  "iterations: " ++ toString stats.passes ++ ", stable: " ++ toString stats.stable ++
    ", valid: " ++ toString stats.valid ++ ", errors: " ++ toString stats.errors ++ "\n"

def escape (c : Char) : List Char :=
  match c with
  | '"' => ['\\', '"']
  | '\\' => ['\\', '\\']
  | '\x08' => ['\\', 'b']
  | '\x0c' => ['\\', 'f']
  | '\n' => ['\\', 'n']
  | '\r' => ['\\', 'r']
  | '\t' => ['\\', 't']
  | _ =>
    if c < ' ' then
      ['\\', 'u', '0', '0', Nat.digitChar (c.toNat / 16), Nat.digitChar (c.toNat % 16)]
    else [c]

def quote (s : String) : String :=
  String.ofList ('"' :: s.toList.flatMap escape ++ ['"'])

inductive Json
  | text (s : String)
  | number (n : Nat)
  | bool (b : Bool)

def Json.render : Json → String
  | text s => quote s
  | number n => toString n
  | bool b => toString b

def field (indent : String) (name value : String) : String :=
  indent ++ quote name ++ ": " ++ value

def block (opening closing indent : String) (items : List String) : String :=
  opening ++ "\n" ++ ",\n".intercalate items ++ "\n" ++ indent ++ closing

def object (indent : String) (fields : List (String × Json)) : String :=
  block "\x7b" "\x7d" indent
    (fields.map fun (name, value) => field (indent ++ "  ") name value.render)

def recordFields (id : Cell) (r : Record) : List (String × Json) :=
  [("id", .text id.name), ("raw", .text r.raw), ("value", .text r.value)] ++
    (r.error?.map fun code => ("error", Json.text code.text)).toList

def statsFields (stats : Stats) : List (String × Json) :=
  [("iterations", .number stats.passes), ("stable", .bool stats.stable),
    ("valid_count", .number stats.valid), ("error_count", .number stats.errors)]

def cells (s : Sheet) : String :=
  match s.records.toList with
  | [] => "[]"
  | records =>
    block "[" "]" "  " (records.map fun (id, r) => "    " ++ object "    " (recordFields id r))

def json (s : Sheet) (stats : Option Stats) : String :=
  let fields := field "  " "cells" (cells s) ::
    (stats.map fun stats => field "  " "stats" (object "  " (statsFields stats))).toList
  block "\x7b" "\x7d" "" fields ++ "\n"

end Spreadsheet.Report
