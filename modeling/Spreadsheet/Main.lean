import Spreadsheet.CommandLine.Run

namespace Spreadsheet.Main

def readFile (path : String) : IO File := do
  try
    return .bytes (← IO.FS.readBinFile path)
  catch
    | .noFileOrDirectory .. => return .missing
    | _ => return .unreadable

def configDirectory : IO (Option String) := do
  match ← IO.getEnv "XDG_CONFIG_HOME", ← IO.getEnv "HOME" with
  | some dir, home =>
    if dir.startsWith "/" then return some dir else return home.map (· ++ "/.config")
  | none, home => return home.map (· ++ "/.config")

def standardFile : IO (Option String) := do
  return (← configDirectory).map (· ++ "/tallysheet/config.toml")

end Spreadsheet.Main

def main (args : List String) : IO UInt32 := do
  let ending ← Spreadsheet.CommandLine.run Spreadsheet.Main.readFile
    (← Spreadsheet.Main.standardFile) args
  IO.print ending.output
  IO.eprint ending.messages
  return UInt32.ofNat ending.exit
