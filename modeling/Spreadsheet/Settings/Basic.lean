import Spreadsheet.Formula.Lexeme

namespace Spreadsheet

structure Settings where
  maxPasses : Nat
  policy : Policy
deriving DecidableEq, Repr

def Settings.standard : Settings := ⟨1000, .strict⟩

instance : Inhabited Settings := ⟨.standard⟩

end Spreadsheet
