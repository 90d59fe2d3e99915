import ThreeAddress.Symbols.Constants
import ThreeAddress.Symbols.Table

/-! What a program has declared: its symbols and its constants. -/

namespace ThreeAddress

/-- The tables of a program. -/
structure Environment where
  symbols : SymbolTable := SymbolTable.empty
  constants : ConstantTable := ConstantTable.empty
deriving DecidableEq, Repr

/-- The tables of a program that has declared nothing. -/
def Environment.empty : Environment := {}

end ThreeAddress
