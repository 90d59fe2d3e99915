import ThreeAddress.Command.Directory
import ThreeAddress.Main
import ThreeAddress.Proofs.Ebnf.Lowering
import ThreeAddress.Proofs.Compiler.Names
import ThreeAddress.Proofs.Compiler.Precedence
import ThreeAddress.Proofs.Symbols.Refinement
import ThreeAddress.Proofs.Compiler.Labels
import ThreeAddress.Proofs.Compiler.Shift
import ThreeAddress.Proofs.Matrix.Refinement
import ThreeAddress.Proofs.Arena.Cycles
import ThreeAddress.Proofs.Arena.Outline
import ThreeAddress.Proofs.Syntax.Viability
import ThreeAddress.Proofs.Syntax.Brackets
import ThreeAddress.Proofs.Syntax.Extents
import ThreeAddress.Proofs.Compiler.Temporaries
import ThreeAddress.Proofs.Language.Tiling
