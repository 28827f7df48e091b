import Teal.Main
import Teal.Proofs.Assembly.Operands
import Teal.Proofs.Semantics.Control
import Teal.Proofs.Semantics.Initialised
import Teal.Proofs.Program.Lexical
import Teal.Proofs.Program.Hiding
import Teal.Proofs.Compile.Layout
import Teal.Proofs.Tree.Parser.Nesting
import Teal.Proofs.Command.Build
import Teal.Proofs.Assembly.Loops
import Teal.Proofs.Scope.Declaration
import Teal.Proofs.Builtin.Slice
import Teal.Proofs.Codec.Address
import Teal.Proofs.Literal
import Teal.Proofs.Excerpt
import Teal.Proofs.Loader.Numbers
import Teal.Proofs.Assembly.Inlining
import Teal.Proofs.Project
import Teal.Proofs.Program.ReadBack
import Teal.Proofs.Tree.Parser.Progress
import Teal.Proofs.Tree.Parser.Placed
