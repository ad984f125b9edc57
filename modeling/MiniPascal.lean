import MiniPascal.Main
import MiniPascal.Proofs.Command.Warnings
import MiniPascal.Proofs.Diagnostic.Excerpt
import MiniPascal.Proofs.Dialect.CaseFold
import MiniPascal.Proofs.Dialect.Extension
import MiniPascal.Proofs.Llvm.Acceptance
import MiniPascal.Proofs.Lower.Appending
import MiniPascal.Proofs.Lower.Copies
import MiniPascal.Proofs.Lower.Modular
import MiniPascal.Proofs.Lower.Scoping
import MiniPascal.Proofs.Lower.Typed
import MiniPascal.Proofs.Meaning.Addressing
import MiniPascal.Proofs.Meaning.Rounds
import MiniPascal.Proofs.Pull.Viable
import MiniPascal.Proofs.Qbe.Lossless
import MiniPascal.Proofs.Settings.Layers
import MiniPascal.Proofs.Settings.Turns
import MiniPascal.Proofs.Suite.Marks
import MiniPascal.Proofs.Text.Wrap
import MiniPascal.Proofs.Token.Numeral
import MiniPascal.Proofs.Tree.Format
import MiniPascal.Proofs.Tree.Numbers
import MiniPascal.Proofs.Tree.Stratified
import MiniPascal.Proofs.Tree.Unwrapped
