import Lox.Main
import Lox.Settings.Override
import Lox.Tree.Render
import Lox.Proofs.Grammar.Programs
import Lox.Proofs.Concatenation
import Lox.Proofs.Unwinding
import Lox.Proofs.Completions
import Lox.Proofs.Tiling
import Lox.Proofs.Conversion
import Lox.Proofs.Activations
import Lox.Proofs.Origins
import Lox.Proofs.Accepting
import Lox.Proofs.Restarting
import Lox.Proofs.Resuming
import Lox.Proofs.Limiting
import Lox.Proofs.Desugaring
import Lox.Proofs.Layout
import Lox.Proofs.Shifting
import Lox.Proofs.Vectors
import Lox.Proofs.Cycles
import Lox.Proofs.Equality
import Lox.Proofs.Unambiguous
import Lox.Proofs.Layering
import Lox.Proofs.Endless
import Lox.Proofs.Grounding
import Lox.Proofs.Turns
