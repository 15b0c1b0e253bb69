import Lox.Evaluation.Observation
import Lox.Heap.Workspace
import Lox.Main
import Lox.Proofs.Evaluation.Control
import Lox.Proofs.Evaluation.Numbers
import Lox.Proofs.Evaluation.Origins
import Lox.Proofs.Evaluation.Printing
import Lox.Proofs.Evaluation.Rejection
import Lox.Proofs.Evaluation.Restoring
import Lox.Proofs.Evaluation.Sequence
import Lox.Proofs.Heap.Distance
import Lox.Proofs.Heap.Writes
import Lox.Proofs.Loops.Increments
import Lox.Proofs.Objects.Construction
import Lox.Proofs.Renaming.Variables
import Lox.Proofs.Scope.Keywords
import Lox.Proofs.Scope.LocalReports
import Lox.Proofs.Scope.Moving
import Lox.Proofs.Syntax.Dangling
import Lox.Proofs.Syntax.Entry
import Lox.Proofs.Syntax.PostfixReading
import Lox.Proofs.Syntax.PrefixReading
import Lox.Proofs.Syntax.Recovery
import Lox.Proofs.Syntax.Totality
import Lox.Proofs.Token.Lines
import Lox.Proofs.Token.Scanning
import Lox.Syntax.Outline
