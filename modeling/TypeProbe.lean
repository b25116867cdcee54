import TypeProbe.Command.LogFormat
import TypeProbe.Main
import TypeProbe.Proofs.Block.Text
import TypeProbe.Proofs.Inference.Ancestors
import TypeProbe.Proofs.Inference.Handles
import TypeProbe.Proofs.Inference.Numbers
import TypeProbe.Proofs.Inference.Overloads
import TypeProbe.Proofs.Inference.Selection
import TypeProbe.Proofs.Inference.StraightLine
import TypeProbe.Proofs.Inference.Typed
import TypeProbe.Proofs.Nested.Limit
import TypeProbe.Proofs.Project.Report
import TypeProbe.Proofs.Project.Session
import TypeProbe.Proofs.Project.TreeText
import TypeProbe.Proofs.Token.Escapes
import TypeProbe.Proofs.Token.LineEnds
import TypeProbe.Proofs.Token.OnLines
import TypeProbe.Proofs.Types.Showing
import TypeProbe.Proofs.Types.Substitution
import TypeProbe.Proofs.Types.Widening
import TypeProbe.Types.Description
