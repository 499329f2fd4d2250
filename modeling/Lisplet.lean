import Lisplet.Binary64.Text
import Lisplet.Console.CommandLine
import Lisplet.Console.Erasure
import Lisplet.Console.Loop
import Lisplet.Error
import Lisplet.Evaluator
import Lisplet.Files
import Lisplet.Form.Reader
import Lisplet.Host
import Lisplet.Main
import Lisplet.Number
import Lisplet.Program
import Lisplet.Session
import Lisplet.Store.Elements
import Lisplet.Store.Environment
import Lisplet.Store.Equality
import Lisplet.Store.Printer
import Lisplet.Token.Scan
import Lisplet.Proofs.Binary64.Rounding
import Lisplet.Proofs.Token.Words
import Lisplet.Proofs.Binary64.ReadBack
import Lisplet.Proofs.Bisimulation
import Lisplet.Proofs.Evaluator.Yields
import Lisplet.Proofs.Evaluator.Frames
import Lisplet.Proofs.Evaluator.Invariant
import Lisplet.Proofs.Token.Scanning
import Lisplet.Proofs.Form.Reading
import Lisplet.Proofs.RoundTrip
import Lisplet.Proofs.Builtin.Simulates
import Lisplet.Proofs.Evaluator.Simulates
import Lisplet.Proofs.Evaluator.Withholding
import Lisplet.Proofs.Provenance
import Lisplet.Proofs.ListEnds
import Lisplet.Proofs.Form.Grammar
import Lisplet.Proofs.Lines
import Lisplet.Proofs.Evaluator.Discipline
import Lisplet.Proofs.Store.Code
import Lisplet.Proofs.OwnCode
import Lisplet.Proofs.Token.Produced
import Lisplet.Proofs.Canonical
import Lisplet.Proofs.Builtin.Atomic
import Lisplet.Proofs.Evaluator.Causes
import Lisplet.Proofs.NoCycles
import Lisplet.Proofs.Store.Acyclic
import Lisplet.Proofs.Store.Rooted
import Lisplet.Proofs.KeepGoing
import Lisplet.Proofs.Store.Policy
import Lisplet.Proofs.Evaluator.Twins
import Lisplet.Proofs.WarnPolicy
import Lisplet.Proofs.Form.Positions
import Lisplet.Proofs.Evaluator.Stamping
import Lisplet.Proofs.Token.Lexemes
import Lisplet.Proofs.Token.Places
import Lisplet.Proofs.InnermostForm
import Lisplet.Proofs.Evaluator.Standard
import Lisplet.Proofs.Evaluator.Upheld
import Lisplet.Proofs.Locations
import Lisplet.Proofs.Form.Descent
import Lisplet.Proofs.Evaluator.Guarded
import Lisplet.Proofs.Defenses
import Lisplet.Proofs.Evaluator.Unread
import Lisplet.Proofs.Evaluator.Confined
import Lisplet.Proofs.Store.Adopting
import Lisplet.Proofs.Pieces
import Lisplet.Proofs.Builtin.Effects
import Lisplet.Proofs.CycleMarks
import Lisplet.Proofs.Evaluator.Steady
import Lisplet.Proofs.HashTables
import Lisplet.Proofs.Sharing
import Lisplet.Proofs.ListWalks
import Lisplet.Proofs.Incomplete
import Lisplet.Proofs.Token.Division
import Lisplet.Proofs.Placement
import Lisplet.Proofs.Token.Classes
import Lisplet.Proofs.Evaluator.Calls
import Lisplet.Proofs.Sums
import Lisplet.Proofs.LexicalScope
import Lisplet.Proofs.Store.Relocation
import Lisplet.Proofs.Evaluator.Relocated
import Lisplet.Proofs.Loading
import Lisplet.Proofs.Binary64.Value
import Lisplet.Proofs.Binary64.Fewest
import Lisplet.Proofs.FloatPrinting
import Lisplet.Proofs.Evaluator.Bindings
import Lisplet.Proofs.BoundNames
import Lisplet.Proofs.Store.Skeletons
import Lisplet.Proofs.Evaluator.Branches
import Lisplet.Proofs.NestedIf
