import Console.Main
import Console.Proofs.CommonPrefix
import Console.Proofs.Converter
import Console.Proofs.History.Stored
import Console.Proofs.HistoryWalk
import Console.Proofs.Reader
import Console.Proofs.Router.Configured
import Console.Proofs.Router.Mount
import Console.Proofs.Shell.Agreement
import Console.Proofs.Shell.AllOrNothing
import Console.Proofs.Shell.Calls
import Console.Proofs.Shell.ClosedOutput
import Console.Proofs.Shell.ExpandedForm
import Console.Proofs.Shell.FullSpelling
import Console.Proofs.Shell.LoadOrder
import Console.Proofs.Shell.Lookahead
import Console.Proofs.Shell.Lookup
import Console.Proofs.Shell.OneByOne
import Console.Proofs.Shell.Parameters
import Console.Proofs.Shell.Repeated
import Console.Proofs.Shell.StackMachine
import Console.Proofs.Shell.Tab
import Console.Proofs.Shell.Transaction
import Console.Proofs.Shell.TrimmedLine
import Console.Proofs.Shell.TypedArguments
import Console.Proofs.Spec.Elements
import Console.Proofs.Spec.OnePass
import Console.Proofs.Tree.Algebra
import Console.Proofs.Tree.Endpoints
import Console.Router
import Console.Shell.Assistant
