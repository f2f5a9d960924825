import Reckon.Proofs.Arithmetic.Meaning
import Reckon.Proofs.Evaluation.Frames
import Reckon.Proofs.Evaluation.Kinds
import Reckon.Proofs.Evaluation.Limits
import Reckon.Proofs.Evaluation.Recursion
import Reckon.Proofs.Grammar.Extents
import Reckon.Proofs.Grammar.Layout
import Reckon.Proofs.Grammar.Prefixes
import Reckon.Proofs.Session.Effects
import Reckon.Proofs.Session.Faults
import Reckon.Proofs.Session.Lines
import Reckon.Proofs.Session.Namespace
import Reckon.Proofs.Session.Restarts
import Reckon.Proofs.Token.Blame
import Reckon.Proofs.Token.Respacing
import Reckon.Tree.Text
import Reckon.Proofs.Arithmetic.Exact
import Reckon.Proofs.Evaluation.Reach
import Reckon.Proofs.Session.Targets
import Reckon.Proofs.Evaluation.ArgumentOrder
import Reckon.Proofs.Evaluation.CallNotes
import Reckon.Proofs.Number.Characters
import Reckon.Proofs.Session.Echoes
import Reckon.Proofs.Source.Lines
import Reckon.Proofs.Evaluation.Located
import Reckon.Proofs.Session.Located
import Reckon.Proofs.Session.Admitted
import Reckon.Proofs.Tree.Text
import Reckon.Proofs.Source.Lookups
import Reckon.Proofs.Report.Underline
import Reckon.Proofs.Session.Literals
import Reckon.Proofs.Session.Conversions
import Reckon.Proofs.Grammar.Printed
import Reckon.Proofs.Grammar.Repetitions
import Reckon.Proofs.Grammar.Progress
import Reckon.Proofs.Grammar.Agreement
import Reckon.Proofs.Grammar.Programs
import Reckon.Proofs.Grammar.Listings
import Reckon.Proofs.Session.Groups
import Reckon.Proofs.Grammar.Depth
