import HindleyMilner.Name
import HindleyMilner.Total
import HindleyMilner.Supply
import HindleyMilner.Text.Filter
import HindleyMilner.Text.Escape
import HindleyMilner.Text.Indent
import HindleyMilner.Text.Style
import HindleyMilner.Text.Pretty
import HindleyMilner.Diagnostic
import HindleyMilner.TypeError
import HindleyMilner.Decimal.Shortest
import HindleyMilner.Binary64
import HindleyMilner.Term
import HindleyMilner.Substitution
import HindleyMilner.Scheme
import HindleyMilner.Simple.Type
import HindleyMilner.Classes.Kind
import HindleyMilner.Classes.Type
import HindleyMilner.Classes.Subst
import HindleyMilner.Classes.Unification
import HindleyMilner.Units.Exponents
import HindleyMilner.Units.Type
import HindleyMilner.Units.Measure
import HindleyMilner.Sequence.Type
import HindleyMilner.Sequence.Matching
import HindleyMilner.Language
import HindleyMilner.Context.Entry
import HindleyMilner.Context
import HindleyMilner.Solver.State
import HindleyMilner.Solver.Rules
import HindleyMilner.Solver.Run
import HindleyMilner.Simple.Language
import HindleyMilner.Classes.Language
import HindleyMilner.Classes.Resolution
import HindleyMilner.Classes.Rules
import HindleyMilner.Units.Language
import HindleyMilner.Units.Rules
import HindleyMilner.Inference.Event
import HindleyMilner.Inference.Logged
import HindleyMilner.Inference.Generalization
import HindleyMilner.Inference
import HindleyMilner.Solver.Measure
import HindleyMilner.Solver.Descent
import HindleyMilner.Simple.Termination
import HindleyMilner.Classes.Termination
import HindleyMilner.Units.Power
import HindleyMilner.Units.Magnitude
import HindleyMilner.Units.Termination
import HindleyMilner.Proofs.Typing
import HindleyMilner.Proofs.Freshness
import HindleyMilner.Proofs.Distinctness
import HindleyMilner.Proofs.Declarations
import HindleyMilner.Proofs.Moves
import HindleyMilner.Proofs.WellFormed
import HindleyMilner.Proofs.Model
import HindleyMilner.Proofs.Refinement
import HindleyMilner.Proofs.Soundness
import HindleyMilner.Proofs.Simple.Inference
import HindleyMilner.Proofs.Determination
import HindleyMilner.Proofs.Completeness
import HindleyMilner.Proofs.Units.Algebra
import HindleyMilner.Proofs.Units.Reading
import HindleyMilner.Proofs.Units.Kinding
import HindleyMilner.Proofs.Units.Unification
import HindleyMilner.Proofs.Evaluation
import HindleyMilner.Proofs.Units.Inference
import HindleyMilner.Proofs.Scoping
import HindleyMilner.Proofs.Failure
import HindleyMilner.Proofs.InternalErrors
import HindleyMilner.Proofs.Classes.Scoping
import HindleyMilner.Proofs.Units.Scoping
import HindleyMilner.Proofs.Runs
import HindleyMilner.Proofs.Languages
import HindleyMilner.Proofs.Units.Failure
import HindleyMilner.Proofs.Units.InternalErrors
import HindleyMilner.Proofs.Classes.Escape
import HindleyMilner.Proofs.Units.Equations
import HindleyMilner.Proofs.Units.KindSafety
import HindleyMilner.Proofs.Classes.Clash
import HindleyMilner.Proofs.Classes.KindSafety
import HindleyMilner.Proofs.BindingNames
import HindleyMilner.Proofs.AlphaEquivalence
import HindleyMilner.Proofs.Classes.Matching
import HindleyMilner.Proofs.Classes.Overlap
import HindleyMilner.Proofs.Classes.Consequence
import HindleyMilner.Proofs.Classes.Entailment
import HindleyMilner.Proofs.Classes.Simplification
import HindleyMilner.Proofs.Units.Determination
import HindleyMilner.Proofs.Units.Solutions
import HindleyMilner.Proofs.Units.Overflow
import HindleyMilner.Proofs.Units.Principality
import HindleyMilner.Proofs.Classes.Unification
import HindleyMilner.Proofs.Classes.DeclarationOrder
import HindleyMilner.Proofs.Classes.UnifierAgreement
import HindleyMilner.Proofs.UnboundVariables
import HindleyMilner.Proofs.Expansion
import HindleyMilner.Proofs.Units.Arithmetic
import HindleyMilner.Proofs.Units.Elimination
import HindleyMilner.Proofs.Units.Canonical
import HindleyMilner.Proofs.Units.Hull
import HindleyMilner.Proofs.Sequence.Flattening
import HindleyMilner.Proofs.Sequence.Expansion
import HindleyMilner.Proofs.Sequence.Matching
import HindleyMilner.Proofs.Text.Segments
import HindleyMilner.Proofs.Text.Stripping
import HindleyMilner.Proofs.Text.Lexemes
import HindleyMilner.Proofs.Text.ReadingTerms
import HindleyMilner.Proofs.Text.Readability
