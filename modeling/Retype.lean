import Retype.Named
import Retype.Text.Printable
import Retype.Text.Quoted
import Retype.Decimal.Basic
import Retype.Decimal.Literal
import Retype.Decimal.Plain
import Retype.Ty.Basic
import Retype.Ty.Structure
import Retype.Ty.Text
import Retype.Path
import Retype.Fault
import Retype.Value.Basic
import Retype.Value.Equality
import Retype.Value.Build
import Retype.Value.Primitive
import Retype.Safety
import Retype.Preference
import Retype.Blueprint
import Retype.Conversion.Basic
import Retype.Conversion.Between
import Retype.Ty.Refine
import Retype.Unify
import Retype.Conversion.Explain
import Retype.Conversion.Apply
import Retype.Convert
import Retype.Document
import Retype.Ty.Codec
import Retype.Settings
import Retype.Session
import Retype.Proofs.Results
import Retype.Proofs.Matching
import Retype.Proofs.Ty.Layout
import Retype.Proofs.Ty.Common
import Retype.Proofs.Named
import Retype.Proofs.Ty.Conforms
import Retype.Proofs.Ty.Refine
import Retype.Proofs.Conversion.Plan
import Retype.Proofs.Value.WellFormed
import Retype.Proofs.Value.Equality
import Retype.Proofs.Value.Dedup
import Retype.Proofs.Conversion.Yields
import Retype.Proofs.Soundness
import Retype.Proofs.Ty.Grounded
import Retype.Proofs.Homogeneity
import Retype.Proofs.Propagation
import Retype.Proofs.Ty.Aligned
import Retype.Proofs.Prediction
import Retype.Proofs.Conversion.Converts
import Retype.Proofs.Unification
import Retype.Proofs.Narrowest
import Retype.Proofs.Preference
import Retype.Proofs.Ty.Agrees
import Retype.Proofs.OrderIndependence
import Retype.Proofs.Incompatibility
import Retype.Proofs.Conversion.Faults
import Retype.Proofs.Decimal
import Retype.Proofs.Value.Embeds
import Retype.Proofs.Lossless
import Retype.Proofs.Conversion.Progress
import Retype.Proofs.RoundTrip
import Retype.Proofs.Widening
import Retype.Proofs.Settling
import Retype.Proofs.Risk
import Retype.Proofs.Conversion.Levels
import Retype.Proofs.Sets
import Retype.Proofs.Coherence
import Retype.Proofs.Session
import Retype.Proofs.Location
import Retype.Proofs.Conservativity
import Retype.Proofs.Deferral
import Retype.Proofs.Ty.Codec
import Retype.Proofs.Depth
import Retype.Proofs.Idempotence
import Retype.Proofs.Leaves
import Retype.Proofs.Explanation
import Retype.Proofs.Relaxation
import Retype.Proofs.Absorption
import Retype.Proofs.PlainText
import Retype.Proofs.Literals
import Retype.Proofs.Congruence
import Retype.Proofs.Cycles
import Retype.Proofs.Conversion.Questions
import Retype.Proofs.Termination
