import TypedScript.Main
import TypedScript.Roster
import TypedScript.Proofs.Compatibility
import TypedScript.Proofs.EndingComparisons
import TypedScript.Proofs.Keeping
import TypedScript.Proofs.Conformance
import TypedScript.Proofs.FirstOrderCheck
import TypedScript.Proofs.Frames
import TypedScript.Proofs.Landing
import TypedScript.Proofs.Operators
import TypedScript.Proofs.Expressions
import TypedScript.Proofs.Soundness
import TypedScript.Proofs.Sites
import TypedScript.Proofs.Notes
import TypedScript.Proofs.Sights
import TypedScript.Proofs.Finding
import TypedScript.Proofs.Plans
import TypedScript.Proofs.Steady
import TypedScript.Proofs.Reaching
import TypedScript.Proofs.Resolution
import TypedScript.Proofs.CallDepth
import TypedScript.Proofs.LoopForms
import TypedScript.Proofs.InSight
import TypedScript.Proofs.ReturnTypes
import TypedScript.Proofs.Erasure
import TypedScript.Proofs.Restoring
import TypedScript.Proofs.Recognizing
import TypedScript.Proofs.Deepest
import TypedScript.Proofs.Precedence
import TypedScript.Proofs.Annotations
import TypedScript.Proofs.Spacing
import TypedScript.Proofs.Transitivity
import TypedScript.Proofs.PropertyReads
import TypedScript.Proofs.AcceptedCalls
import TypedScript.Proofs.Rearranging
import TypedScript.Proofs.Reporting
import TypedScript.Proofs.Ending
import TypedScript.Proofs.MemberOrder
import TypedScript.Proofs.Bookkeeping
import TypedScript.Proofs.NormalChecks
import TypedScript.Proofs.Scoping
import TypedScript.Proofs.Releasing
import TypedScript.Proofs.Unfolding
import TypedScript.Proofs.LongestMatch
import TypedScript.Proofs.Quoting
import TypedScript.Proofs.EndMarker
import TypedScript.Proofs.OpenLevels
import TypedScript.Proofs.Fallbacks
import TypedScript.Proofs.ArgumentCounts
import TypedScript.Proofs.Grouping
import TypedScript.Proofs.Legibility
import TypedScript.Proofs.NumberTexts
import TypedScript.Proofs.PropertyOrder
