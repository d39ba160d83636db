import Plugboard.Main
import Plugboard.Proofs.FreshNames
import Plugboard.Proofs.MostGeneral
import Plugboard.Markup.Element
import Plugboard.Markup.Escape
import Plugboard.Markup.Parse
import Plugboard.Markup.Render
import Plugboard.Ty.Markup
import Plugboard.Proofs.InferenceRun
import Plugboard.Proofs.InferenceScope
import Plugboard.Proofs.Typing
import Plugboard.Proofs.Soundness
import Plugboard.Proofs.Principality
import Plugboard.Proofs.Renaming
import Plugboard.Proofs.Outcome
import Plugboard.Proofs.Exploration
import Plugboard.Proofs.Wiring
import Plugboard.Proofs.Reshaping
import Plugboard.Proofs.Rewiring
import Plugboard.Proofs.Rebuilding
import Plugboard.Proofs.Slots
import Plugboard.Proofs.Regularity
import Plugboard.Proofs.Pruning
import Plugboard.Proofs.ShapeKept
import Plugboard.Proofs.Settling
import Plugboard.Proofs.Connecting
import Plugboard.Proofs.EditsSettle
import Plugboard.Proofs.ArgumentRemoval
import Plugboard.Proofs.Coherence
import Plugboard.Proofs.Unifiers
import Plugboard.Proofs.ConnectionOrder
import Plugboard.Proofs.Allocation
import Plugboard.Proofs.LayoutVariables
import Plugboard.Proofs.LoweredTerms
import Plugboard.Proofs.NotedTypes
import Plugboard.Proofs.KeptTypes
import Plugboard.Proofs.Accounting
import Plugboard.Proofs.LiveVariables
import Plugboard.Proofs.Idempotence
import Plugboard.Proofs.NodeTypes
import Plugboard.Proofs.BlockTypes
import Plugboard.Proofs.NotedTags
import Plugboard.Proofs.Keeping
import Plugboard.Proofs.InferenceCompletes
import Plugboard.Proofs.Renewal
import Plugboard.Proofs.Parting
import Plugboard.Proofs.Isolation
import Plugboard.Proofs.CallGroups
import Plugboard.Proofs.TreeTypes
import Plugboard.Proofs.PortTypes
import Plugboard.Proofs.FoundTypes
import Plugboard.Proofs.CheckedTypes
import Plugboard.Proofs.ChosenNames
import Plugboard.Proofs.Consistency
import Plugboard.Proofs.Transparency
import Plugboard.Proofs.IndependentRoots
import Plugboard.Proofs.CalleesFirst
import Plugboard.Proofs.MentionedNames
import Plugboard.Proofs.CalleesBound
import Plugboard.Proofs.GroupTypes
import Plugboard.Proofs.AcceptedFunctions
import Plugboard.Proofs.ParameterRenaming
import Plugboard.Proofs.ExactConnection
import Plugboard.Proofs.MarkupRoundTrip
import Plugboard.Proofs.SignatureRoundTrip
import Plugboard.Proofs.BareOperations
import Plugboard.Proofs.StrongComponents
import Plugboard.Proofs.NameIndependence
import Plugboard.Proofs.ResolvedTypes
import Plugboard.Proofs.FailedMembers
import Plugboard.Proofs.VariableScopes
import Plugboard.Proofs.LoweringVisits
import Plugboard.Proofs.CreatedBlocks
import Plugboard.Proofs.ArgumentShift
import Plugboard.Proofs.SurvivingPorts
import Plugboard.Proofs.RebuiltSockets
import Plugboard.Proofs.OnlyAllocating
import Plugboard.Proofs.AdoptedNames
import Plugboard.Proofs.DecoratedElements
import Plugboard.Proofs.SignatureTrees
import Plugboard.Proofs.CycleSearch
import Plugboard.Proofs.BlockFaces
import Plugboard.Proofs.RenderRequests
import Plugboard.Proofs.PoolLifecycle
import Plugboard.Proofs.UnifySymmetry
import Plugboard.Proofs.SubstActions
import Plugboard.Proofs.UnifyCalls
