import JoinOrder.Decimal.Positional
import JoinOrder.Statistics.Catalog
import JoinOrder.Reorder
import JoinOrder.Proofs.Connection
import JoinOrder.Proofs.JoinTree
import JoinOrder.Proofs.Joints
import JoinOrder.Proofs.Journal
import JoinOrder.Proofs.Run
import JoinOrder.Proofs.Forest
import JoinOrder.Proofs.Reliable
import JoinOrder.Proofs.Survival
import JoinOrder.Proofs.Rewriting
import JoinOrder.Proofs.Groups
import JoinOrder.Proofs.ConditionCount
import JoinOrder.Proofs.Semantics
import JoinOrder.Proofs.Meaning
import JoinOrder.Proofs.Costs
import JoinOrder.Proofs.Pricing
import JoinOrder.Proofs.Dealing
import JoinOrder.Proofs.Course
import JoinOrder.Proofs.Replay
import JoinOrder.Proofs.FixedPoint
import JoinOrder.Proofs.Heap
import JoinOrder.Proofs.Following
import JoinOrder.Proofs.StructuralRewriting
import JoinOrder.Proofs.Totality
import JoinOrder.Proofs.Thinning
import JoinOrder.Proofs.Crowding
import JoinOrder.Proofs.Placement
import JoinOrder.Proofs.Components
import JoinOrder.Proofs.Completeness
import JoinOrder.Proofs.Comparisons
import JoinOrder.Proofs.Relating
import JoinOrder.Proofs.Steps
import JoinOrder.Proofs.Refusal
import JoinOrder.Proofs.RelatedRewriting
import JoinOrder.Proofs.Columns
import JoinOrder.Proofs.Oracles
import JoinOrder.Proofs.Governed
import JoinOrder.Proofs.Turning
import JoinOrder.Proofs.StrictCosts
import JoinOrder.Proofs.Prospects
import JoinOrder.Proofs.Presentation
import JoinOrder.Proofs.Inquiries
import JoinOrder.Proofs.Recording
import JoinOrder.Proofs.Accounts
import JoinOrder.Proofs.Recovery
import JoinOrder.Proofs.BreadthFirst
import JoinOrder.Proofs.Numbering
import JoinOrder.Proofs.Choices
import JoinOrder.Proofs.Postorder
import JoinOrder.Proofs.Visits
import JoinOrder.Proofs.Lookups
import JoinOrder.Proofs.Flattening
import JoinOrder.Proofs.Walk
import JoinOrder.Proofs.Reuse
import JoinOrder.Proofs.Recounting
import JoinOrder.Proofs.Bounds
import JoinOrder.Proofs.Mirroring
import JoinOrder.Proofs.ByShape
import JoinOrder.Proofs.Idempotence
import JoinOrder.Proofs.Passes
import JoinOrder.Proofs.Layers
import JoinOrder.Proofs.Hiding
import JoinOrder.Proofs.Merging
import JoinOrder.Proofs.Bushy
import JoinOrder.Proofs.Spending
import JoinOrder.Proofs.Readability
import JoinOrder.Proofs.Records
import JoinOrder.Proofs.Obtaining
