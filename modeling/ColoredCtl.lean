import ColoredCtl.Number.Binary64
import ColoredCtl.Number.Decimal
import ColoredCtl.Json.Basic
import ColoredCtl.Json.Writer
import ColoredCtl.Json.Reader
import ColoredCtl.Failure
import ColoredCtl.Capacity
import ColoredCtl.Mask.Basic
import ColoredCtl.Wire
import ColoredCtl.Color.Algebra
import ColoredCtl.Color.Truth
import ColoredCtl.Color.Bits
import ColoredCtl.Color.ColorSet
import ColoredCtl.Color.Tally
import ColoredCtl.State.Span
import ColoredCtl.State.Bitmap
import ColoredCtl.State.StateSet
import ColoredCtl.State.StateMap
import ColoredCtl.State.Accumulator
import ColoredCtl.Partition.Basic
import ColoredCtl.Model.Label
import ColoredCtl.Model.Atom
import ColoredCtl.Model.Basic
import ColoredCtl.Model.Explicit
import ColoredCtl.Formula.Direction
import ColoredCtl.Formula.Basic
import ColoredCtl.Json.Record
import ColoredCtl.Model.Format
import ColoredCtl.Partition.Format
import ColoredCtl.Formula.Format
import ColoredCtl.Check.Config
import ColoredCtl.Channel.Exchange
import ColoredCtl.Channel.Frame
import ColoredCtl.Channel.Medium
import ColoredCtl.Check.Error
import ColoredCtl.Check.Worker
import ColoredCtl.Check.Context
import ColoredCtl.Check.Next
import ColoredCtl.Check.Until
import ColoredCtl.Check.FirstOrder
import ColoredCtl.Check.Memo
import ColoredCtl.Check.Evaluate
import ColoredCtl.Check.Validate
import ColoredCtl.Check.Checker
import ColoredCtl.Proofs.Outcome
import ColoredCtl.Proofs.Color.Reading
import ColoredCtl.Proofs.Color.Explicit
import ColoredCtl.Proofs.Color.Truth
import ColoredCtl.Proofs.State.Sets
import ColoredCtl.Proofs.State.Subsets
import ColoredCtl.Proofs.State.Maps
import ColoredCtl.Proofs.State.Listing
import ColoredCtl.Proofs.State.Views
import ColoredCtl.Proofs.State.Growth
import ColoredCtl.Proofs.State.Histories
import ColoredCtl.Proofs.State.Selection
import ColoredCtl.Proofs.State.Merge
import ColoredCtl.Proofs.State.ViewTrees
import ColoredCtl.Proofs.State.Equality
import ColoredCtl.Proofs.Partition.Ownership
import ColoredCtl.Proofs.Partition.Division
import ColoredCtl.Proofs.Partition.Arithmetic
import ColoredCtl.Proofs.Semantics
import ColoredCtl.Proofs.Paths
import ColoredCtl.Proofs.Model.Explicit
import ColoredCtl.Proofs.Model.Building
import ColoredCtl.Proofs.Wire
import ColoredCtl.Proofs.Channel.Delivery
import ColoredCtl.Proofs.Channel.Frames
import ColoredCtl.Proofs.Channel.Canonical
import ColoredCtl.Proofs.Color.Sets
import ColoredCtl.Proofs.Hub.Basic
import ColoredCtl.Proofs.Hub.Sync
import ColoredCtl.Proofs.Hub.Abort
import ColoredCtl.Proofs.Hub.Phases
import ColoredCtl.Proofs.Channel.Refinement
import ColoredCtl.Proofs.Hub.Rounds
import ColoredCtl.Proofs.Formula.Places
import ColoredCtl.Proofs.Check.Crew
import ColoredCtl.Proofs.Check.Progress
import ColoredCtl.Proofs.Check.Staging
import ColoredCtl.Proofs.Check.Team
import ColoredCtl.Proofs.Check.Next
import ColoredCtl.Proofs.Check.Journal
import ColoredCtl.Proofs.Check.Account
import ColoredCtl.Proofs.Check.Records
import ColoredCtl.Proofs.Check.Search
import ColoredCtl.Proofs.Check.Saturation
import ColoredCtl.Proofs.Check.SomePath
import ColoredCtl.Proofs.Check.Coverage
import ColoredCtl.Proofs.Check.EveryPath
import ColoredCtl.Proofs.Check.FirstOrder
import ColoredCtl.Proofs.Check.Evaluation
import ColoredCtl.Proofs.Check.Graph
import ColoredCtl.Proofs.Check.Caching
import ColoredCtl.Proofs.Check.Replacement
import ColoredCtl.Proofs.Check.Verdict
import ColoredCtl.Proofs.Check.Transport
import ColoredCtl.Proofs.Check.Refusal
import ColoredCtl.Proofs.Soundness
import ColoredCtl.Proofs.Distribution
import ColoredCtl.Proofs.Hub.Outcomes
import ColoredCtl.Proofs.Channel.Calls
import ColoredCtl.Proofs.Channel.Refusals
import ColoredCtl.Proofs.Hub.Schedule
import ColoredCtl.Proofs.Hub.Determinism
import ColoredCtl.Proofs.Hub.Words
import ColoredCtl.Proofs.Lockstep
import ColoredCtl.Proofs.Until
import ColoredCtl.Proofs.Interchange
import ColoredCtl.Proofs.Batches
import ColoredCtl.Proofs.Sharing
import ColoredCtl.Proofs.OneStep
import ColoredCtl.Proofs.Moves
import ColoredCtl.Proofs.Quantifiers
import ColoredCtl.Proofs.Globally
import ColoredCtl.Proofs.Settling
import ColoredCtl.Proofs.Moments
import ColoredCtl.Proofs.Slicing
import ColoredCtl.Proofs.Check.Failures
import ColoredCtl.Proofs.Validation
import ColoredCtl.Proofs.Json.Omission
import ColoredCtl.Proofs.Json.RoundTrip
