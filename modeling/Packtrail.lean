import Packtrail.Lib.Replay
import Packtrail.Lib.Emitter
import Packtrail.Lib.Transition
import Packtrail.Lib.Recall
import Packtrail.Lib.Ballot
import Packtrail.Lib.Search
import Packtrail.Lib.Follow
import Packtrail.Json
import Packtrail.Names
import Packtrail.Flow
import Packtrail.State
import Packtrail.Event
import Packtrail.Apply
import Packtrail.Loader
import Packtrail.Graph
import Packtrail.Validate
import Packtrail.Delays
import Packtrail.WellFormed
import Packtrail.Decide
import Packtrail.Work
import Packtrail.Guard
import Packtrail.Encoding
import Packtrail.Over
import Packtrail.Progress
import Packtrail.Walk
import Packtrail.Modes
import Packtrail.Settle
import Packtrail.React
import Packtrail.Begin
import Packtrail.Reach
import Packtrail.Emission
import Packtrail.Reactions
import Packtrail.Fitting
import Packtrail.Decisions
import Packtrail.Shape
import Packtrail.Lineage
import Packtrail.Memory
import Packtrail.Joins
import Packtrail.Policies
import Packtrail.Maps
import Packtrail.Ledger
import Packtrail.Channels
import Packtrail.Signals
import Packtrail.Runnable
import Packtrail.Budget
import Packtrail.Limits
import Packtrail.Entering
import Packtrail.Triggers
import Packtrail.ResultCache
import Packtrail.CommandIds
import Packtrail.Identifiers
import Packtrail.Semaphore
import Packtrail.Trace
import Packtrail.Dispatch
import Packtrail.Answers
import Packtrail.Redelivery
import Packtrail.Agreement
import Packtrail.Transparent
import Packtrail.Status
import Packtrail.Children
import Packtrail.Forks
import Packtrail.Redispatch
import Packtrail.History
import Packtrail.Archive
import Packtrail.Rerun
import Packtrail.Engine
import Packtrail.Width
import Packtrail.SingleWriter
import Packtrail.Handover
import Packtrail.Continuation
import Packtrail.Index
import Packtrail.Dispatchers
import Packtrail.Quarantine
import Packtrail.StatusIndex
import Packtrail.Readiness
