import ThanksComputer.Admin.Activate
import ThanksComputer.Admin.Diff
import ThanksComputer.Admin.Drafts
import ThanksComputer.Admin.Frozen
import ThanksComputer.Admin.Paths
import ThanksComputer.Admission.Limit
import ThanksComputer.Admission.Slots
import ThanksComputer.Auth.Capability
import ThanksComputer.Auth.Nonces
import ThanksComputer.Auth.Throttle
import ThanksComputer.Auth.Verifier
import ThanksComputer.Authn.Budgets
import ThanksComputer.Authn.Narrowing
import ThanksComputer.Authn.RunGrants
import ThanksComputer.Blob.Index
import ThanksComputer.Blob.Reconcile
import ThanksComputer.Calendar.Ical
import ThanksComputer.Calendar.RoundTrip
import ThanksComputer.Calendar.Times
import ThanksComputer.Calendar.VTimezone
import ThanksComputer.Call.Frames
import ThanksComputer.Call.Isolation
import ThanksComputer.Call.Payload
import ThanksComputer.Connection.Expiry
import ThanksComputer.Connection.Renewal
import ThanksComputer.Connection.SingleUse
import ThanksComputer.Connection.Store
import ThanksComputer.Continuation.Finality
import ThanksComputer.Continuation.Ledger
import ThanksComputer.Continuation.Moves
import ThanksComputer.Continuation.Pipeline
import ThanksComputer.Continuation.Protocol
import ThanksComputer.Continuation.Reachable
import ThanksComputer.Continuation.Records
import ThanksComputer.Continuation.Resumes
import ThanksComputer.Continuation.Runs
import ThanksComputer.Continuation.Soundness
import ThanksComputer.Continuation.Suspension
import ThanksComputer.Continuation.Terminal
import ThanksComputer.Continuation.TraceId
import ThanksComputer.Control.Applier
import ThanksComputer.Control.Events
import ThanksComputer.Control.ExactlyOnce
import ThanksComputer.Dns.Challenge
import ThanksComputer.Dns.Chase
import ThanksComputer.Dns.Contention
import ThanksComputer.Dns.Exclusive
import ThanksComputer.Dns.Existence
import ThanksComputer.Dns.Freshness
import ThanksComputer.Dns.Lane
import ThanksComputer.Dns.Records
import ThanksComputer.Dns.Serial
import ThanksComputer.Dns.Shared
import ThanksComputer.Dns.Store
import ThanksComputer.Dns.Zone
import ThanksComputer.Drive.Consistency
import ThanksComputer.Drive.Effects
import ThanksComputer.Drive.IfMatch
import ThanksComputer.Drive.Index
import ThanksComputer.Drive.Links
import ThanksComputer.Drive.Move
import ThanksComputer.Drive.Objects
import ThanksComputer.Drive.Path
import ThanksComputer.Drive.Policy
import ThanksComputer.Drive.Preconditions
import ThanksComputer.Drive.Reader
import ThanksComputer.Drive.Subtree
import ThanksComputer.Drive.Sweep
import ThanksComputer.Drive.Sync
import ThanksComputer.Drive.Tree
import ThanksComputer.Edge.ClientIP
import ThanksComputer.Git.Content
import ThanksComputer.Git.Objects
import ThanksComputer.Git.Push
import ThanksComputer.Git.Quota
import ThanksComputer.Git.Refs
import ThanksComputer.Git.Reports
import ThanksComputer.Git.Store
import ThanksComputer.Guard.Confined
import ThanksComputer.Guard.NonForgery
import ThanksComputer.Guard.Padding
import ThanksComputer.Guard.Paths
import ThanksComputer.Guard.Sanitize
import ThanksComputer.Imap.Echo
import ThanksComputer.Imap.Generations
import ThanksComputer.Imap.Hub
import ThanksComputer.Imap.Names
import ThanksComputer.Imap.Replay
import ThanksComputer.Imap.Store
import ThanksComputer.Ipp.Jobs
import ThanksComputer.Json.Apart
import ThanksComputer.Json.Builder
import ThanksComputer.Json.Decode
import ThanksComputer.Json.Edit
import ThanksComputer.Json.Follow
import ThanksComputer.Json.Number
import ThanksComputer.Json.Path
import ThanksComputer.Json.Segments
import ThanksComputer.Json.Sets
import ThanksComputer.Json.Text
import ThanksComputer.Json.Value
import ThanksComputer.Kv.Bolt
import ThanksComputer.Kv.Calls
import ThanksComputer.Kv.Counter
import ThanksComputer.Kv.Discipline
import ThanksComputer.Kv.LazyExpiry
import ThanksComputer.Kv.Listing
import ThanksComputer.Kv.Pages
import ThanksComputer.Kv.Store
import ThanksComputer.Kv.Swap
import ThanksComputer.Lib.Assoc
import ThanksComputer.Lib.Builtin
import ThanksComputer.Lib.Checks
import ThanksComputer.Lib.Civil
import ThanksComputer.Lib.Claims
import ThanksComputer.Lib.Closure
import ThanksComputer.Lib.CreateOnce
import ThanksComputer.Lib.Cursor
import ThanksComputer.Lib.Forest
import ThanksComputer.Lib.Glob
import ThanksComputer.Lib.Keep
import ThanksComputer.Lib.Layers
import ThanksComputer.Lib.Layout
import ThanksComputer.Lib.Moves
import ThanksComputer.Lib.Outcome
import ThanksComputer.Lib.Ownership
import ThanksComputer.Lib.Paging
import ThanksComputer.Lib.Process
import ThanksComputer.Lib.Reclaim
import ThanksComputer.Lib.Runs
import ThanksComputer.Lib.Search
import ThanksComputer.Lib.Separate
import ThanksComputer.Lib.Splice
import ThanksComputer.Lib.Table
import ThanksComputer.Lib.Transitions
import ThanksComputer.Lib.Windows
import ThanksComputer.Merge.Assoc
import ThanksComputer.Merge.Cell
import ThanksComputer.Merge.Fast
import ThanksComputer.Merge.Frame
import ThanksComputer.Merge.Loop
import ThanksComputer.Merge.Refinement
import ThanksComputer.Merge.Slow
import ThanksComputer.Net.Address
import ThanksComputer.Net.Text
import ThanksComputer.Notebook.Append
import ThanksComputer.Notebook.Reads
import ThanksComputer.Notebook.Store
import ThanksComputer.Ops.Index
import ThanksComputer.Ops.Overlay
import ThanksComputer.Ops.Rules
import ThanksComputer.Ops.Stage
import ThanksComputer.Ops.Table
import ThanksComputer.Retention.Docs
import ThanksComputer.Retention.Mirror
import ThanksComputer.Retention.Purge
import ThanksComputer.Retention.Sweep
import ThanksComputer.Scheduled.Dispatch
import ThanksComputer.Scheduled.Store
import ThanksComputer.Scope.Allowance
import ThanksComputer.Scope.Budget
import ThanksComputer.Scope.FastForward
import ThanksComputer.Scope.HopBound
import ThanksComputer.Scope.Reload
import ThanksComputer.Scope.Resonate
import ThanksComputer.Scope.ResponseMerge
import ThanksComputer.Scope.Streaming
import ThanksComputer.Scope.Suspend
import ThanksComputer.Scope.TenantPin
import ThanksComputer.Search.Replay
import ThanksComputer.Search.Sequenced
import ThanksComputer.Secrets.Materialize
import ThanksComputer.State.History
import ThanksComputer.State.Order
import ThanksComputer.State.Store
import ThanksComputer.State.Tickets
import ThanksComputer.Static.Index
import ThanksComputer.Static.Privacy
import ThanksComputer.Txcl.Branch
import ThanksComputer.Txcl.Complete
import ThanksComputer.Txcl.Expansion
import ThanksComputer.Txcl.Grammar
import ThanksComputer.Txcl.Include
import ThanksComputer.Txcl.Influence
import ThanksComputer.Txcl.Lexer
import ThanksComputer.Txcl.Local
import ThanksComputer.Txcl.Numeral
import ThanksComputer.Txcl.Offsets
import ThanksComputer.Txcl.Parser
import ThanksComputer.Txcl.Phrases
import ThanksComputer.Txcl.Precedence
import ThanksComputer.Txcl.Returns
import ThanksComputer.Txcl.Rule
import ThanksComputer.Txcl.Scan
import ThanksComputer.Txcl.Sound
import ThanksComputer.Txcl.Spans
import ThanksComputer.Txcl.Unterminated
import ThanksComputer.Txcl.Validate
