import DlpServer.Lib.Runs
import DlpServer.Lib.Regex
import DlpServer.Lib.Splice
import DlpServer.Lib.Unicode
import DlpServer.Lib.Dict
import DlpServer.Ids
import DlpServer.Models
import DlpServer.Vault.Table
import DlpServer.Vault.Ops
import DlpServer.Vault.Spec
import DlpServer.Vault.History
import DlpServer.Vault.NoReuse
import DlpServer.Vault.Restore
import DlpServer.Vault.Transactions
import DlpServer.Vault.Agreement
import DlpServer.Context.Store
import DlpServer.Context.Accumulator
import DlpServer.Context.FromScratch
import DlpServer.Lib.Mentions
import DlpServer.Context.Stage
import DlpServer.Context.Concurrency
import DlpServer.Vault.Text
import DlpServer.Transform.Apply
import DlpServer.Transform.Roundtrip
import DlpServer.Detect.Merge
import DlpServer.Detect.Additivity
import DlpServer.Lib.Json
import DlpServer.Lib.Float
import DlpServer.Adapters.Body
import DlpServer.Adapters.Request
import DlpServer.Adapters.PutGet
import DlpServer.Context.Splitting
import DlpServer.Purpose
import DlpServer.Vault.Audit
import DlpServer.Pipeline.Core
import DlpServer.Pipeline.Soundness
import DlpServer.Detect.RegexRules
import DlpServer.Transform.MaskSpec
import DlpServer.Guardrail.OutputCheck
import DlpServer.Guardrail.Injection
import DlpServer.Policy.Engine
import DlpServer.Detect.Layers
import DlpServer.Pipeline.Stages
import DlpServer.Adapters.Response
import DlpServer.Pipeline.Response
import DlpServer.Pipeline.Request
import DlpServer.Context.LastPurpose
import DlpServer.Pipeline.Blocked
import DlpServer.Vault.Frames
import DlpServer.Transform.Minted
import DlpServer.Pipeline.Alike
import DlpServer.Pipeline.Exchanges
import DlpServer.Vault.TwoIds
import DlpServer.Pipeline.Expiry
import DlpServer.Pipeline.Mediation
import DlpServer.Detect.Segmentation
import DlpServer.Policy.Order
import DlpServer.Adapters.Frame
import DlpServer.Detect.Candidates
import DlpServer.Lib.Longest
import DlpServer.Lib.Edges
import DlpServer.Detect.Surroundings
import DlpServer.Lib.Overlay
import DlpServer.Transform.MaskOrigins
import DlpServer.Guardrail.Overlaps
import DlpServer.Lib.Window
import DlpServer.Detect.Rows
import DlpServer.Detect.Gaps
import DlpServer.Pipeline.SecondPass
import DlpServer.Context.Disclosure
import DlpServer.Policy.Seed
import DlpServer.Context.Resend
import DlpServer.Pipeline.ExpireOnce
import DlpServer.Vault.Revocation
import DlpServer.Adapters.Rewrite
import DlpServer.Lib.BoundedQueue
import DlpServer.Logging.Bus
import DlpServer.Logging.Delivery
import DlpServer.Pipeline.Previews
import DlpServer.Detect.Particles
import DlpServer.Policy.Conditions
import DlpServer.Detect.Checksums
import DlpServer.Context.Views
import DlpServer.Lib.Grouping
import DlpServer.Lib.Unwinding
import DlpServer.Logging.Accounting
import DlpServer.Logging.LiveTail
import DlpServer.Pipeline.Confined
import DlpServer.Pipeline.Isolation
import DlpServer.Lib.Twins
import DlpServer.Policy.Cache
import DlpServer.Transform.Disclosure
import DlpServer.Vault.Retention
import DlpServer.Logging.Stats
import DlpServer.Detect.NerEngine
