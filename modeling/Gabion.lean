import Gabion.Lib.RobinHood
import Gabion.Lib.Slots
import Gabion.Types
import Gabion.Index
import Gabion.Slab
import Gabion.Dictionary
import Gabion.DirtyRing
import Gabion.CellStore
import Gabion.Lib.SlotMap
import Gabion.StoreInv
import Gabion.StoreStep
import Gabion.Frame
import Gabion.Calls
import Gabion.Refinement
import Gabion.Lib.Bytes
import Gabion.Wire.Header
import Gabion.Wire.Body
import Gabion.Wire.Packets
import Gabion.Aggregate
import Gabion.Runtime
import Gabion.RuntimeStep
import Gabion.Agreement
import Gabion.Wire.RoundTrip
import Gabion.Cluster
import Gabion.Rules
import Gabion.Retention
import Gabion.Window
import Gabion.Limiter
import Gabion.Enforcement
import Gabion.Sweep
import Gabion.Exchange
import Gabion.Coverage
import Gabion.AntiEntropy
import Gabion.PeerRepair
import Gabion.Inbound
import Gabion.Scratch
import Gabion.Wire.Fidelity
import Gabion.Wire.Limits
import Gabion.SendPool
import Gabion.TickFrames
import Gabion.RuleOrder
import Gabion.Ledger
import Gabion.Epochs
import Gabion.Saturation
import Gabion.FailOpen
import Gabion.Nginx.Access
import Gabion.Retry
import Gabion.Discovery
import Gabion.Lib.LinearProbe
import Gabion.Nginx.Table
import Gabion.Nginx.Store
import Gabion.Lib.Threads
import Gabion.Nginx.Words
import Gabion.Nginx.Seqlock
import Gabion.Nginx.Ring
import Gabion.Nginx.Lease
import Gabion.Nginx.Leader
import Gabion.Relist
import Gabion.Rows
import Gabion.Steps
import Gabion.Lifecycle
import Gabion.Stranded
import Gabion.WireOnly
import Gabion.FrameOrder
import Gabion.RingOverflow
import Gabion.History
import Gabion.Recycling
import Gabion.Wire.Checked
import Gabion.Wire.Grammar
import Gabion.Handles
import Gabion.Lib.Delimited
import Gabion.Nginx.Zone
import Gabion.Rates
import Gabion.RuleBytes
import Gabion.PeerSlots
import Gabion.Flush
import Gabion.Lib.ReadThenRecord
import Gabion.Concurrent
import Gabion.Nginx.Pipeline
import Gabion.Nginx.Overshoot
import Gabion.Convergence
import Gabion.Provenance
import Gabion.Supervisor
import Gabion.Sampling
import Gabion.Nginx.Directives
import Gabion.Nginx.Handler
import Gabion.Lib.LockFree
import Gabion.Nginx.Progress
import Gabion.CellDump
