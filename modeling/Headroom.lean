import Headroom.Bytes
import Headroom.CpuTime.Source
import Headroom.CpuTime.Ticks
import Headroom.Environment
import Headroom.Exposition
import Headroom.Fault
import Headroom.Files
import Headroom.Host
import Headroom.Latency.Quantile
import Headroom.Latency.Reservoir
import Headroom.Latency.Twister
import Headroom.Log
import Headroom.Main
import Headroom.Number.Arithmetic
import Headroom.Number.Binary64
import Headroom.Number.Fixed
import Headroom.Number.Reader
import Headroom.Number.Shortest
import Headroom.Number.Significant
import Headroom.Pool.Batch
import Headroom.Pool.Config
import Headroom.Pool.Notice
import Headroom.Pool.Operation
import Headroom.Pool.Phase
import Headroom.Pool.Snapshot
import Headroom.Pool.State
import Headroom.Pool.Step
import Headroom.Pool.Work
import Headroom.Probe
import Headroom.Profile.Config
import Headroom.Profile.Level
import Headroom.Profile.Run
import Headroom.Proofs.Accounting
import Headroom.Proofs.Agreement
import Headroom.Proofs.Batches
import Headroom.Proofs.Cliffs
import Headroom.Proofs.Closing
import Headroom.Proofs.Crew
import Headroom.Proofs.Discipline
import Headroom.Proofs.Failure
import Headroom.Proofs.Gathering
import Headroom.Proofs.Hysteresis
import Headroom.Proofs.Levels
import Headroom.Proofs.Lookup
import Headroom.Proofs.Moves
import Headroom.Proofs.Profiling
import Headroom.Proofs.Progress
import Headroom.Proofs.Runs
import Headroom.Proofs.Samples
import Headroom.Proofs.Settlement
import Headroom.Proofs.Shutdown
import Headroom.Proofs.Snapshots
import Headroom.Proofs.Strings
import Headroom.Proofs.Submission
import Headroom.Proofs.Tracking
import Headroom.Report.Cliff
import Headroom.Report.Duration
import Headroom.Report.Plot
import Headroom.Report.Status
import Headroom.Sampling.Mailbox
import Headroom.Sampling.Sample
import Headroom.Sampling.Stopwatch
import Headroom.Sampling.Window
import Headroom.Scaling
import Headroom.Settings.Document
import Headroom.Settings.Key
import Headroom.Settings.Resolve
import Headroom.Simulation.Call
import Headroom.Simulation.Run
import Headroom.Veto
import Headroom.Proofs.Writing
import Headroom.Proofs.Usability
import Headroom.Proofs.Resolution
import Headroom.Proofs.Loading
import Headroom.Proofs.Collecting
import Headroom.Proofs.Exposure
import Headroom.Proofs.Capping
import Headroom.Proofs.Lifecycle
import Headroom.Proofs.Blindness
import Headroom.Proofs.Stranding
import Headroom.Proofs.Collapse
import Headroom.Proofs.Recency
import Headroom.Proofs.Uniformity
import Headroom.Proofs.Announcement
import Headroom.Proofs.Relaunch
import Headroom.Proofs.Quantiles
import Headroom.Proofs.Rounding
import Headroom.Proofs.Measuring
import Headroom.Proofs.Repetition
import Headroom.Proofs.Doubling
import Headroom.Proofs.Fields
import Headroom.Proofs.Comments
import Headroom.Proofs.Decimals
import Headroom.Proofs.Comparison
import Headroom.Proofs.Approval
import Headroom.Proofs.Magnitudes
import Headroom.Proofs.Chunks
import Headroom.Proofs.Widths
import Headroom.Proofs.Marking
import Headroom.Proofs.Conversion
import Headroom.Proofs.Durations
import Headroom.Proofs.Bars
