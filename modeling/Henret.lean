import Henret.Runtime.Placement
import Henret.Runtime.Lifecycle
import Henret.Runtime.CleanStop
import Henret.Bridge.Grammar
import Henret.Lib.Runs
import Henret.Runtime.Restart
import Henret.Bridge.Workers
import Henret.Explore.Generate
import Henret.Explore.Shrink
import Henret.Archive.Gzip
import Henret.Lib.Slices
import Henret.Archive.Tar
import Henret.Archive.TarReading
import Henret.Lib.Words
import Henret.Scripts.LeanText
import Henret.Scripts.NativeDecide
import Henret.Lib.PyJson
import Henret.Lib.PyDumps
import Henret.Release.Registry
import Henret.Release.Manifest
import Henret.Release.GateContract
import Henret.Release.Stack
import Henret.Release.StackConsistency
import Henret.Trace.Ledger
import Henret.Native.DequeModel
import Henret.Progress.Overtaking
import Henret.Runtime.Scheduling
import Henret.Lib.Forest
import Henret.Runtime.Frozen
import Henret.Runtime.Handles
import Henret.Runtime.Supervision
import Henret.Runtime.Timers
import Henret.Archive.Source
import Henret.Archive.Validate
import Henret.Release.Verify
import Henret.Release.GateRun
import Henret.Release.Accepted
import Henret.Release.Publish
