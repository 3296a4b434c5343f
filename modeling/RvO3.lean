import RvO3.Bench.PtrChase
import RvO3.Bench.QsortB
import RvO3.Bench.Rle
import RvO3.Core.Accesses
import RvO3.Core.Alone
import RvO3.Core.BeforeAccess
import RvO3.Core.Classify
import RvO3.Core.Commit
import RvO3.Core.CommittedLoads
import RvO3.Core.Conservation
import RvO3.Core.Conservative
import RvO3.Core.DataPort
import RvO3.Core.Dataflow
import RvO3.Core.Faults
import RvO3.Core.FetchSide
import RvO3.Core.FetchWords
import RvO3.Core.FlatTags
import RvO3.Core.FoldedHistory
import RvO3.Core.Fu
import RvO3.Core.FuPipeline
import RvO3.Core.Golden
import RvO3.Core.GoldenRun
import RvO3.Core.Halt
import RvO3.Core.History
import RvO3.Core.HistoryRing
import RvO3.Core.Inside
import RvO3.Core.Inv
import RvO3.Core.InvExec
import RvO3.Core.InvFront
import RvO3.Core.InvLsq
import RvO3.Core.InvSquash
import RvO3.Core.Iq
import RvO3.Core.IqBits
import RvO3.Core.IqList
import RvO3.Core.Issue
import RvO3.Core.LoadOrder
import RvO3.Core.LoadRun
import RvO3.Core.LoadTags
import RvO3.Core.Lsq
import RvO3.Core.LsqGrowth
import RvO3.Core.LsqSteps
import RvO3.Core.LsqWork
import RvO3.Core.MapAt
import RvO3.Core.MemValues
import RvO3.Core.Ooo
import RvO3.Core.Overlap
import RvO3.Core.Path
import RvO3.Core.Places
import RvO3.Core.Port
import RvO3.Core.PortTrace
import RvO3.Core.Predictor
import RvO3.Core.PredictorArrays
import RvO3.Core.PredictorBounds
import RvO3.Core.PredictorTables
import RvO3.Core.Reach
import RvO3.Core.Recovery
import RvO3.Core.RefModel
import RvO3.Core.Rename
import RvO3.Core.Reset
import RvO3.Core.Response
import RvO3.Core.ReturnStack
import RvO3.Core.Ring
import RvO3.Core.RingVec
import RvO3.Core.RobSteps
import RvO3.Core.Run
import RvO3.Core.Sight
import RvO3.Core.SlotBits
import RvO3.Core.SlotSet
import RvO3.Core.Stages
import RvO3.Core.StoreBuf
import RvO3.Core.Successor
import RvO3.Core.TagAge
import RvO3.Core.ValueSteps
import RvO3.Core.Values
import RvO3.Core.Wall
import RvO3.Core.WorkSets
import RvO3.Core.Writeback
import RvO3.Core.WrongPath
import RvO3.Doom.Fixed
import RvO3.Doom.MemOps
import RvO3.Doom.Runtime
import RvO3.Doom.Viewer
import RvO3.Isa.Decode
import RvO3.Isa.Encode
import RvO3.Isa.Execute
import RvO3.Isa.Instr
import RvO3.Isa.MulDiv
import RvO3.Lib.Bitmap
import RvO3.Lib.Bounded
import RvO3.Lib.Checked
import RvO3.Lib.DelayLine
import RvO3.Lib.FoldedHistory
import RvO3.Lib.Lists
import RvO3.Lib.Nested
import RvO3.Lib.Numerals
import RvO3.Lib.Paths
import RvO3.Lib.PendingWrites
import RvO3.Lib.Pipeline
import RvO3.Lib.Strides
import RvO3.Lib.Sweep
import RvO3.Lib.Tally
import RvO3.Lib.UndoLog
import RvO3.Memory.Arrays
import RvO3.Memory.Cache
import RvO3.Memory.Coherent
import RvO3.Memory.Drain
import RvO3.Memory.Dram
import RvO3.Memory.Fetch
import RvO3.Memory.Geometry
import RvO3.Memory.Hierarchy
import RvO3.Memory.HitTiming
import RvO3.Memory.Inside
import RvO3.Memory.Latency
import RvO3.Memory.Moves
import RvO3.Memory.Ports
import RvO3.Memory.Request
import RvO3.Memory.Reset
import RvO3.Memory.Residency
import RvO3.Memory.Service
import RvO3.Memory.System
import RvO3.Memory.View
import RvO3.Memory.Work
import RvO3.Sim.Agreement
import RvO3.Sim.Config
import RvO3.Sim.ConfigDump
import RvO3.Sim.ConfigFile
import RvO3.Sim.DiffCheck
import RvO3.Sim.Display
import RvO3.Sim.Knobs
import RvO3.Sim.Loader
import RvO3.Sim.Lockstep
import RvO3.Sim.PreciseFaults
import RvO3.Sim.Syscall
import RvO3.Sim.Validate
