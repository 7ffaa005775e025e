import SystemEmulator.Cycle.PipeControl
import SystemEmulator.Replacement.Reference
import SystemEmulator.Replacement.Geometry
import SystemEmulator.Cycle.Orders
import SystemEmulator.Memory.Frame
import SystemEmulator.Library.Overlay
import SystemEmulator.Replacement.Resident
import SystemEmulator.Memory.CachedBytes
import SystemEmulator.Memory.CachedAccess
import SystemEmulator.Memory.FlatMemory
import SystemEmulator.Library.Outcome
import SystemEmulator.Sequential.Machine
import SystemEmulator.Sequential.Drain
import SystemEmulator.Sequential.Step
import SystemEmulator.Memory.Text
import SystemEmulator.Pipeline.Effect
import SystemEmulator.Sequential.Complete
import SystemEmulator.Pipeline.Forwarding
import SystemEmulator.Pipeline.Drained
import SystemEmulator.Pipeline.Invariant
import SystemEmulator.Pipeline.Simulation
import SystemEmulator.Pipeline.Refinement
import SystemEmulator.Pipeline.Progress
import SystemEmulator.Pipeline.Halting
import SystemEmulator.Cycle.Isolation
import SystemEmulator.Base.Machine
import SystemEmulator.Replacement.Validation
import SystemEmulator.Cycle.Assertions
import SystemEmulator.Memory.MissDelay
import SystemEmulator.Base.ElfLoader
import SystemEmulator.Memory.Loading
import SystemEmulator.Memory.PageHistory
import SystemEmulator.Cycle.StackPointer
import SystemEmulator.Branches.Indirect
import SystemEmulator.Branches.Compare
import SystemEmulator.Sequential.Bounded
import SystemEmulator.Pipeline.Illegal
import SystemEmulator.Pipeline.AddressFault
import SystemEmulator.Pipeline.FaultPC
import SystemEmulator.Padded.Discipline
import SystemEmulator.Padded.Lockstep
import SystemEmulator.Padded.Agreement
import SystemEmulator.Datapath.Adder
import SystemEmulator.Datapath.Bitfields
import SystemEmulator.Datapath.Targets
import SystemEmulator.Library.A64
import SystemEmulator.Datapath.DataProcessing
import SystemEmulator.Datapath.Aliases
import SystemEmulator.Replacement.Inclusion
import SystemEmulator.Library.Traced
import SystemEmulator.Memory.Bounds
import SystemEmulator.Base.Checkpoint
import SystemEmulator.Memory.Statistics
import SystemEmulator.Memory.MemoryLog
import SystemEmulator.Cache.Heap
import SystemEmulator.Library.Transducer
import SystemEmulator.Replacement.Ownership
import SystemEmulator.Replacement.CacheOps
import SystemEmulator.Replacement.Allocation
import SystemEmulator.Replacement.Twins
import SystemEmulator.Replacement.Checkpoint
import SystemEmulator.Branches.Conditional
import SystemEmulator.Replacement.LruHistory
import SystemEmulator.Replacement.Representation
import SystemEmulator.Pipeline.Operands
import SystemEmulator.Base.Threads
import SystemEmulator.Parallel.Protocol
import SystemEmulator.Parallel.Exclusion
import SystemEmulator.Parallel.Refinement
import SystemEmulator.Parallel.Schedules
import SystemEmulator.Parallel.Termination
import SystemEmulator.Execution.Guest
import SystemEmulator.Execution.Commands
import SystemEmulator.Execution.Programs
import SystemEmulator.Base.Main
import SystemEmulator.Execution.Executable
import SystemEmulator.Base.StageOrdering
import SystemEmulator.Parallel.Random
import SystemEmulator.Replacement.Reuse
import SystemEmulator.Replacement.Accounting
import SystemEmulator.Cache.Csim
import SystemEmulator.Replacement.TraceFiles
import SystemEmulator.Base.MachineLog
import SystemEmulator.Library.Unambiguous
import SystemEmulator.Memory.MachineLog
import SystemEmulator.Cache.Free
import SystemEmulator.Replacement.Free
import SystemEmulator.Execution.CycleBound
import SystemEmulator.Memory.Defined
import SystemEmulator.Stalls.Alike
import SystemEmulator.Stalls.Invisible
