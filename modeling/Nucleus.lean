import Nucleus.Semantics.Outcome
import Nucleus.Semantics.System
import Nucleus.Semantics.Agreement
import Nucleus.Semantics.Fifo
import Nucleus.Semantics.Semaphore
import Nucleus.Semantics.Block
import Nucleus.Semantics.Polling
import Nucleus.Linked.Segment
import Nucleus.Linked.Ring
import Nucleus.Linked.Placement
import Nucleus.Linked.Pool
import Nucleus.Linked.Forest
import Nucleus.Linked.Directory
import Nucleus.Pcb.Basic
import Nucleus.Pcb.FreeList
import Nucleus.Pcb.ProcessQueue
import Nucleus.Pcb.Removal
import Nucleus.Pcb.QueueRuns
import Nucleus.Pcb.ProcessTree
import Nucleus.Pcb.TreeRuns
import Nucleus.Pcb.ChildList
import Nucleus.Asl.Basic
import Nucleus.Asl.Representation
import Nucleus.Asl.Operations
import Nucleus.Asl.Removal
import Nucleus.Asl.Init
import Nucleus.Asl.Runs
import Nucleus.Asl.Safety
import Nucleus.Asl.Refinement
import Nucleus.Asl.Refusals
import Nucleus.Tables.Basic
import Nucleus.Tables.Placement
import Nucleus.Tables.Names
import Nucleus.Kernel.Basic
import Nucleus.Kernel.Syscall
import Nucleus.Kernel.Semaphores
import Nucleus.Kernel.Boot
import Nucleus.Kernel.Scheduler
import Nucleus.Kernel.Runs
import Nucleus.Kernel.TreeRuns
import Nucleus.Kernel.Termination
import Nucleus.Kernel.RoundRobin
import Nucleus.Kernel.Release
import Nucleus.Kernel.Counting
import Nucleus.Kernel.Handover
import Nucleus.Kernel.Vectors
import Nucleus.Kernel.FlatMemory
import Nucleus.Kernel.Preemption
import Nucleus.Kernel.Mirror
import Nucleus.Kernel.Turns
import Nucleus.Kernel.Isolation
import Nucleus.Kernel.Creation
import Nucleus.Arm.Machine
import Nucleus.Arm.Memory
import Nucleus.Arm.Instructions
import Nucleus.Bios.Basic
import Nucleus.Bios.Save
import Nucleus.Bios.Load
import Nucleus.Bios.Traps
import Nucleus.Bios.Services
import Nucleus.Bios.Resume
import Nucleus.Bios.Runs
import Nucleus.Bios.Refinement
import Nucleus.Bios.Boot
import Nucleus.Bios.Panic
import Nucleus.Bios.Library
import Nucleus.Bios.Print
