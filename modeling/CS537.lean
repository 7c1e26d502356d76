import CS537.Scheduling.Lottery
import CS537.Scheduling.Sleep
import CS537.Scheduling.Fairness
import CS537.Scheduling.Pids
import CS537.Scheduling.Boosts
import CS537.Hashing.Refine
import CS537.Hashing.Concurrent
import CS537.MapReduce.Equivalence
import CS537.MapReduce.Programs
import CS537.MapReduce.Callbacks
import CS537.Threads.Lifetime
import CS537.Threads.TicketLock
import CS537.Threads.UserMemory
import CS537.Threads.Reaping
import CS537.Threads.Stacks
import CS537.Threads.PiProgram
import CS537.Threads.CloneFrame
import CS537.Pager.ResidentSet
import CS537.Pager.Conservation
import CS537.Pager.ForkCopy
import CS537.Pager.NullTable
import CS537.Pager.RawDump
import CS537.Pager.HeapGrowth
import CS537.Pager.ExecImage
import CS537.FileSystem.Inodes
import CS537.FileSystem.Naming
import CS537.FileSystem.Directories
import CS537.Shell.AliasUse
import CS537.Shell.Framing
import CS537.Shell.Tracking
import CS537.Shell.Argv
import CS537.Shell.Session
import CS537.Utilities.Wordle
import CS537.Xv6.LogSpace
import CS537.Pager.Spaces
import CS537.Pager.Resizing
import CS537.Pager.NewSpaces
import CS537.Pager.Isolation
import CS537.Lib.Monitor
import CS537.Xv6.Pipe
import CS537.Xv6.SleepLock
import CS537.Lib.Circle
import CS537.Xv6.Malloc
import CS537.Xv6.FreeList
import CS537.Xv6.MallocSafety
import CS537.Xv6.MallocRuns
import CS537.Lib.SlotTable
import CS537.Xv6.Directory
import CS537.Xv6.Paths
import CS537.Xv6.Blocks
import CS537.Xv6.FileContents
