import Pintos.Theorems.Bufcache
import Pintos.Theorems.OpenInodes
import Pintos.Theorems.DirThreads
import Pintos.Theorems.DenyWrite
import Pintos.Theorems.Growth
import Pintos.Theorems.Semaphore
import Pintos.Theorems.Monitor
import Pintos.Theorems.Scheduler
import Pintos.Theorems.WaitExit
import Pintos.Theorems.Execute
import Pintos.Theorems.Load
import Pintos.Theorems.Descriptors
import Pintos.Theorems.GlobalFiles
import Pintos.Theorems.Disk
import Pintos.Theorems.Init
import Pintos.Theorems.Malloc
import Pintos.Theorems.Palloc
import Pintos.Theorems.Fsutil
import Pintos.Theorems.BlockMap
import Pintos.Theorems.FilesysCreate
import Pintos.Theorems.Serial
import Pintos.Theorems.Ide
import Pintos.Theorems.Scheduling
import Pintos.Theorems.Lru
import Pintos.Theorems.CreateRemove
import Pintos.Theorems.FreeMap
import Pintos.Theorems.UserRange
import Pintos.Theorems.Stack
import Pintos.Theorems.Cat
import Pintos.Theorems.Append
import Pintos.Theorems.Arithmetic
import Pintos.Theorems.PartitionTables
import Pintos.Theorems.Ustar
import Pintos.Theorems.Segment
import Pintos.Theorems.FixedPoint
import Pintos.Theorems.Rtc
import Pintos.Theorems.String
import Pintos.Theorems.BinarySearch
import Pintos.Theorems.ReadyOrder
import Pintos.Theorems.Bitmap
import Pintos.Lib.List
import Pintos.Theorems.List
import Pintos.Theorems.Random
import Pintos.Theorems.SyscallIo
