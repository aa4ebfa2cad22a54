import Nachos.Threads.Semaphore
import Nachos.Threads.Lock
import Nachos.Threads.Condition
import Nachos.Threads.SynchList
import Nachos.Threads.Kernel
import Nachos.Threads.Conservation
import Nachos.Threads.Dispatch
import Nachos.Filesys.HostFile
import Nachos.Framework.Matching
import Nachos.Machine.Machine
import Nachos.Userprog.AddrSpace
import Nachos.Userprog.PageFault
import Nachos.Userprog.Effects
import Nachos.Userprog.Ownership
import Nachos.Userprog.Transparency
import Nachos.Userprog.Isolation
import Nachos.Framework.Allocation
import Nachos.Framework.ByteImage
import Nachos.Lib.Bitmap
import Nachos.Filesys.FileHeader
import Nachos.Filesys.OpenFile
import Nachos.Filesys.Directory
import Nachos.Filesys.FileSystem
import Nachos.Filesys.Metadata
import Nachos.Filesys.Consistency
import Nachos.Userprog.Locality
import Nachos.Machine.Delivery
import Nachos.Userprog.UserState
import Nachos.Threads.SynchDevice
import Nachos.Userprog.SynchConsole
import Nachos.Filesys.Handles
import Nachos.Threads.Discipline
import Nachos.Userprog.Coff2noff
import Nachos.Machine.Mipssim
import Nachos.Machine.LoadDelay
import Nachos.Network.PostOffice
import Nachos.Network.InOrder
import Nachos.Userprog.Retry
import Nachos.Userprog.FaultIn
import Nachos.Userprog.Translators
import Nachos.Userprog.SegmentLayout
import Nachos.Framework.Recency
import Nachos.Userprog.Replacement
import Nachos.Filesys.FlatFile
import Nachos.Filesys.RequestBounds
import Nachos.Filesys.Creation
import Nachos.Filesys.Sequential
import Nachos.Threads.CopyPrint
import Nachos.Filesys.NameMap
import Nachos.Filesys.StoredNames
import Nachos.Framework.ByteMemory
import Nachos.Machine.UserMemory
import Nachos.Machine.UnalignedPair
import Nachos.Framework.MipsIsa
import Nachos.Machine.Isa
import Nachos.Machine.ShiftDivide
import Nachos.Userprog.Syscall
import Nachos.Userprog.UserBuffer
import Nachos.Framework.Tiling
import Nachos.Machine.Multiply
import Nachos.Userprog.Uninitialized
import Nachos.Threads.Deletion
import Nachos.Framework.Rotation
import Nachos.Machine.DiskTiming
import Nachos.Threads.SynchSafety
import Nachos.Network.Receiver
import Nachos.Userprog.ConsoleInput
import Nachos.Framework.RoundRobin
import Nachos.Threads.SelfTest
import Nachos.Userprog.Children
import Nachos.Userprog.RegisterFile
import Nachos.Framework.Buckets
import Nachos.Framework.Chain
import Nachos.Lib.Allocator
import Nachos.Lib.HashIterator
import Nachos.Framework.X86
import Nachos.Threads.Switch
import Nachos.Threads.ThreadRoot
import Nachos.Userprog.FlatProgram
import Nachos.Userprog.Multiprogramming
import Nachos.Filesys.Refinement
import Nachos.Machine.Timer
import Nachos.Network.NetworkTest
import Nachos.Threads.PingPong
import Nachos.Userprog.ConsoleTest
import Nachos.Lib.HashCost
import Nachos.Machine.DiskFile
import Nachos.Filesys.UnixFile
import Nachos.Filesys.SynchDiskFile
