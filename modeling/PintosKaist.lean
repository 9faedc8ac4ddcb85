import PintosKaist.Lib.Run
import PintosKaist.Lib.Count
import PintosKaist.Lib.OrdList
import PintosKaist.Lib.Inherit
import PintosKaist.Lib.Bitmap
import PintosKaist.Lib.RefTable
import PintosKaist.Lib.Owners
import PintosKaist.Lib.Ledger
import PintosKaist.Lib.Linked
import PintosKaist.Lib.Buckets
import PintosKaist.Threads.Kernel
import PintosKaist.Threads.Lists
import PintosKaist.Threads.Walk
import PintosKaist.Threads.ReadyOrder
import PintosKaist.Threads.Donation
import PintosKaist.Threads.DonationRuns
import PintosKaist.Threads.Life
import PintosKaist.Threads.LifeRuns
import PintosKaist.Threads.AllList
import PintosKaist.Threads.Records
import PintosKaist.Threads.ListSort
import PintosKaist.Threads.Fifo
import PintosKaist.Threads.Alarm
import PintosKaist.Threads.TimerYield
import PintosKaist.Threads.Mlfqs
import PintosKaist.Threads.Synch
import PintosKaist.Threads.Condition
import PintosKaist.Threads.ConditionRuns
import PintosKaist.Threads.Pte
import PintosKaist.Threads.Mmu
import PintosKaist.Threads.MmuOwn
import PintosKaist.Threads.MmuSeparate
import PintosKaist.Userprog.FdTable
import PintosKaist.Userprog.FdTableFacts
import PintosKaist.Userprog.FdAlias
import PintosKaist.Userprog.FileCalls
import PintosKaist.Userprog.Fork
import PintosKaist.Userprog.Wait
import PintosKaist.Userprog.Orphan
import PintosKaist.Userprog.DenyWrite
import PintosKaist.Filesys.Inode
import PintosKaist.Filesys.InodeIo
import PintosKaist.Filesys.Disk
import PintosKaist.Filesys.Volume
import PintosKaist.Filesys.Local
import PintosKaist.Filesys.Owned
import PintosKaist.Filesys.OwnedDir
import PintosKaist.Filesys.Format
import PintosKaist.Filesys.OwnedRuns
import PintosKaist.Vm.State
import PintosKaist.Vm.Ops
import PintosKaist.Vm.Machine
import PintosKaist.Vm.Frames
import PintosKaist.Vm.Spts
import PintosKaist.Vm.Links
import PintosKaist.Vm.LinksRuns
import PintosKaist.Vm.Lazy
import PintosKaist.Vm.Handles
import PintosKaist.Vm.Maps
import PintosKaist.Vm.Wf
import PintosKaist.Vm.Private
import PintosKaist.Vm.Reads
import PintosKaist.Vm.Cow
import PintosKaist.Vm.Paging
import PintosKaist.Vm.PagingRuns
import PintosKaist.Vm.Snapshot
import PintosKaist.Vm.Tenancy
import PintosKaist.Vm.Moves
import PintosKaist.Vm.Synced
import PintosKaist.Vm.SyncedRuns
import PintosKaist.Userprog.FsLock
import PintosKaist.Userprog.FsLockFacts
import PintosKaist.Userprog.FsLockDiscipline
import PintosKaist.LibKernel.List
import PintosKaist.LibKernel.ListRows
import PintosKaist.LibKernel.ListRefine
import PintosKaist.LibKernel.ListOps
import PintosKaist.LibKernel.ListLoops
import PintosKaist.LibKernel.Hash
import PintosKaist.LibKernel.HashTable
import PintosKaist.LibKernel.HashScan
import PintosKaist.LibKernel.HashSet
import PintosKaist.Threads.Palloc
import PintosKaist.Threads.PallocInit
import PintosKaist.Threads.PallocPlan
import PintosKaist.Threads.PallocClaim
import PintosKaist.Threads.PallocFree
import PintosKaist.Threads.PallocSetup
import PintosKaist.Threads.Malloc
import PintosKaist.Threads.MallocSlots
import PintosKaist.Threads.MallocOps
import PintosKaist.Threads.MallocFree
import PintosKaist.Threads.MallocRuns
import PintosKaist.Threads.MallocSizes
import PintosKaist.Lib.Ring
import PintosKaist.Devices.Intq
import PintosKaist.Devices.DiskProgress
import PintosKaist.Devices.IntqRuns
import PintosKaist.Lib.Radix
import PintosKaist.Threads.MmuMap
import PintosKaist.Vm.ZeroFill
import PintosKaist.Threads.CondSignal
import PintosKaist.Lib.Slots
import PintosKaist.Filesys.Directory
import PintosKaist.Filesys.DirMap
import PintosKaist.Filesys.DirRuns
import PintosKaist.Filesys.OpenTable
import PintosKaist.Filesys.OpenCounts
import PintosKaist.Filesys.OpenRuns
import PintosKaist.Filesys.Create
import PintosKaist.Vm.Entries
import PintosKaist.Userprog.CheckBuffer
import PintosKaist.Userprog.CheckAddress
import PintosKaist.Userprog.FdBounds
import PintosKaist.Userprog.FdOpen
import PintosKaist.Lib.While
import PintosKaist.Filesys.FileBytes
import PintosKaist.Userprog.LazyPages
import PintosKaist.Userprog.LoadSegment
import PintosKaist.Userprog.Mmap
import PintosKaist.Userprog.Munmap
import PintosKaist.Vm.Recorded
import PintosKaist.Userprog.PageFault
import PintosKaist.Vm.Steady
import PintosKaist.Threads.WalkEnds
import PintosKaist.Threads.MlfqsRange
import PintosKaist.Threads.MmuBits
import PintosKaist.Threads.MmuRollback
import PintosKaist.Userprog.Reload
import PintosKaist.Userprog.Elf
import PintosKaist.Userprog.ElfHeaders
import PintosKaist.Userprog.ArgsOnStack
import PintosKaist.Libc.Integers
import PintosKaist.Libc.Sort
import PintosKaist.LibKernel.ListSort
import PintosKaist.Threads.RemoveDonation
import PintosKaist.Lib.Visit
import PintosKaist.Threads.MmuForEach
import PintosKaist.Lib.LongDiv
import PintosKaist.Libc.Arithmetic
import PintosKaist.Lib.Overlap
import PintosKaist.Libc.Memmove
import PintosKaist.Lib.ArrayStore
import PintosKaist.Filesys.Calls
import PintosKaist.Filesys.Spared
import PintosKaist.Filesys.Represents
import PintosKaist.Filesys.CallsReturn
import PintosKaist.Filesys.IoReturns
import PintosKaist.Filesys.Restart
import PintosKaist.Filesys.StoreRuns
import PintosKaist.Userprog.Exceptions
import PintosKaist.Userprog.SyscallEntry
import PintosKaist.Userprog.ForkEntry
import PintosKaist.LibKernel.Console
import PintosKaist.Lib.Prog
import PintosKaist.LibKernel.ListSteps
import PintosKaist.Threads.CondSort
import PintosKaist.Threads.TornSort
