import OsKernel.Lib.ByteMemory
import OsKernel.Lib.Readers
import OsKernel.Lib.RegisterCode
import OsKernel.Lib.Ring
import OsKernel.Lib.Laid
import OsKernel.Lib.LinkList
import OsKernel.Lib.BuddySystem
import OsKernel.Lib.ParentForest
import OsKernel.Lib.RadixTable
import OsKernel.Lib.RefCount
import OsKernel.Lib.FirstStop
import OsKernel.Lib.ScatteredBytes
import OsKernel.Fs.Buffer
import OsKernel.Fs.BufferCache
import OsKernel.Fs.SharedBuffer
import OsKernel.Fs.SharedShadow
import OsKernel.Fs.SharedSafety
import OsKernel.Fs.Ext4.BufferPool
import OsKernel.Fs.Ext4.PoolRequests
import OsKernel.Fs.Ext4.Htree
import OsKernel.Fs.Ext4.HtreeLookup
import OsKernel.Fs.Ext4.LogicalBlock
import OsKernel.Fs.Ext4.ExtentTree
import OsKernel.Fs.Ext4.NodeRead
import OsKernel.Fs.Ext4.FileBytes
import OsKernel.Fs.Ext4.SparseFile
import OsKernel.Fs.Ext4.IndirectBlocks
import OsKernel.Fs.Ext4.InodeTable
import OsKernel.Fs.Ext4.ReadSubDir
import OsKernel.Fs.Ext4.LinearDir
import OsKernel.Fs.Ext4.LinearLookup
import OsKernel.Fs.Fat.Model
import OsKernel.Fs.Fat.InitSpec
import OsKernel.Fs.Fat.Lookup
import OsKernel.Fs.Fat.LookupSpec
import OsKernel.Fs.Fat.ReadSpec
import OsKernel.Fs.File
import OsKernel.Fs.KernelFiles
import OsKernel.Fs.KernelFilesSpec
import OsKernel.Fs.NormalFile
import OsKernel.Fs.Path
import OsKernel.Fs.PathSplit
import OsKernel.Fs.Dentry
import OsKernel.Fs.Ramfs
import OsKernel.Hsai.Page
import OsKernel.Hsai.Pte
import OsKernel.Hsai.SpinLock
import OsKernel.Hsai.SmpLocks
import OsKernel.Hsai.UartOutput
import OsKernel.Hsai.UartInput
import OsKernel.Klib.Fault
import OsKernel.Klib.BinarySearch
import OsKernel.Klib.Memmove
import OsKernel.Klib.Printer
import OsKernel.Mm.Buddy.Model
import OsKernel.Mm.Buddy.Layout
import OsKernel.Mm.Buddy.Invariant
import OsKernel.Mm.Buddy.SplitMerge
import OsKernel.Mm.Buddy.Alloc
import OsKernel.Mm.Buddy.Free
import OsKernel.Mm.Buddy.Init
import OsKernel.Mm.Buddy.System
import OsKernel.Mm.Buddy.Consistency
import OsKernel.Mm.Buddy.Requests
import OsKernel.Mm.Buddy.Rejects
import OsKernel.Mm.PhysicalMemory
import OsKernel.Mm.PageTable.Model
import OsKernel.Mm.Vmm.Model
import OsKernel.Mm.PageSource
import OsKernel.Mm.PageTable.Tables
import OsKernel.Mm.PageTable.Walk
import OsKernel.Mm.PageMap
import OsKernel.Mm.Vmm.Map
import OsKernel.Mm.Buddy.Source
import OsKernel.Mm.Buddy.Canonical
import OsKernel.Mm.PageTable.Refinement
import OsKernel.Lib.BlockOwners
import OsKernel.Mm.Vmm.Release
import OsKernel.Mm.Vmm.World
import OsKernel.Mm.Vmm.Transfer
import OsKernel.Mm.Vmm.Freewalk
import OsKernel.Mm.Vmm.Grow
import OsKernel.Mm.Vmm.Alloc
import OsKernel.Mm.Vmm.Range
import OsKernel.Mm.Vmm.FreewalkTree
import OsKernel.Mm.Vmm.AllocSpec
import OsKernel.Mm.Vmm.CopySpec
import OsKernel.Mm.Vmm.CopyRoom
import OsKernel.Mm.Memlayout
import OsKernel.Pm.Model
import OsKernel.Pm.AddressSpaces
import OsKernel.Pm.CloseOnExec
import OsKernel.Pm.CloseOnExecCalls
import OsKernel.Pm.CloseOnExecRuns
import OsKernel.Pm.CreateVm
import OsKernel.Syscall.Copyout
import OsKernel.Mm.Vmm.Pages
import OsKernel.Mm.Vmm.Unmap
import OsKernel.Mm.Vmm.UserAccess
import OsKernel.Mm.Vmm.RoundTrip
import OsKernel.Mm.Userspace.Model
import OsKernel.Mm.Userspace.Window
import OsKernel.Mm.Vmm.CopyFaults
import OsKernel.Mm.Userstack.Model
import OsKernel.Mm.Userstack.Push
import OsKernel.Mm.Userstack.Runs
import OsKernel.Mm.Userstack.Pop
import OsKernel.Mm.Userstack.Lowered
import OsKernel.Lib.CircularBuffer
import OsKernel.Hal.Ale
import OsKernel.Hal.AleSpec
import OsKernel.Hal.TrapCode
import OsKernel.Hal.UserTraps
import OsKernel.Hal.UserTrapRuns
import OsKernel.Hal.KernelSwitch
import OsKernel.Hal.VirtioDisk
import OsKernel.Hal.VirtioRequests
import OsKernel.Hal.VirtioRuns
import OsKernel.Pm.Ipc.Pipe
import OsKernel.Pm.Ipc.Signal
import OsKernel.Tm.Sleep
import OsKernel.Pm.Files
import OsKernel.Pm.FileRefs
import OsKernel.Pm.Munmap
import OsKernel.Pm.MunmapSpec
import OsKernel.Pm.FileLifetime
import OsKernel.Pm.DentryUsers
import OsKernel.Pm.DentryCover
import OsKernel.Pm.DentryRuns
import OsKernel.Pm.ProcForest
import OsKernel.Pm.ExitGroup
import OsKernel.Pm.ExecStack
import OsKernel.Pm.ExecArrays
import OsKernel.Pm.ExecBounds
import OsKernel.Pm.LoadSeg
import OsKernel.Pm.LoadSegSpec
import OsKernel.Pm.DescriptorCalls
import OsKernel.Pm.DescriptorFailure
import OsKernel.Pm.ExecAlign
import OsKernel.Pm.ExecImage
import OsKernel.Hsai.TrapFrame
import OsKernel.Pm.Image
import OsKernel.Pm.ImageFork
import OsKernel.Pm.ForkSuccess
import OsKernel.Pm.ImageInv
import OsKernel.Pm.Handover
import OsKernel.Pm.Lifetime
import OsKernel.Pm.Reap
import OsKernel.Pm.Kill
import OsKernel.Pm.Scheduler
import OsKernel.Pm.Unlink
import OsKernel.Syscall.Transfer
import OsKernel.Syscall.TransferSpec
import OsKernel.Syscall.TransferCalls
import OsKernel.Syscall.Sendfile
import OsKernel.Syscall.CopyFileRange
import OsKernel.Syscall.CopyoutBytes
import OsKernel.Syscall.Getcwd
import OsKernel.Syscall.Stat
import OsKernel.Syscall.Splice
import OsKernel.Syscall.Conserve
import OsKernel.Pm.Wakeup
import OsKernel.Mm.Liballoc.Model
import OsKernel.Mm.Liballoc.Chunk
import OsKernel.Mm.Liballoc.Search
import OsKernel.Mm.Liballoc.Invariant
import OsKernel.Mm.Liballoc.Complete
import OsKernel.Mm.Liballoc.Safety
import OsKernel.Mm.Liballoc.Totals
import OsKernel.Mm.KernelHeap
