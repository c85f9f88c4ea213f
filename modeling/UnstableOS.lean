import UnstableOS.Mm.Pmm.Runs
import UnstableOS.Rbtree.Runs
import UnstableOS.Mm.Mmap.Runs
import UnstableOS.Fs.Mount
import UnstableOS.Fs.PipeEnds
import UnstableOS.Fs.RecordLock
import UnstableOS.Fs.Tmpfs.Tree
import UnstableOS.Fs.OpenatRefs
import UnstableOS.Fs.ParentPath
import UnstableOS.Fs.Fat.Unlink
import UnstableOS.Fs.Fat.Resize
import UnstableOS.Kernel.RwSpinlock
import UnstableOS.Kernel.SleepQueue
import UnstableOS.Mm.Kalloc.FreeMemory
import UnstableOS.Kernel.ProcessGroups
import UnstableOS.Kernel.Scheduler.Fairness
import UnstableOS.Fs.Descriptors
import UnstableOS.Kernel.ThreadQueue
import UnstableOS.Pthread.Once
import UnstableOS.Pthread.Cond
import UnstableOS.Pthread.Rwlock
import UnstableOS.Pthread.Barrier
import UnstableOS.Kernel.Console.Bounds
import UnstableOS.Kernel.Wait
import UnstableOS.Block.Hd.Transparent
import UnstableOS.Rbtree.Calls
import UnstableOS.Fs.PipeAtomic
import UnstableOS.Mm.Mmap.Create
import UnstableOS.Fs.Ext2.Runs
import UnstableOS.Libc.Stdio.Memory
import UnstableOS.Mm.Mmap.Admission
import UnstableOS.Fs.Fat.Init
import UnstableOS.Fs.Permissions
import UnstableOS.Libc.Time
import UnstableOS.Libc.Atexit
import UnstableOS.Rtld.Tls
