import CS402.Lib.Trans
import CS402.Lib.Buddy
import CS402.Lib.Chain
import CS402.Lib.Ring
import CS402.Lib.Layers
import CS402.Lib.Stretches
import CS402.Proc.Kmutex
import CS402.Proc.Dead
import CS402.Proc.Wait
import CS402.Proc.Queues
import CS402.Proc.Family
import CS402.Proc.Handoff
import CS402.Proc.Reap
import CS402.Proc.Pids
import CS402.Mm.PinLists
import CS402.Mm.Objects
import CS402.Mm.Put
import CS402.Mm.Fetch
import CS402.Mm.Index
import CS402.Mm.Pageout
import CS402.Mm.Page
import CS402.Mm.Buddies
import CS402.Mm.Blocks
import CS402.Mm.Freecount
import CS402.Mm.Shortage
import CS402.Mm.Slab
import CS402.Mm.SlabLists
import CS402.Mm.SlabReclaim
import CS402.Mm.SlabAlloc
import CS402.Mm.Kmalloc
import CS402.Mm.Pagedir
import CS402.Mm.Translation
import CS402.Mm.Boot
import CS402.Vm.Access
import CS402.Vm.Syscall
import CS402.Vm.Space
import CS402.Vm.Search
import CS402.Vm.Copy
import CS402.Vm.Atomic
import CS402.Vm.Fork
import CS402.Vm.Break
import CS402.Vm.Lifecycle
import CS402.Vm.Reclaim
import CS402.Vm.Shared
import CS402.Vm.Reverse
import CS402.Vm.Shadowd
import CS402.Fs.Ramfs
import CS402.Fs.Namev
import CS402.Fs.Syscall
import CS402.Fs.Cells
import CS402.Fs.Resolve
import CS402.Fs.Names
import CS402.Fs.Paths
import CS402.Fs.Agree
import CS402.Fs.Link
import CS402.Fs.Remove
import CS402.Fs.Live
import CS402.My402List.Basic
import CS402.My402List.Links
import CS402.My402List.Sequence
import CS402.Threading.Emulation
import CS402.Threading.Tokens
import CS402.Threading.Shutdown
import CS402.Warmup1.Display
import CS402.Warmup1.Sort
