import Chunix.Machine.Memory
import Chunix.Machine.Run
import Chunix.Machine.Act
import Chunix.Linked.Chain
import Chunix.Mm.Basic
import Chunix.Mm.User
import Chunix.Mm.Pages
import Chunix.Task.Basic
import Chunix.Task.Spec
import Chunix.Task.Create
import Chunix.Task.Sched
import Chunix.Task.Safety
import Chunix.Machine.Cpu
import Chunix.Task.List
import Chunix.Task.Running
import Chunix.Task.Family
import Chunix.Task.Kinship
import Chunix.Task.Contract
import Chunix.Task.Switch
import Chunix.Heap.Layout
import Chunix.Heap.Basic
import Chunix.Heap.Rep
import Chunix.Heap.Window
import Chunix.Heap.Malloc
import Chunix.Heap.Free
import Chunix.Mm.Space
import Chunix.Mm.Map
import Chunix.Mm.Copy
import Chunix.Mm.Kvm
import Chunix.Heap.Run
import Chunix.Heap.Client
import Chunix.Heap.Order
import Chunix.Heap.Paging
import Chunix.Heap.Paged
import Chunix.Heap.Tracking
import Chunix.Mm.Uvm
import Chunix.Mm.Clone
import Chunix.Task.Atomic
import Chunix.Task.Clone
import Chunix.Task.Recycle
import Chunix.Mm.Region
import Chunix.Task.Boot
import Chunix.Task.Relink
import Chunix.Fs.Request
import Chunix.Machine.Total
import Chunix.Linked.Ring
import Chunix.Fs.Buffer
import Chunix.Fs.Spec
import Chunix.Fs.Sharing
import Chunix.Fs.Coherence
import Chunix.Fs.Sequential
import Chunix.Machine.Bytes
import Chunix.Sfs.Writer
import Chunix.Sfs.Reader
import Chunix.Sfs.Layout
import Chunix.Sfs.RoundTrip
import Chunix.Sfs.Lookup
import Chunix.Sfs.Areas
import Chunix.Sfs.Inodes
import Chunix.Sfs.Records
import Chunix.Sfs.Scan
import Chunix.Trap.Syscall
import Chunix.Trap.Boundary
import Chunix.Trap.Validate
import Chunix.Linked.Circular
import Chunix.Drv.Console
import Chunix.Exec.Basic
import Chunix.Exec.Stack
import Chunix.Exec.Frame
import Chunix.Exec.Atomic
import Chunix.Exec.Copyout
import Chunix.Exec.Stage
import Chunix.Exec.Load
import Chunix.Exec.Arguments
import Chunix.Exec.Running
import Chunix.Exec.Takeover
import Chunix.Exec.Place
import Chunix.Exec.Image
import Chunix.Mm.View
import Chunix.Trap.Write
import Chunix.Trap.Stream
import Chunix.Trap.Reads
import Chunix.Machine.Traced
import Chunix.Kern.String
import Chunix.Drv.Screen
import Chunix.Kern.Printf
import Chunix.Kern.Time
import Chunix.Drv.Stdin
import Chunix.Linked.Recency
import Chunix.Fs.Eviction
import Chunix.Fs.Ext2
import Chunix.Drv.Keyboard
import Chunix.Kern.Rtc
import Chunix.User.Hsh
import Chunix.Heap.Borrow
import Chunix.Heap.Local
import Chunix.Sfs.Open
import Chunix.Kern.Compare
import Chunix.Trap.Cat
import Chunix.Machine.Interrupt
import Chunix.Trap.Tables
import Chunix.Trap.Isr
import Chunix.Trap.Preempt
import Chunix.Trap.Fork
import Chunix.Task.Fair
import Chunix.Boot.Loader
import Chunix.User.Usys
import Chunix.Trap.Block
