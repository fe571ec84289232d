import Xv6.Lib.Bytes
import Xv6.Lib.Sum
import Xv6.Lib.Run
import Xv6.Lib.Prog
import Xv6.Lib.Graph
import Xv6.Lib.Bits
import Xv6.Lib.Wp
import Xv6.Lib.Tenancy
import Xv6.Param
import Xv6.Log.Recovery
import Xv6.Log.Group
import Xv6.Log.Reservation
import Xv6.Proc.Table
import Xv6.Proc.Steps
import Xv6.Proc.Lifecycle
import Xv6.Proc.Slots
import Xv6.Proc.Pids
import Xv6.Proc.Cpu
import Xv6.Proc.OneCpu
import Xv6.Proc.Spinlock
import Xv6.Proc.RoundRobin
import Xv6.Proc.Sleep
import Xv6.Proc.Monitor
import Xv6.Proc.Sleeplock
import Xv6.Proc.KilledWait
import Xv6.Proc.Kill
import Xv6.Proc.TicketTable
import Xv6.Proc.Tickets
import Xv6.Proc.Getpinfo
import Xv6.Dir.State
import Xv6.Dir.Calls
import Xv6.Dir.Ledger
import Xv6.Dir.Base
import Xv6.Dir.Image
import Xv6.Dir.Deadlock
import Xv6.Dir.Alone
import Xv6.Dir.Lookup
import Xv6.Dir.Tree
import Xv6.Dir.Entries
import Xv6.Dir.Links
import Xv6.Dir.Reachable
import Xv6.Dir.Bytes
import Xv6.Dir.Notes
import Xv6.Dir.Format
import Xv6.File.State
import Xv6.File.Hand
import Xv6.File.Refs
import Xv6.Disk.State
import Xv6.Disk.Layout
import Xv6.Disk.Room
import Xv6.Disk.Blocks
import Xv6.Disk.Inodes
import Xv6.Disk.Read
import Xv6.Disk.Write
import Xv6.Disk.Free
import Xv6.Disk.Runs
import Xv6.Disk.Bitmap
import Xv6.Disk.Contents
import Xv6.Disk.Filewrite
import Xv6.Disk.Logged
import Xv6.Disk.Shared
import Xv6.Inode.Cache
import Xv6.Bio.Cache
import Xv6.Bio.Structure
import Xv6.Bio.Commit
import Xv6.Bio.Coherence
import Xv6.Bio.Settled
import Xv6.Bio.Install
import Xv6.Ide.Agree
import Xv6.Lib.Circle
import Xv6.Lib.Paired
import Xv6.Lib.Queue
import Xv6.Lib.Loop
import Xv6.Lib.Ring
import Xv6.Lib.Splice
import Xv6.Pipe.State
import Xv6.Pipe.Fifo
import Xv6.Pipe.Wakeup
import Xv6.Ulib.Memmove
import Xv6.Umalloc.Heap
import Xv6.Umalloc.Tiles
import Xv6.Umalloc.Free
import Xv6.Umalloc.Malloc
import Xv6.Umalloc.Integrity
import Xv6.Sh.Parse
import Xv6.Sh.Grammar
import Xv6.Sh.Lex
import Xv6.Sh.Sound
import Xv6.Sh.Complete
import Xv6.Sh.Shell
import Xv6.Sh.Runcmd
import Xv6.Sh.Plumbing
import Xv6.Sh.Pipeline
import Xv6.Sh.Redirections
import Xv6.Console.State
import Xv6.Console.Editor
import Xv6.Console.Reader
import Xv6.Grep.Match
import Xv6.Grep.Lines
import Xv6.Boot.Mp
import Xv6.Vm.Layout
import Xv6.Vm.State
import Xv6.Vm.Tree
import Xv6.Vm.Dealloc
import Xv6.Vm.Space
import Xv6.Vm.Alloc
import Xv6.Vm.Sbrk
import Xv6.Vm.Copyout
import Xv6.Vm.Kvm
import Xv6.Vm.Copyuvm
import Xv6.Syscall.Args
