import TeamXtremeOS.Lib.Run
import TeamXtremeOS.Lib.Linked
import TeamXtremeOS.Lib.RoundRobin
import TeamXtremeOS.Lib.Request
import TeamXtremeOS.Lib.Terminated
import TeamXtremeOS.Lib.Fifo
import TeamXtremeOS.Lib.ScreenLine
import TeamXtremeOS.Lib.Overlay
import TeamXtremeOS.Lib.While
import TeamXtremeOS.Lib.Stack
import TeamXtremeOS.Disk
import TeamXtremeOS.FileSystem
import TeamXtremeOS.Proc
import TeamXtremeOS.Kernel
import TeamXtremeOS.Preempt
import TeamXtremeOS.LoadFile
import TeamXtremeOS.Shell
import TeamXtremeOS.TextEditor
import TeamXtremeOS.Video
import TeamXtremeOS.Cpu
import TeamXtremeOS.Proof.Modulo
import TeamXtremeOS.Proof.Addressing
import TeamXtremeOS.Proof.Directory
import TeamXtremeOS.Proof.FileCalls
import TeamXtremeOS.Proof.Entries
import TeamXtremeOS.Proof.Files
import TeamXtremeOS.Proof.Lookup
import TeamXtremeOS.Proof.Sharing
import TeamXtremeOS.Proof.Accounting
import TeamXtremeOS.Proof.Walk
import TeamXtremeOS.Proof.Allocation
import TeamXtremeOS.Proof.FullDisk
import TeamXtremeOS.Proof.Undo
import TeamXtremeOS.Proof.LoadFile
import TeamXtremeOS.Proof.Queue
import TeamXtremeOS.Proof.Release
import TeamXtremeOS.Proof.Tick
import TeamXtremeOS.Proof.Start
import TeamXtremeOS.Proof.Boot
import TeamXtremeOS.Proof.Shell
import TeamXtremeOS.Proof.ReadyQueue
import TeamXtremeOS.Proof.Refine
import TeamXtremeOS.Proof.Sleepers
import TeamXtremeOS.Proof.Lifetimes
import TeamXtremeOS.Proof.Isolation
import TeamXtremeOS.Proof.Hit
import TeamXtremeOS.Proof.Yield
import TeamXtremeOS.Proof.Segments
import TeamXtremeOS.Proof.Kill
import TeamXtremeOS.Proof.Wake
import TeamXtremeOS.Proof.Resume
import TeamXtremeOS.Proof.Preempt
import TeamXtremeOS.Proof.QueueCalls
import TeamXtremeOS.Proof.Refusal
import TeamXtremeOS.Proof.LineEdit
import TeamXtremeOS.Proof.Names
import TeamXtremeOS.Proof.ShowProcesses
import TeamXtremeOS.Proof.Fairness
import TeamXtremeOS.Proof.SleepTime
import TeamXtremeOS.Proof.Copy
import TeamXtremeOS.Proof.TextEditor
import TeamXtremeOS.Proof.Video
import TeamXtremeOS.Proof.Cpu
import TeamXtremeOS.Computer
import TeamXtremeOS.Proof.Switch
import TeamXtremeOS.Proof.Store
import TeamXtremeOS.Session
import TeamXtremeOS.Proof.Session
import TeamXtremeOS.Proof.Document
import TeamXtremeOS.Interrupt
import TeamXtremeOS.Proof.Interrupt
import TeamXtremeOS.Proof.Image
import TeamXtremeOS.Calls
import TeamXtremeOS.Proof.Calls
import TeamXtremeOS.Proof.Syscall
