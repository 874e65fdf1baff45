import CssLab.Lib.Memory
import CssLab.Lib.Assembly
import CssLab.Lib.Fallible
import CssLab.Mcc.Ast
import CssLab.Mcc.Parser
import CssLab.Mcc.Emit
import CssLab.Mcc.Image
import CssLab.Mcc.Riscv.Compile
import CssLab.Mcc.Riscv.Machine
import CssLab.Mcc.Riscv.Correct
import CssLab.Mcc.Riscv.Frame
import CssLab.Mcc.X64.Compile
import CssLab.Mcc.X64.Machine
import CssLab.Mcc.X64.Correct
import CssLab.Mcc.X64.Stack
import CssLab.Mcc.X64.Contract
import CssLab.Mcc.Agree
import CssLab.Mcc.Labels
import CssLab.Mcc.History
import CssLab.Mcc.Riscv.FrameSize
import CssLab.Lib.Counter
import CssLab.Lib.Transition
import CssLab.Sync.Spinlock
import CssLab.Lib.Chain
import CssLab.LockFree.Node
import CssLab.LockFree.Queue
import CssLab.LockFree.QueueLinks
import CssLab.LockFree.QueueFifo
import CssLab.Lib.Lifo
import CssLab.LockFree.Stack
import CssLab.LockFree.StackLinear
import CssLab.LockFree.StackSize
import CssLab.Lib.Callers
import CssLab.LockFree.StackTest
import CssLab.Lib.Heap
import CssLab.Lib.Ledger
import CssLab.Lib.Mutex
import CssLab.Locked.Stack
import CssLab.Locked.StackLinear
import CssLab.Locked.StackTest
import CssLab.Hash.Table
import CssLab.Hash.Delete
import CssLab.Hash.Buckets
import CssLab.Hash.Threads
import CssLab.Hash.Chains
import CssLab.Hash.Guarded
import CssLab.Hash.Concurrent
import CssLab.Hash.Loops
import CssLab.Hash.Phases
import CssLab.Hash.TableTest
import CssLab.Lib.Ring
import CssLab.Sync.ProducerConsumer
import CssLab.Sync.Delivery
import CssLab.Sync.Wakeup
import CssLab.Lib.Census
import CssLab.Sync.Sbuf
import CssLab.Sync.SbufFifo
import CssLab.Sync.SbufIndex
import CssLab.Sync.Sema
import CssLab.Lib.Descriptors
import CssLab.Lib.Process
import CssLab.Lib.ProcessJoin
import CssLab.Shell.Ast
import CssLab.Shell.Run
import CssLab.Shell.Waiting
import CssLab.Lib.ProcessPoints
import CssLab.Lib.ProcessOnce
import CssLab.Shell.Plumbing
import CssLab.Shell.Parser
import CssLab.Shell.Grammar
import CssLab.Shell.Targets
import CssLab.Shell.Pipeline
import CssLab.Lib.Block
import CssLab.Tunnel.Packet
import CssLab.Tunnel.Delivery
import CssLab.Lib.Words
import CssLab.Lib.Http
import CssLab.Web.Server
import CssLab.Web.Connection
import CssLab.Web.Leaks
import CssLab.Lib.Paths
import CssLab.Web.Root
import CssLab.Lib.Printf
import CssLab.Lib.HttpReading
import CssLab.Web.Request
import CssLab.Sniffer.Packet
import CssLab.Sniffer.Counters
import CssLab.Sniffer.Leftovers
import CssLab.Lib.Framing
import CssLab.Square.Answer
import CssLab.Square.Udp
import CssLab.Square.Client
import CssLab.Square.Tcp
import CssLab.Tunnel.Session
import CssLab.Tunnel.Verdict
import CssLab.Lib.OnesComplement
import CssLab.Forge.Packet
import CssLab.Forge.Icmp
import CssLab.Forge.Checksum
import CssLab.Forge.Transport
import CssLab.Forge.Udp
import CssLab.Forge.Tcp
import CssLab.Shell.Segments
import CssLab.Shell.Atom
import CssLab.Lib.OpenFiles
import CssLab.Shell.Redirect
import CssLab.Sniffer.MacFilter
import CssLab.Sniffer.PortFilter
import CssLab.Sniffer.Payload
import CssLab.Lib.Precedence
import CssLab.Lib.Munch
import CssLab.Mcc.Scanner
import CssLab.Mcc.Print
import CssLab.MiniLib.Printint
import CssLab.MiniLib.Printf
import CssLab.Lib.Enumeration
import CssLab.Mcc.SetArray
import CssLab.Mcc.SetBound
import CssLab.Lib.ShiftReduce
import CssLab.Mcc.Grammar
import CssLab.Mcc.GrammarSound
import CssLab.Mcc.GrammarComplete
import CssLab.Mcc.ParserEnds
import CssLab.Mcc.StmPrint
import CssLab.Shell.GrammarComplete
import CssLab.Shell.ParserEnds
import CssLab.Shell.Scanner
import CssLab.Shell.Session
import CssLab.Shell.CmdPrint
import CssLab.Lib.LostUpdate
import CssLab.Sync.RaceCondition
import CssLab.Sync.Atomic
import CssLab.Sync.LockedCounter
