import UnixProg.Pthreads.BarrierDeadlock
import UnixProg.Pthreads.BarrierFixedRounds
import UnixProg.CondVariables.QueueSimulation
import UnixProg.Race.AtomicAdd
import UnixProg.Race.SemFixedRace
import UnixProg.Race.PosixSemFixedRace
import UnixProg.FileLocking.FcntlLocking
import UnixProg.FileLocking.RunSh
import UnixProg.Select.NonBlockingConnect
import UnixProg.Semaphores.TalkingHeads
import UnixProg.Semaphores.TalkingTurns
import UnixProg.FileLocking.SharedOffset
import UnixProg.Select.Accounting
import UnixProg.Pthreads.Atfork
import UnixProg.Lib.RecordLock
import UnixProg.Race.FcntlFixedRace
import UnixProg.Signals.PingPong
import UnixProg.Lib.SemaphoreHistory
import UnixProg.Semaphores.PosixUnnamedSem
import UnixProg.Race.AtomicAddSum
import UnixProg.Udp.ClientServer
import UnixProg.Lib.Descriptor
import UnixProg.Pipe.PipeAndFork
import UnixProg.Lib.ProcessRule
import UnixProg.Race.PosixSemShutdown
import UnixProg.Race.SemReports
import UnixProg.Semaphores.NamedSem
import UnixProg.FileLocking.LockOwner
import UnixProg.Lib.AtomicObject
import UnixProg.Lib.RwLock
import UnixProg.Pthreads.PthreadRwlock
import UnixProg.Signals.PingPongStartup
import UnixProg.Lib.Signal
import UnixProg.Signals.Sigwait
import UnixProg.Signals.Sigqueue
import UnixProg.Read.Redirect
import UnixProg.FileLocking.SetUp
import UnixProg.Pthreads.BarrierCounter
import UnixProg.CondVariables.QueueBounds
import UnixProg.Getopt.Counterparts
import UnixProg.Read.Cat
import UnixProg.Read.CatBuffer
import UnixProg.FileLocking.LockStatus
import UnixProg.Select.HostTable
import UnixProg.Select.Progress
import UnixProg.Select.IndexSafety
import UnixProg.Signals.EventLoop
import UnixProg.Race.AtomicAddExpected
import UnixProg.Select.BusyWait
import UnixProg.Tcp.CopyLoop
import UnixProg.Udp.UdpServer
import UnixProg.Read.Readdir
import UnixProg.Lib.MappedFile
import UnixProg.Mmap.Reverse
import UnixProg.Mmap.Aligned
import UnixProg.Resolving.Passive
import UnixProg.FileLocking.Lockf
import UnixProg.Lib.SignedInt
import UnixProg.Pthreads.Millisleep
import UnixProg.Lib.BarrierObject
import UnixProg.Pthreads.PthreadBarrier
import UnixProg.Race.PlainRace
import UnixProg.Race.Serialisation
import UnixProg.Lib.Unlocked
import UnixProg.Mutexes.RaceFixed
import UnixProg.Lib.Credentials
import UnixProg.Uid.Setreuid
import UnixProg.Setuid.ScreateFile
import UnixProg.Lib.PipeObject
import UnixProg.Pipe.Countdown
import UnixProg.Fifo.OpenSleepRead
import UnixProg.Signals.Alarm
import UnixProg.Signals.SignalVsSigaction
import UnixProg.Signals.Sigpending
import UnixProg.Lib.ChildStatus
import UnixProg.Wait.Waitpid
import UnixProg.Lib.InputStream
import UnixProg.Select.SelectServer
import UnixProg.Select.SelectProgress
import UnixProg.Pthreads.ThreadArgs
import UnixProg.Pthreads.ThreadJoins
import UnixProg.UnixSocket.Conversation
import UnixProg.Lib.FlowControl
import UnixProg.Select.WriteSelect
import UnixProg.Select.WriteProgress
import UnixProg.Inetd.AcceptRw
