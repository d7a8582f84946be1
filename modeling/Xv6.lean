import Xv6.LogRecovery
import Xv6.LogReserve
import Xv6.SignalFlag
import Xv6.SignalMask
import Xv6.StopLoop
import Xv6.DirDangling
import Xv6.DirAccount
import Xv6.StoreOwn
import Xv6.SignalKilled
import Xv6.SignalRace
import Xv6.BsemSafe
import Xv6.BsemMutex
import Xv6.BsemAlloc
import Xv6.ProcKill
import Xv6.ProcReap
import Xv6.PipeWait
import Xv6.LogGroup
import Xv6.StoreArray
import Xv6.ItableOnce
import Xv6.BcacheCommit
import Xv6.VmTable
import Xv6.ExecPass
import Xv6.ExecSignal
import Xv6.SignalConsume
import Xv6.SignalProcmask
import Xv6.SignalFork
import Xv6.FileShare
import Xv6.ConsoleStream
import Xv6.VirtioSafe
import Xv6.PipeRead
import Xv6.FileExact
import Xv6.GrepLines
import Xv6.FileRead
import Xv6.DirWrap
import Xv6.TxnCount
import Xv6.TxnTorn
import Xv6.DirentRun
import Xv6.PathLookup
import Xv6.PathSkip
import Xv6.ShWords
import Xv6.Malloc
