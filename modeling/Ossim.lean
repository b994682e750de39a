import Ossim.Sched.Order
import Ossim.Sched.Fairness
import Ossim.Sched.WorkConserving
import Ossim.Sched.QueueRuns
import Ossim.Timer.Deadlock
import Ossim.Simulator.Shutdown
import Ossim.Mem.Overlap
import Ossim.Mem.Isolation
import Ossim.Mem.Areas
import Ossim.Mem.FrameNumbers
import Ossim.Mem.Release
import Ossim.Mem.Replacement
import Ossim.Mem.Protection
import Ossim.Mem.DeviceModes
import Ossim.Mem.Formatting
import Ossim.Mem.PageWalk
import Ossim.Mem.AllocSize
import Ossim.Mem.Leaks
import Ossim.Mem.PageCopy
import Ossim.Mem.Memmap
import Ossim.Mem.AccessStatus
import Ossim.Simulator.Quantum
import Ossim.Simulator.Arrival
import Ossim.Loader.RoundTrip
import Ossim.Loader.Complete
import Ossim.Simulator.Makespan
import Ossim.Simulator.Liveness
import Ossim.System.ReadCalls
import Ossim.System.Replay
import Ossim.System.PageBudget
import Ossim.Simulator.Return
import Ossim.Boot.Start
import Ossim.Sched.Share
import Ossim.Simulator.Response
import Ossim.System.HeapSize
