import Myv6.Lib.Run
import Myv6.Lib.Ring
import Myv6.Pgroup.State
import Myv6.Lib.Tally
import Myv6.Pgroup.Account
import Myv6.Pgroup.Members
import Myv6.Process.State
import Myv6.Process.Step
import Myv6.Process.Keep
import Myv6.Process.Sched
import Myv6.Process.Tree
import Myv6.Process.Wait
import Myv6.Lib.WaitFor
import Myv6.Console.Deadlock
import Myv6.Pgroup.Scan
import Myv6.Process.Reap
import Myv6.Process.Reaping
import Myv6.Lib.Walk
import Myv6.Process.Count
import Myv6.Process.LockOrder
import Myv6.RwLock.Inv
import Myv6.Intr.Discipline
import Myv6.Pgroup.Occupy
import Myv6.Pgroup.Flex
import Myv6.Pgroup.Request
import Myv6.Pgroup.RoundRobin
import Myv6.Vm.Refine
import Myv6.Vm.Table
import Myv6.Pmem.Brk
import Myv6.Loader.Image
import Myv6.Vm.Copy
import Myv6.Vm.FreeTable
import Myv6.Vm.Interval
import Myv6.Vm.DeepCopy
import Myv6.Pmem.Intact
import Myv6.Vm.CopyStr
import Myv6.Loader.ReadOnly
import Myv6.Pgroup.Release
import Myv6.Process.Ticks
import Myv6.Uart.Input
import Myv6.Console.Lines
import Myv6.Process.Pids
import Myv6.Process.Kill
import Myv6.Pmem.Argv
import Myv6.Sleep.Lost
