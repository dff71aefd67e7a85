import Onix.Sched.TaskLists
import Onix.Sched.Idle
import Onix.Sched.Slice
import Onix.Sched.SleepQueue
import Onix.Sched.Uptime
import Onix.Sched.SpinLockSafe
import Onix.Sched.WakeUp
import Onix.Sched.Fifo
import Onix.Sched.Dominated
import Onix.Sched.InterruptFlag
import Onix.Sched.InsertSort
import Onix.List.Sequences
import Onix.Memory.Extents
import Onix.Memory.Translation
import Onix.Memory.Regions
import Onix.Memory.Release
import Onix.Console.Runs
import Onix.Time.Overflow
import Onix.Time.Alarm
import Onix.Boot.Gdt
import Onix.Entry.Transparent
import Onix.Format.Compositional
import Onix.Format.Buffer
import Onix.Sched.ThreadsLog
import Onix.Interrupt.Waiting
import Onix.Boot.Loader
import Onix.Entry.Exception
import Onix.Strings.Search
import Onix.Time.BeepCalls
import Onix.Print.Messages
import Onix.Entry.Named
import Onix.Entry.Allocated
import Onix.Entry.Ports
import Onix.Time.Startup
