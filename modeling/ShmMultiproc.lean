import ShmMultiproc.Lib.Machine
import ShmMultiproc.Lib.Cyclic
import ShmMultiproc.Ring
import ShmMultiproc.Fifo
import ShmMultiproc.Window
import ShmMultiproc.Interleave
import ShmMultiproc.RingInv
import ShmMultiproc.Delivery
import ShmMultiproc.TakeEnds
import ShmMultiproc.Queue
import ShmMultiproc.Restart
import ShmMultiproc.Wake
import ShmMultiproc.FanOut
import ShmMultiproc.Master
import ShmMultiproc.OneEach
import ShmMultiproc.Poll
import ShmMultiproc.Access
import ShmMultiproc.HandOff
import ShmMultiproc.Records
import ShmMultiproc.Routine
import ShmMultiproc.Kill
import ShmMultiproc.Retry
import ShmMultiproc.Sigchld
import ShmMultiproc.Lib.Buckets
import ShmMultiproc.Timers
import ShmMultiproc.Ahead
import ShmMultiproc.Lined
import ShmMultiproc.Parted
import ShmMultiproc.Resize
import ShmMultiproc.Stranded
import ShmMultiproc.OpenEnds
import ShmMultiproc.Closures
import ShmMultiproc.Accepts
import ShmMultiproc.Lib.Decimal
import ShmMultiproc.Names
import ShmMultiproc.Pass
import ShmMultiproc.Lib.Channel
import ShmMultiproc.Backoff
import ShmMultiproc.Linear
import ShmMultiproc.Redeliver
import ShmMultiproc.WaitFree
import ShmMultiproc.Heal
import ShmMultiproc.Lib.Registry
import ShmMultiproc.Owners
import ShmMultiproc.Broadcast
import ShmMultiproc.Drain
import ShmMultiproc.Fires
import ShmMultiproc.Period
import ShmMultiproc.Throttle
import ShmMultiproc.Lib.Mutex
import ShmMultiproc.Sleep
import ShmMultiproc.Threads
import ShmMultiproc.Loop
