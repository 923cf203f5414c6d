import FarsightDriver.Foundation.BoundedFifo
import FarsightDriver.Que.Basic
import FarsightDriver.Que.Refinement
import FarsightDriver.Fifo.Sequential
import FarsightDriver.Foundation.TestAndSet
import FarsightDriver.Exclusive.Spinlock
import FarsightDriver.Exclusive.Mutex
import FarsightDriver.Exclusive.Irq
import FarsightDriver.Exclusive.Atomic
import FarsightDriver.Fifo.Blocking
import FarsightDriver.Foundation.WaitQueue
import FarsightDriver.Fifo.Wakeup
import FarsightDriver.Fifo.Solo
import FarsightDriver.Fifo.Delivery
import FarsightDriver.Foundation.Patch
import FarsightDriver.RamDisk.Basic
import FarsightDriver.RamDisk.DataLaw
import FarsightDriver.Fifo.Mmap
import FarsightDriver.Foundation.Words
import FarsightDriver.Rtc.Basic
import FarsightDriver.Rtc.RoundTrip
import FarsightDriver.Adc.Basic
import FarsightDriver.Adc.Freshness
import FarsightDriver.Rtc.Isolation
import FarsightDriver.Adc.Stranded
import FarsightDriver.Foundation.Tickets
import FarsightDriver.Key.Basic
import FarsightDriver.Key.Presses
import FarsightDriver.Key.Pending
import FarsightDriver.RamDisk.Status
import FarsightDriver.RamDisk.Split
import FarsightDriver.RamDisk.Bounds
import FarsightDriver.RamDisk.Termination
import FarsightDriver.Foundation.Masked
import FarsightDriver.Pwm.Basic
import FarsightDriver.Pwm.Tone
import FarsightDriver.Pwm.BadPointer
import FarsightDriver.Pwm.Music
import FarsightDriver.Rtc.PartialSet
import FarsightDriver.Rtc.Snapshot
import FarsightDriver.Foundation.Resources
import FarsightDriver.Key.Debounce
import FarsightDriver.Key.Lifetime
import FarsightDriver.Que.Loops
import FarsightDriver.Fifo.Sizes
import FarsightDriver.Led.Mapping
import FarsightDriver.Led.Minors
import FarsightDriver.Pwm.Lifetime
import FarsightDriver.Exclusive.Semaphore
import FarsightDriver.Fifo.Accesses
import FarsightDriver.Fifo.Serial
import FarsightDriver.Adc.Lifetime
import FarsightDriver.Chrdev.Lifetime
import FarsightDriver.RamDisk.Elevator
import FarsightDriver.RamDisk.Lifetime
import FarsightDriver.RamDisk.Sessions
import FarsightDriver.Adc.Waiting
import FarsightDriver.Key.Waiting
import FarsightDriver.Fifo.Listener
import FarsightDriver.Fifo.Poll
import FarsightDriver.Foundation.Calendar
import FarsightDriver.Rtc.App
import FarsightDriver.Foundation.Updates
import FarsightDriver.Led.Concurrent
import FarsightDriver.Pwm.Concurrent
import FarsightDriver.Fifo.Select
import FarsightDriver.Rtc.Control
import FarsightDriver.Rtc.Overlap
import FarsightDriver.Fifo.Doors
