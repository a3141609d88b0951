import Sherlog.Lib.Crc
import Sherlog.Lib.LapLog
import Sherlog.Lib.LittleEndian
import Sherlog.Lib.Window
import Sherlog.Memory.Record
import Sherlog.Memory.Volatile
import Sherlog.Memory.Fifo
import Sherlog.Disk.Layout
import Sherlog.Disk.Persistent
import Sherlog.Disk.Decode
import Sherlog.Disk.Log
import Sherlog.Disk.Cursor
import Sherlog.Disk.Run
import Sherlog.Disk.Reopen
import Sherlog.Disk.Survival
import Sherlog.Disk.ReadAll
import Sherlog.Disk.Crash
import Sherlog.Disk.CursorReads
import Sherlog.Disk.Interleaving
import Sherlog.Disk.Forgery
import Sherlog.Disk.Scan
import Sherlog.Disk.Termination
import Sherlog.Disk.Agreement
import Sherlog.Disk.Sums
import Sherlog.Disk.Invariant
import Sherlog.Lib.Ring
import Sherlog.Memory.Slots
import Sherlog.Memory.ReadyRun
import Sherlog.Memory.Reservations
import Sherlog.Memory.Shift
import Sherlog.Memory.Abandoned
import Sherlog.Memory.Contention
import Sherlog.Memory.Exclusive
import Sherlog.Disk.Damage
import Sherlog.Disk.Batches
import Sherlog.Disk.Length
import Sherlog.Disk.Seek
import Sherlog.Disk.Failure
import Sherlog.Daemon.Flush
import Sherlog.Daemon.Shutdown
import Sherlog.Disk.Opening
import Sherlog.Memory.Overflow
import Sherlog.Disk.Recovery
import Sherlog.Disk.Locking
import Sherlog.Disk.Linear
import Sherlog.Disk.Progress
import Sherlog.Disk.Retention
import Sherlog.Disk.Delivery
import Sherlog.Bindings.Jni
import Sherlog.Bindings.Ios
import Sherlog.Memory.Lifetime
import Sherlog.Daemon.Pipeline
import Sherlog.Disk.Format
import Sherlog.Disk.Seal
import Sherlog.Bindings.Lifecycle
