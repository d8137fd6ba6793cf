import Snare.Capture.Checksum
import Snare.Capture.Order
import Snare.Env.Block
import Snare.Fs.Escalation
import Snare.Fs.Flock
import Snare.Fs.Listing
import Snare.Fs.LockBytes
import Snare.Fs.LockHeld
import Snare.Fs.OpenFiles
import Snare.Fs.Renamed
import Snare.Fs.Resolve
import Snare.Fs.SparseStore
import Snare.Limits.Truesize
import Snare.Limits.Wired
import Snare.Net.AcceptQueue
import Snare.Net.HostUdpTables
import Snare.Net.QdiscTable
import Snare.Net.RxAccounting
import Snare.Net.Shares
import Snare.Net.Takers
import Snare.Net.UdpMirror
import Snare.Random
import Snare.RealFd.Rewatch
import Snare.RealFd.Watched
import Snare.Sched.Handed
import Snare.Sched.Heeded
import Snare.Sched.MutexOwners
import Snare.Sched.Sleep
import Snare.Signals.NotLost
import Snare.Stream.Books
import Snare.Stream.Progress
import Snare.Stream.Readiness
import Snare.Stream.Transmit
import Snare.Tester.Cyclic
import Snare.Tester.Outbox
import Snare.Time.Early
import Snare.Time.Line
import Snare.Time.Spins
import Snare.Time.Timelines
import Snare.Time.Timerfd
import Snare.Tracefs.References
import Snare.Tz.Glibc
import Snare.Tz.YearEnd
import Snare.Wake.InPlace
import Snare.Wake.PendingRing
