import ShmRings.Lib.System
import ShmRings.Lib.Atomic
import ShmRings.Lib.Window
import ShmRings.Lib.Coherent
import ShmRings.Model.Header
import ShmRings.Model.Ring
import ShmRings.Model.Loan
import ShmRings.Threads.Machine
import ShmRings.Threads.Producer
import ShmRings.Threads.Safety
import ShmRings.Lib.Broadcast
import ShmRings.Threads.Linear
import ShmRings.Threads.Loans
import ShmRings.Threads.ClaimOrder
import ShmRings.Threads.CommitOrder
import ShmRings.Calls.Spec
import ShmRings.Calls.Sound
import ShmRings.Calls.Pipeline
import ShmRings.Calls.Agree
import ShmRings.Lib.Cells
import ShmRings.Model.Open
import ShmRings.Calls.Geometry
import ShmRings.Calls.Touch
import ShmRings.Calls.Hostile
import ShmRings.Model.Notify
import ShmRings.Threads.Wakeup
import ShmRings.Threads.Solo
import ShmRings.Calls.Available
import ShmRings.Threads.Rogue
import ShmRings.Model.Status
import ShmRings.Calls.Status
import ShmRings.Model.Disk
import ShmRings.Calls.Create
import ShmRings.Calls.Reopen
import ShmRings.Model.Loom
import ShmRings.Calls.Double
import ShmRings.Threads.Monitor
import ShmRings.Threads.Rounds
import ShmRings.Threads.Wrap
import ShmRings.Model.Opening
import ShmRings.Threads.Opening
import ShmRings.Lib.Tally
import ShmRings.Threads.Gate
import ShmRings.Threads.Cleanup
import ShmRings.Lib.Release
import ShmRings.Lib.Request
import ShmRings.Model.Timeout
import ShmRings.Threads.Deadline
import ShmRings.Model.Eventfd
import ShmRings.Calls.Retry
import ShmRings.Threads.TimedPop
import ShmRings.Threads.Orderings
import ShmRings.Threads.RaceFree
import ShmRings.Threads.SharedLoans
import ShmRings.Threads.LoanRaces
import ShmRings.Lib.Mortal
import ShmRings.Threads.Crash
import ShmRings.Threads.Handshake
import ShmRings.Lib.Progress
import ShmRings.Threads.Progress
import ShmRings.Threads.LoomThreads
import ShmRings.Threads.Lives
import ShmRings.Threads.Restart
import ShmRings.Lib.Register
import ShmRings.Threads.Updates
import ShmRings.Lib.Segment
import ShmRings.Model.Mapped
import ShmRings.Calls.Mapped
import ShmRings.Threads.Popping
import ShmRings.Threads.Peeking
import ShmRings.Threads.Unbroken
