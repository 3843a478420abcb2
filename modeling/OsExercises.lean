import OsExercises.Barrier.Destroy
import OsExercises.Dice.Cleanup
import OsExercises.BestFit.Runs
import OsExercises.FreeList.Locking
import OsExercises.FreeList.Runs
import OsExercises.Beehive.Termination
import OsExercises.Lib.Exploration
import OsExercises.ProducerConsumer.Wakeup
import OsExercises.Life.Frames
import OsExercises.SpinMutex.Conservation
import OsExercises.Signals.Lost
import OsExercises.Signals.Order
import OsExercises.Chat.Clients
import OsExercises.Scheduler.Leftovers
import OsExercises.Scheduler.Reports
import OsExercises.BestFit.Requests
import OsExercises.BestFit.Calls
import OsExercises.BestFit.DoubleFree
import OsExercises.FreeList.Probe
import OsExercises.Dice.EliminatePlayers
import OsExercises.ProducerConsumer.Overflow
import OsExercises.Chat.Admins
import OsExercises.Scheduler.Counts
import OsExercises.Simulate.FanOut
import OsExercises.Life.Pbm
import OsExercises.Sorting.BubbleSort
import OsExercises.MallocSpy.Message
import OsExercises.SumFile.Lines
import OsExercises.Dice.Barriers
import OsExercises.Dice.Game
import OsExercises.FreeList.BenchSafety
import OsExercises.Counter.Total
import OsExercises.BestFit.RoundTrip
import OsExercises.SpinMutex.Fifo
import OsExercises.SumFile.Program
import OsExercises.Shift.Children
import OsExercises.Beehive.Duration
import OsExercises.ProducerConsumer.Work
import OsExercises.FreeList.BenchThreads
import OsExercises.Accumulate.ForkAndThread
