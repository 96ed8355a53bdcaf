import BachScheduler.CQsortCorrectness
import BachScheduler.HeapRun
import BachScheduler.Lib.Wp
import BachScheduler.Core
import BachScheduler.DecisionSafety
import BachScheduler.Closing
import BachScheduler.EventLoop
import BachScheduler.Notifications
import BachScheduler.Effects
import BachScheduler.Lib.Census
import BachScheduler.Life
import BachScheduler.LifeInvariants
import BachScheduler.Quanta
import BachScheduler.Starts
import BachScheduler.Rebalance
import BachScheduler.Handlers
import BachScheduler.Boot
import BachScheduler.Counting
import BachScheduler.Marks
import BachScheduler.Totals
import BachScheduler.Lib.Lineage
import BachScheduler.Slots
import BachScheduler.Budgets
import BachScheduler.Laggards
import BachScheduler.Choices
import BachScheduler.Preferences
import BachScheduler.Samples
import BachScheduler.Finishes
import BachScheduler.SchedulingTime
import BachScheduler.Lengths
import BachScheduler.Clocks
import BachScheduler.ClockAccounts
import BachScheduler.Expiries
import BachScheduler.Turns
import BachScheduler.HeapPopElem
import BachScheduler.ResetQt
import BachScheduler.Lib.FreeRunning
import BachScheduler.MemoryChannels
import BachScheduler.Rmids
import BachScheduler.Lib.CString
import BachScheduler.Lib.Decimal
import BachScheduler.IntList
import BachScheduler.Lib.Lines
import BachScheduler.Targets
import BachScheduler.ConfFile
import BachScheduler.ProgNames
import BachScheduler.HashStore
import BachScheduler.HashRuns
import BachScheduler.DynarrayRuns
import BachScheduler.DynarrayLevels
import BachScheduler.Balances
import BachScheduler.Cores
import BachScheduler.LinuxInvariants
import BachScheduler.LinuxHooks
import BachScheduler.LinuxRuns
import BachScheduler.LinuxSlots
import BachScheduler.Monitoring
import BachScheduler.Handles
import BachScheduler.LifeCharges
import BachScheduler.Charges
import BachScheduler.Lib.Chronicle
import BachScheduler.Shells
import BachScheduler.Shutdown
import BachScheduler.Drift
import BachScheduler.Biographies
import BachScheduler.Lib.Bytes
import BachScheduler.SharedMemory
import BachScheduler.Lib.Interleaving
import BachScheduler.Freezer
import BachScheduler.Applications
import BachScheduler.Launches
import BachScheduler.Requests
import BachScheduler.ExitStatus
import BachScheduler.Finalization
import BachScheduler.ReadyEvents
import BachScheduler.Lib.Simulation
