import OsCourse.Homework.Threshold
import OsCourse.Assembly.Names
import OsCourse.Assembly.Labels
import OsCourse.Assembly.Heap
import OsCourse.Lib.Transition
import OsCourse.Lib.ArrayQueue
import OsCourse.Lib.Counting
import OsCourse.Lib.Text
import OsCourse.Lib.Runs
import OsCourse.Lib.Memory
import OsCourse.Lib.Schedule
import OsCourse.Lib.FirstMax
import OsCourse.Lib.Locks
import OsCourse.Lib.Observe
import OsCourse.Lib.Traces
import OsCourse.Lib.Tickets
import OsCourse.Lib.Named
import OsCourse.Lib.Circles
import OsCourse.Lib.Fifo
import OsCourse.Lib.Observer
import OsCourse.Lib.Loop
import OsCourse.Lib.While
import OsCourse.Lib.Istream
import OsCourse.Lib.Riscv
import OsCourse.Lib.Permit
import OsCourse.Lib.Paths
import OsCourse.Programmers.Tasks
import OsCourse.Programmers.Run
import OsCourse.Programmers.Tokens
import OsCourse.Programmers.Mutex
import OsCourse.Programmers.Events
import OsCourse.Programmers.Waiting
import OsCourse.Programmers.Verdicts
import OsCourse.Programmers.Queues
import OsCourse.Programmers.Posix
import OsCourse.Programmers.SysV
import OsCourse.Programmers.Fifo
import OsCourse.Numbers.Extract
import OsCourse.Numbers.Pipeline
import OsCourse.Numbers.Report
import OsCourse.Numbers.Scanner
import OsCourse.Numbers.Channel
import OsCourse.Numbers.Growth
import OsCourse.Numbers.Receiver
import OsCourse.Numbers.Exchange
import OsCourse.Numbers.Messages
import OsCourse.Students.Loggers
import OsCourse.Students.Proposals
import OsCourse.Students.Suitors
import OsCourse.Students.Shutdown
import OsCourse.Students.Registration
import OsCourse.Students.Answers
import OsCourse.Students.Table
import OsCourse.Students.Collecting
import OsCourse.Students.Heartbeats
import OsCourse.Homework.Compute
import OsCourse.Homework.SignalLogger
import OsCourse.Homework.Relay
import OsCourse.Homework.Chat
import OsCourse.Homework.Enclosure
import OsCourse.Hotel.Clients
import OsCourse.Hotel.Threads
import OsCourse.Hotel.Deadlock
import OsCourse.Hotel.Sections
import OsCourse.Hotel.Days
import OsCourse.Hotel.Timetable
import OsCourse.Hotel.Input
import OsCourse.Hotel.Arguments
import OsCourse.Counter.SysV
import OsCourse.Counter.Posix
import OsCourse.FourPoints.Circle
import OsCourse.FourPoints.Verdict
import OsCourse.Gallery.Server
import OsCourse.Gallery.Handler
import OsCourse.Gallery.Service
import OsCourse.Gallery.Paintings
import OsCourse.Gallery.Isolation
import OsCourse.Gallery.Visitor
import OsCourse.Gallery.Dialogue
import OsCourse.Gallery.Framing
import OsCourse.Gallery.Network
import OsCourse.Gallery.Wiring
import OsCourse.Gallery.Replies
import OsCourse.Gallery.Admission
import OsCourse.Gallery.Normal
import OsCourse.Gallery.Visits
import OsCourse.Gallery.Monitors
import OsCourse.Gallery.Pairing
import OsCourse.Gallery.Plan
import OsCourse.Gallery.Completion
import OsCourse.Gallery.Closing
import OsCourse.Gallery.Repeats
import OsCourse.Gallery.Status
import OsCourse.Gallery.Grammar
import OsCourse.Gallery.Retries
import OsCourse.Gallery.Bounds
import OsCourse.Gallery.Early
import OsCourse.Assembly.Remainder
import OsCourse.Assembly.Minimum
import OsCourse.Assembly.ArraySum
import OsCourse.Assembly.Strcpy
import OsCourse.Assembly.IoHandler
import OsCourse.Assembly.Blocks
import OsCourse.Assembly.StringHandler
import OsCourse.Assembly.Letters
import OsCourse.Semaphores.Clock
import OsCourse.Semaphores.Mixtures
import OsCourse.Semaphores.Ticks
import OsCourse.Semaphores.Stress
import OsCourse.Echo.Connection
import OsCourse.Echo.Deadlock
import OsCourse.Echo.Children
