import WorkQueue.Broker.Event
import WorkQueue.Command.Printer
import WorkQueue.Connection.Transcript
import WorkQueue.Bytes
import WorkQueue.Main
import WorkQueue.Proofs.Agenda
import WorkQueue.Proofs.Places
import WorkQueue.Proofs.Table
import WorkQueue.Response.Reader
import WorkQueue.Server
import WorkQueue.Stream.Plain
import WorkQueue.Tasks
import WorkQueue.Proofs.Move
import WorkQueue.Proofs.Answers
import WorkQueue.Proofs.Overtaking
import WorkQueue.Proofs.Registry
import WorkQueue.Proofs.Waking
import WorkQueue.Proofs.Decimal
import WorkQueue.Proofs.Grammar
import WorkQueue.Proofs.LineEnds
import WorkQueue.Proofs.SearchMark
import WorkQueue.Proofs.Chunks
import WorkQueue.Proofs.Conversation
import WorkQueue.Proofs.Holding
import WorkQueue.Proofs.Exclusive
import WorkQueue.Proofs.Splitting
import WorkQueue.Proofs.Conservation
import WorkQueue.Proofs.Latency
import WorkQueue.Proofs.Timers
import WorkQueue.Proofs.Messages
import WorkQueue.Proofs.History
import WorkQueue.Proofs.Waiters
import WorkQueue.Proofs.Reservations
import WorkQueue.Proofs.Delays
import WorkQueue.Proofs.Headcount
import WorkQueue.Proofs.HandedOut
import WorkQueue.Proofs.Pauses
import WorkQueue.Proofs.Leaving
import WorkQueue.Proofs.Insertion
import WorkQueue.Proofs.Beats
import WorkQueue.Proofs.LineLimit
import WorkQueue.Proofs.Choosing
import WorkQueue.Proofs.Warnings
import WorkQueue.Proofs.Settling
import WorkQueue.Proofs.Sessions
import WorkQueue.Proofs.HangUps
import WorkQueue.Proofs.Promotions
import WorkQueue.Proofs.Timeouts
import WorkQueue.Proofs.Refusals
import WorkQueue.Proofs.Dropping
import WorkQueue.Proofs.LastDelay
import WorkQueue.Proofs.ClosedTwice
import WorkQueue.Proofs.Watching
import WorkQueue.Proofs.TaskCalls
import WorkQueue.Proofs.Moments
import WorkQueue.Proofs.Draining
import WorkQueue.Proofs.Tallies
import WorkQueue.Proofs.Takings
import WorkQueue.Proofs.Counted
