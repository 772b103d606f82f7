import MioBroker.Rust.HashMap
import MioBroker.Calls
import MioBroker.Health
import MioBroker.Routing
import MioBroker.Survivors
import MioBroker.Scenario
import MioBroker.Loop
import MioBroker.Crash
import MioBroker.Output
import MioBroker.Connections
import MioBroker.Pruning
import MioBroker.Tables
import MioBroker.Wills
import MioBroker.Resume
import MioBroker.Decoders
import MioBroker.Queued
import MioBroker.Sessions
import MioBroker.Errands
import MioBroker.Genuine
import MioBroker.Handover
import MioBroker.Awaiting
import MioBroker.Saved
import MioBroker.Codec
import MioBroker.Restart
import MioBroker.Interrupted
import MioBroker.Stream
import MioBroker.Framing
import MioBroker.Relay
import MioBroker.Dedup
import MioBroker.Batch
import MioBroker.Retry
import MioBroker.Reaping
import MioBroker.Resend
import MioBroker.Isolation
import MioBroker.Requests
import MioBroker.Threaded
import MioBroker.Flat
import MioBroker.FlatThreaded
import MioBroker.FlatMio
import MioBroker.FlatLoop
import MioBroker.Reference
import MioBroker.AtLeastOnce
import MioBroker.Discipline
import MioBroker.Caps
import MioBroker.Retained
import MioBroker.Subscribing
import MioBroker.Removal
import MioBroker.Distinct
import MioBroker.Presence
import MioBroker.Grades
import MioBroker.Matching
import MioBroker.Rust.BoundedQueue
import MioBroker.Overload
import MioBroker.Truncated
import MioBroker.FastPath
import MioBroker.Flood
import MioBroker.Offline
import MioBroker.BadLength
import MioBroker.Rounds
import MioBroker.Rust.Entries
import MioBroker.Layout
import MioBroker.Grammar
import MioBroker.Connecting
import MioBroker.Encoding
import MioBroker.Remaining
import MioBroker.SwapRemove
import MioBroker.PacketIds
import MioBroker.Retransmit
import MioBroker.Dollar
import MioBroker.Exchange
import MioBroker.Threads
import MioBroker.Turns
import MioBroker.Sections
import MioBroker.Channels
import MioBroker.Progress
import MioBroker.Departure
import MioBroker.Lockstep
import MioBroker.Duties
import MioBroker.Return
import MioBroker.Buffers
import MioBroker.Intake
import MioBroker.Cutting
import MioBroker.Attempts
import MioBroker.Silence
import MioBroker.Deadlines
import MioBroker.Outflow
import MioBroker.Timers
