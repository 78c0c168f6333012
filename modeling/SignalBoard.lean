import SignalBoard.Storage.CycleRecord
import SignalBoard.Storage.Document
import SignalBoard.Storage.Settings
import SignalBoard.Storage.Wire
import SignalBoard.Tick.Description
import SignalBoard.Proofs.Digraph.Order
import SignalBoard.Proofs.Digraph.Sort
import SignalBoard.Proofs.Digraph.Loop
import SignalBoard.Proofs.Digraph.Depth
import SignalBoard.Proofs.Digraph.Levels
import SignalBoard.Proofs.Digraph.Resorting
import SignalBoard.Proofs.Digraph.Ties
import SignalBoard.Proofs.Node.Id
import SignalBoard.Proofs.Node.Kind
import SignalBoard.Proofs.Board.Analysis
import SignalBoard.Proofs.Circuit.Call
import SignalBoard.Proofs.Circuit.Plan
import SignalBoard.Proofs.Node.Evaluate
import SignalBoard.Proofs.Node.Memory
import SignalBoard.Proofs.Node.DelayLine
import SignalBoard.Proofs.Circuit.Silence
import SignalBoard.Proofs.Board.Dataflow
import SignalBoard.Proofs.Board.Layout
import SignalBoard.Proofs.Board.Bake
import SignalBoard.Proofs.Digraph.Reach
import SignalBoard.Proofs.Board.Driven
import SignalBoard.Proofs.Board.Pruning
import SignalBoard.Proofs.Board.Refusal
import SignalBoard.Proofs.Board.Snapshot
import SignalBoard.Proofs.Board.Cone
import SignalBoard.Proofs.Board.Unreached
import SignalBoard.Proofs.Board.Recording
import SignalBoard.Proofs.Board.Counting
import SignalBoard.Proofs.Board.Ports
import SignalBoard.Proofs.Circuit.Bounds
import SignalBoard.Proofs.Tick.State
import SignalBoard.Proofs.Tick.Visit
import SignalBoard.Proofs.Tick.Schedule
import SignalBoard.Proofs.Tick.Lockstep
import SignalBoard.Proofs.Tick.Travel
import SignalBoard.Proofs.Tick.Settling
import SignalBoard.Proofs.Tick.Timing
import SignalBoard.Proofs.Tick.Skipping
import SignalBoard.Proofs.Tick.Rewiring
import SignalBoard.Proofs.Tick.Upkeep
import SignalBoard.Proofs.Tick.Firing
import SignalBoard.Proofs.Tick.InFlight
import SignalBoard.Proofs.Tick.Draining
import SignalBoard.Proofs.Tick.Reordering
import SignalBoard.Proofs.Board.Composite
import SignalBoard.Proofs.Tick.Composite
import SignalBoard.Proofs.Binary64.Rounding
import SignalBoard.Proofs.Decimal.Digits
import SignalBoard.Proofs.Decimal.Numeral
import SignalBoard.Proofs.Decimal.Shortest
import SignalBoard.Proofs.Json.Number
import SignalBoard.Proofs.Json.Quoted
import SignalBoard.Proofs.Json.RoundTrip
import SignalBoard.Proofs.Json.Reader
import SignalBoard.Proofs.Value.Record
import SignalBoard.Proofs.Storage.Node
import SignalBoard.Proofs.Storage.Circuit
import SignalBoard.Proofs.Storage.Document
import SignalBoard.Proofs.Board.Reload
import SignalBoard.Proofs.Circuit.Reset
import SignalBoard.Proofs.Circuit.Normalized
import SignalBoard.Proofs.Storage.Normalized
import SignalBoard.Proofs.Storage.Board
import SignalBoard.Proofs.MessagePack.RoundTrip
import SignalBoard.Proofs.Storage.MessagePack
import SignalBoard.Proofs.Circuit.WellFormed
import SignalBoard.Proofs.Circuit.Lookup
import SignalBoard.Proofs.Board.WellFormed
import SignalBoard.Proofs.Board.Resorting
