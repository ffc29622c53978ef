import Distrans.Lib.Machine
import Distrans.Lib.OrdMap
import Distrans.Lib.Tiling
import Distrans.Lib.SelectiveRepeat
import Distrans.Lib.RetryTimer
import Distrans.Lib.Lfsr
import Distrans.Lib.Smoothing
import Distrans.Lib.EventQueue
import Distrans.Lib.Splitter
import Distrans.Lib.Journal
import Distrans.Lib.Fifo
import Distrans.Lib.Runs
import Distrans.Channel.Channel
import Distrans.Channel.Sends
import Distrans.Channel.Returns
import Distrans.Channel.Delivery
import Distrans.Channel.Integrity
import Distrans.Channel.Sound
import Distrans.Frame.Crc32c
import Distrans.Frame.Codec
import Distrans.Frame.Canonical
import Distrans.Frame.Detection
import Distrans.Transport.Segment
import Distrans.Transport.Layout
import Distrans.Transport.Rto
import Distrans.Transport.Estimator
import Distrans.Transport.RtoHistory
import Distrans.Transport.Rfc6298
import Distrans.Transport.Connection
import Distrans.Transport.Branches
import Distrans.Transport.Moves
import Distrans.Transport.Invariants
import Distrans.Transport.Returns
import Distrans.Transport.Guarantees
import Distrans.Transport.Silence
import Distrans.Transport.Window
import Distrans.Transport.Robust
import Distrans.Transport.Control
import Distrans.Transport.Counters
import Distrans.Transport.Honest
import Distrans.Transport.Handshake
import Distrans.Transport.Phases
import Distrans.Transport.Teardown
import Distrans.Transport.Pace
import Distrans.Transport.Congestion
import Distrans.Transport.Admission
import Distrans.Transport.Reassembly
import Distrans.Transport.Ledger
import Distrans.Transport.Segmentation
import Distrans.Transport.Transmissions
import Distrans.Transport.Retries
import Distrans.Transport.Samples
import Distrans.Transport.Karn
import Distrans.Transport.Effect
import Distrans.Transport.Closing
import Distrans.Transport.Farewell
import Distrans.Transport.Speech
import Distrans.Transport.Lossless
import Distrans.Transport.Ranges
import Distrans.Transport.Numbering
import Distrans.Transport.SequenceSpace
import Distrans.Transport.Frames
import Distrans.Transport.Fins
import Distrans.Transport.Resume
import Distrans.Transport.Opening
import Distrans.Transport.Recovery
import Distrans.Rpc.Framing
import Distrans.Rpc.Message
import Distrans.Rpc.Link
import Distrans.Rpc.Lifecycle
import Distrans.Rpc.Budget
import Distrans.Rpc.Stack
import Distrans.Rpc.Records
import Distrans.Rpc.Returns
import Distrans.Workload.Linearizable
import Distrans.Workload.Oracle
import Distrans.Workload.Client
import Distrans.Workload.StopAndWait
import Distrans.Workload.GoBackN
import Distrans.Workload.Stack
import Distrans.Workload.Chaos
import Distrans.Workload.ChaosRule
import Distrans.Workload.ChaosProgress
import Distrans.Workload.ChaosOutcome
import Distrans.Workload.Network
import Distrans.Workload.Traffic
import Distrans.Workload.ChaosSeat
import Distrans.Workload.ChaosService
import Distrans.Workload.ChaosReturns
