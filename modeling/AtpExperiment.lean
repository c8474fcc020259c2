import AtpExperiment.Lib.Octets
import AtpExperiment.Lib.SeqWindow
import AtpExperiment.Lib.Checked
import AtpExperiment.Lib.Runs
import AtpExperiment.Lib.Aead
import AtpExperiment.Lib.Duplex
import AtpExperiment.Lib.Chunks
import AtpExperiment.Lib.StreamReader
import AtpExperiment.Lib.TokenBucket
import AtpExperiment.Lib.Recency
import AtpExperiment.Lib.Spans
import AtpExperiment.Lib.TimeWindow
import AtpExperiment.Replay
import AtpExperiment.ReplayFacts
import AtpExperiment.ReplayLimits
import AtpExperiment.Sealed
import AtpExperiment.SealedFacts
import AtpExperiment.SealedRun
import AtpExperiment.SharedSealer
import AtpExperiment.SharedOpener
import AtpExperiment.Datagram
import AtpExperiment.Planes
import AtpExperiment.ReplayOrder
import AtpExperiment.Raptorq
import AtpExperiment.Blocks
import AtpExperiment.Wire
import AtpExperiment.WireCodec
import AtpExperiment.Tls
import AtpExperiment.Udp
import AtpExperiment.Rate
import AtpExperiment.RateFacts
import AtpExperiment.RateRuns
import AtpExperiment.DeliveredWindow
import AtpExperiment.LossFloor
import AtpExperiment.RateDiscipline
import AtpExperiment.RateLine
import AtpExperiment.PacerLaw
import AtpExperiment.Collect
import AtpExperiment.CollectFacts
import AtpExperiment.FlowOpen
import AtpExperiment.CollectInv
import AtpExperiment.Ledger
import AtpExperiment.Recv
import AtpExperiment.Reassembly
import AtpExperiment.RecvFacts
import AtpExperiment.Keepalive
import AtpExperiment.Feedback
import AtpExperiment.SourceBlocks
import AtpExperiment.Send
import AtpExperiment.SendFacts
import AtpExperiment.LossEstimate
import AtpExperiment.FeedbackArith
import AtpExperiment.SendFeedback
import AtpExperiment.AckSettle
import AtpExperiment.EncoderCache
import AtpExperiment.RepairIds
import AtpExperiment.RepairLimit
import AtpExperiment.SendSymbols
import AtpExperiment.Geometry
import AtpExperiment.Session
import AtpExperiment.RecvWrites
import AtpExperiment.Agreement
import AtpExperiment.Handshake
import AtpExperiment.SealedSession
import AtpExperiment.Integrity
import AtpExperiment.Innovation
import AtpExperiment.NoPanic
import AtpExperiment.Hearing
import AtpExperiment.SprayPath
import AtpExperiment.Failures
import AtpExperiment.Progress
import AtpExperiment.SendPanics
import AtpExperiment.RateLoop
import AtpExperiment.Bottleneck
import AtpExperiment.Startup
import AtpExperiment.Simulate
