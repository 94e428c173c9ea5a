import FifteenBit.Console.Recorder
import FifteenBit.Console.Script
import FifteenBit.Main
import FifteenBit.Proofs.Fetch
import FifteenBit.Proofs.Logged
import FifteenBit.Proofs.Resolution
import FifteenBit.Proofs.OpcodeTable
import FifteenBit.Proofs.Answers
import FifteenBit.Proofs.StepCases
import FifteenBit.Proofs.EffectCases
import FifteenBit.Proofs.WellFormed
import FifteenBit.Proofs.StepEffect
import FifteenBit.Proofs.Handlers
import FifteenBit.Proofs.Host
import FifteenBit.Proofs.Atomicity
import FifteenBit.Proofs.Alike
import FifteenBit.Proofs.StepAnswers
import FifteenBit.Proofs.Replay
import FifteenBit.Proofs.Resume
import FifteenBit.Proofs.Reload
import FifteenBit.Proofs.Lockstep
import FifteenBit.Proofs.Normalization
import FifteenBit.Proofs.RegisterWords
import FifteenBit.Proofs.CallReturn
import FifteenBit.Proofs.InputStream
import FifteenBit.Proofs.Mishaps
import FifteenBit.Proofs.UnreadMemory
import FifteenBit.Proofs.BrokenText
import FifteenBit.Proofs.Sessions
import FifteenBit.Proofs.SnapshotFile
import FifteenBit.Proofs.RestoreChecks
import FifteenBit.Proofs.FaultOrder
import FifteenBit.Proofs.Output
import FifteenBit.Proofs.StepChanges
import FifteenBit.Proofs.Layout
import FifteenBit.Proofs.ImageDecoding
import FifteenBit.Proofs.Refill
import FifteenBit.Proofs.LineCodes
import FifteenBit.Proofs.Members
import FifteenBit.Proofs.TraceText
import FifteenBit.Proofs.History
import FifteenBit.Proofs.Shout
