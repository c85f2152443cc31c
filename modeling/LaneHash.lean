import LaneHash.Backend
import LaneHash.Batch
import LaneHash.Diagnostics.LevelsJson
import LaneHash.Session.Report
import LaneHash.Proofs.MessageProgress
import LaneHash.Proofs.LaneRows
import LaneHash.Proofs.SchedulerInvariant
import LaneHash.Proofs.Moments
import LaneHash.Proofs.PathInvariants
import LaneHash.Proofs.SessionCourse
import LaneHash.Proofs.Custody
import LaneHash.Proofs.Outcomes
import LaneHash.Proofs.SessionInvariant
import LaneHash.Proofs.SlotService
import LaneHash.Proofs.StreamService
import LaneHash.Proofs.Ledger
import LaneHash.Proofs.ProviderCalls
import LaneHash.Proofs.HandedBack
import LaneHash.Proofs.LaneHistory
import LaneHash.Proofs.WaitingOrder
import LaneHash.Proofs.Forgiveness
import LaneHash.Proofs.SessionLikeness
import LaneHash.Proofs.Refusals
import LaneHash.Proofs.BatchDigests
import LaneHash.Proofs.Outstanding
import LaneHash.Proofs.FlushOrder
import LaneHash.Proofs.FreeLanes
import LaneHash.Proofs.PlacedJobs
import LaneHash.Proofs.Twins
import LaneHash.Proofs.LaneLikeness
import LaneHash.Proofs.TwinEngines
import LaneHash.Proofs.SessionRelations
import LaneHash.Proofs.TwinSessions
import LaneHash.Proofs.Abandonment
import LaneHash.Proofs.Bounds
import LaneHash.Proofs.Flushing
import LaneHash.Proofs.SlotConditions
import LaneHash.Proofs.Standing
import LaneHash.Proofs.SlotPast
import LaneHash.Proofs.NewMessage
import LaneHash.Proofs.FinalBlocks
import LaneHash.Proofs.PaddingRecovery
import LaneHash.Proofs.Accounts
import LaneHash.Proofs.Intakes
import LaneHash.Proofs.Listeners
import LaneHash.Proofs.PlannedWork
import LaneHash.Proofs.Saturation
import LaneHash.Proofs.Stays
import LaneHash.Proofs.PieceCourse
import LaneHash.Proofs.LaneDrain
import LaneHash.Proofs.Conclusions
import LaneHash.Proofs.OneLane
import LaneHash.Proofs.SoloCourse
import LaneHash.Proofs.LevelTokens
import LaneHash.Proofs.RecordedEvents
import LaneHash.Proofs.LaneLog
import LaneHash.Proofs.LoggedLanes
import LaneHash.Proofs.Standards.Bits
import LaneHash.Proofs.Standards.Sha
import LaneHash.Proofs.Standards.Sm3
import LaneHash.Proofs.Standards.Md5
import LaneHash.Proofs.Standards.Compression
import LaneHash.Proofs.ProviderLaws
import LaneHash.Proofs.LaneAffinity
import LaneHash.Proofs.DigestWords
