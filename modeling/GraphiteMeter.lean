import GraphiteMeter.Browser.ByteReportsExact
import GraphiteMeter.Browser.Ceilings
import GraphiteMeter.Browser.Grading
import GraphiteMeter.Browser.History.Listing
import GraphiteMeter.Browser.History.SavingDrains
import GraphiteMeter.Browser.Lease.Covers
import GraphiteMeter.Browser.Lease.Ends
import GraphiteMeter.Browser.LimiterExact
import GraphiteMeter.Browser.ScheduleEdits
import GraphiteMeter.Browser.SeriesExact
import GraphiteMeter.Browser.StageTraceExact
import GraphiteMeter.Client.EngineProtocol
import GraphiteMeter.Client.LatencyRanks
import GraphiteMeter.Client.ProbeAccounting
import GraphiteMeter.Client.UploadFeed
import GraphiteMeter.Http3.CapsuleChunks
import GraphiteMeter.Http3.ControlRules
import GraphiteMeter.Http3.EncoderFits
import GraphiteMeter.Http3.GoawayAgreement
import GraphiteMeter.Http3.MessageGrammar
import GraphiteMeter.Http3.Qpack.HuffmanImage
import GraphiteMeter.Http3.RequestAdmission
import GraphiteMeter.Http3.SendHalf
import GraphiteMeter.Http3.SessionEnd
import GraphiteMeter.Http3.StreamRouting
import GraphiteMeter.Http3.VarintExact
import GraphiteMeter.Measure.Agreement
import GraphiteMeter.Measure.Browser.BucketsExact
import GraphiteMeter.Measure.Browser.PopulationRanks
import GraphiteMeter.Measure.Browser.RateEstimator
import GraphiteMeter.Measure.Browser.StabilityExact
import GraphiteMeter.Measure.Eviction
import GraphiteMeter.Measure.Intervals
import GraphiteMeter.Measure.Ledger
import GraphiteMeter.Proto.Bus
import GraphiteMeter.Proto.CatalogExchange
import GraphiteMeter.Proto.DurationExact
import GraphiteMeter.Server.Admission.Accounting
import GraphiteMeter.Server.Auth.ApprovalHalf
import GraphiteMeter.Server.Auth.Boundary
import GraphiteMeter.Server.Auth.Rate
import GraphiteMeter.Server.Auth.Safety
import GraphiteMeter.Server.LifecycleTimes
import GraphiteMeter.Server.Limits.BudgetThreads
import GraphiteMeter.Server.Limits.Conservation
import GraphiteMeter.Server.Query
import GraphiteMeter.Server.Quic.Budget
import GraphiteMeter.Server.Quic.Compaction
import GraphiteMeter.Server.Quic.Flights
import GraphiteMeter.Server.Quic.KernelRouting
import GraphiteMeter.Server.Upload.Full
import GraphiteMeter.Server.Upload.Observation
import GraphiteMeter.Server.Upload.Ownership
import GraphiteMeter.Server.Upload.SingleUse
import GraphiteMeter.Server.Upload.Watchable
