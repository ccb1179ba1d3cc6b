import PostTrade.Models
import PostTrade.Lib.Frame
import PostTrade.Lib.Gaps
import PostTrade.Storage
import PostTrade.Reconcile.Reconciler
import PostTrade.Reconcile.PositionDrift
import PostTrade.Reconcile.SequenceGaps
import PostTrade.Simulate.TradeBookSimulator
import PostTrade.Simulate.Drift
import PostTrade.Lib.ConsumerGroup
import PostTrade.Lib.Machine
import PostTrade.Queue.RedisStream
import PostTrade.Workers.Worker
import PostTrade.Workers.Steps
import PostTrade.Workers.Safety
import PostTrade.Workers.Recovery
import PostTrade.Workers.Stranding
import PostTrade.Lib.Decimal
import PostTrade.Lib.Json
import PostTrade.Lib.Datetime
import PostTrade.Ingest.Normalize
import PostTrade.Ingest.AsyncIngestor
import PostTrade.Ingest.Publication
import PostTrade.Ingest.Restarts
import PostTrade.Lib.Glob
import PostTrade.Lib.Text
import PostTrade.Bronze.ObjectStore
import PostTrade.Silver.Transform
import PostTrade.Silver.Rebuild
import PostTrade.Silver.NaturalKey
import PostTrade.Orchestration.Sensor
import PostTrade.Simulate.Plantings
import PostTrade.Simulate.PlantedGaps
import PostTrade.Reconcile.UnmatchedFills
import PostTrade.Simulate.UnmatchedFills
import PostTrade.Simulate.ExecutionOrder
import PostTrade.Report.BreakReport
import PostTrade.Lib.Dict
import PostTrade.Bronze.BronzeWriter
import PostTrade.Bronze.ReadBack
import PostTrade.Silver.Content
import PostTrade.Silver.Reruns
import PostTrade.Silver.Overlap
import PostTrade.Bronze.RunBronzeIngestor
import PostTrade.Bronze.Landed
import PostTrade.Silver.Replay
import PostTrade.Reconcile.GapRuns
import PostTrade.Ingest.Reconnects
import PostTrade.Orchestration.Requests
import PostTrade.Bronze.Addresses
import PostTrade.Ingest.Totality
import PostTrade.Silver.FailedRuns
import PostTrade.Silver.Quarantine
import PostTrade.Lib.Window
import PostTrade.Gold.Contiguity
import PostTrade.DuckDB
import PostTrade.Reconcile.TickStores
import PostTrade.LoadTest.LoadHarness
import PostTrade.Reconcile.FillWindows
import PostTrade.Reconcile.DriftRows
import PostTrade.Queue.ClaimStale
import PostTrade.Workers.Shares
import PostTrade.Workers.Returns
import PostTrade.Simulate.NewestTick
import PostTrade.Bronze.PeriodicFlush
import PostTrade.Bronze.BufferAges
import PostTrade.Simulate.GroundTruth
import PostTrade.Lib.Columns
import PostTrade.Lib.Date
import PostTrade.Scale.GenerateDataset
import PostTrade.Reconcile.SameTicks
import PostTrade.Pipeline.Delivery
import PostTrade.Workers.Accounts
import PostTrade.Report.SimulatedRun
import PostTrade.Simulate.ConsumedRun
import PostTrade.Simulate.Ledger
import PostTrade.Orchestration.Runs
import PostTrade.Orchestration.Backfill
import PostTrade.Lib.DataTests
import PostTrade.Silver.Products
import PostTrade.Gold.Build
import PostTrade.Quality.SilverExpectations
import PostTrade.Gold.BatchBackfill
import PostTrade.Pipeline.Captured
