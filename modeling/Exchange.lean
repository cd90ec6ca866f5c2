import Exchange.Verify.LifeCycle
import Exchange.Verify.GreedyMatching
import Exchange.Verify.StopMaps
import Exchange.Verify.LimitProtection
import Exchange.Verify.MarketView
import Exchange.Verify.ShardLog
import Exchange.Verify.Publication
import Exchange.Verify.SequenceOrder
import Exchange.Verify.GroupCommit
import Exchange.Verify.DamagedLength
import Exchange.Verify.Restart
import Exchange.Verify.HeldStops
import Exchange.Verify.FillOrKill
import Exchange.Verify.Overflow
import Exchange.Verify.StopCommands
import Exchange.Verify.TriggerComplete
import Exchange.Verify.CancelFrame
import Exchange.Verify.RoundTrip
import Exchange.Verify.Answers
import Exchange.Verify.RecordCodec
import Exchange.Verify.LevelCounts
import Exchange.Verify.InboundFrames
import Exchange.Verify.OutboundStream
import Exchange.Verify.SymbolAliases
import Exchange.Verify.LatestSnapshot
import Exchange.Verify.ShardPlane
import Exchange.Verify.MarketFeed
import Exchange.Verify.SnapshotRecovery
import Exchange.Verify.Durability
import Exchange.Verify.Sessions
import Exchange.Verify.CascadeBook
import Exchange.Verify.Arenas
import Exchange.Verify.CascadeDepth
